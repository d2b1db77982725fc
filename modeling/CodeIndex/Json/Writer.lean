import CodeIndex.Json.Basic
import CodeIndex.Number.Decimal
import CodeIndex.Text.Quoted

/-!
# Writing JSON

Values are written in ASCII: every other character is escaped, as two units where it lies beyond
the basic plane. Doubles have the fewest digits that read back. A style says whether composed
values are spread over lines.
-/

namespace CodeIndex.Json

/-- How composed values are laid out: on one line, or with the given indentation. -/
structure Style where
  indent : Option Nat

def Style.compact : Style := ⟨none⟩

def Style.spread : Style := ⟨some 2⟩

def Style.lineStart (s : Style) (level : Nat) : Text :=
  match s.indent with
  | none => []
  | some n => '\n' :: List.replicate (n * level) ' '

def Style.separator (s : Style) (level : Nat) : Text :=
  match s.indent with
  | none => [',', ' ']
  | some _ => ',' :: s.lineStart level

def unitText (n : Nat) : Text := '\\' :: 'u' :: Text.hexDigits 4 n

def charText (c : Char) : Text :=
  let n := c.toNat
  if c = '"' then ['\\', '"']
  else if c = '\\' then ['\\', '\\']
  else if c = '\n' then ['\\', 'n']
  else if c = '\r' then ['\\', 'r']
  else if c = '\t' then ['\\', 't']
  else if n = 0x0C then ['\\', 'f']
  else if n = 0x08 then ['\\', 'b']
  else if 0x20 ≤ n && n < 0x7F then [c]
  else if n < 0x10000 then unitText n
  else unitText (0xD800 + (n - 0x10000) / 1024) ++ unitText (0xDC00 + (n - 0x10000) % 1024)

def letterText : Letter → Text
  | .char c => charText c
  | .half i => unitText (0xD800 + i)

def stringText (ls : Letters) : Text := '"' :: ls.flatMap letterText ++ ['"']

def intText (n : Int) : Text := (if n < 0 then ['-'] else []) ++ Decimal.natText n.natAbs

/-- Points stand in their place from four zeros behind them to sixteen digits before them; a written
exponent has at least two digits. -/
def numberLayout : Decimal.Layout := ⟨-4, 15, 2⟩

def realText : Double → Text
  | .nan => "NaN".toList
  | .infinite negative => (if negative then ['-'] else []) ++ "Infinity".toList
  | .finite negative m e =>
    (if negative then ['-'] else []) ++
      Decimal.text numberLayout (if m = 0 then ⟨0, 0⟩ else Decimal.shortest m e)

mutual

def render (style : Style) (level : Nat) : Json → Text
  | null => "null".toList
  | bool true => "true".toList
  | bool false => "false".toList
  | int n => intText n
  | real x => realText x
  | str ls => stringText ls
  | arr [] => "[]".toList
  | arr (item :: rest) =>
    '[' :: style.lineStart (level + 1) ++ render style (level + 1) item ++
      renderItems style (level + 1) rest ++ style.lineStart level ++ [']']
  | obj [] => "\x7b\x7d".toList
  | obj ((key, value) :: rest) =>
    '\x7b' :: style.lineStart (level + 1) ++ stringText key ++ [':', ' '] ++
      render style (level + 1) value ++ renderFields style (level + 1) rest ++
      style.lineStart level ++ ['\x7d']

def renderItems (style : Style) (level : Nat) : List Json → Text
  | [] => []
  | item :: rest =>
    style.separator level ++ render style level item ++ renderItems style level rest

def renderFields (style : Style) (level : Nat) : List (Letters × Json) → Text
  | [] => []
  | (key, value) :: rest =>
    style.separator level ++ stringText key ++ [':', ' '] ++ render style level value ++
      renderFields style level rest

end

def write (style : Style) (v : Json) : Text := render style 0 v

end CodeIndex.Json
