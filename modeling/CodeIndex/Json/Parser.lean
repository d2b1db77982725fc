import CodeIndex.Failure
import CodeIndex.Json.Basic
import CodeIndex.Number.Decimal

/-!
# Reading JSON

The reader takes what the standard says and three words more, for undefined and infinite numbers.
Control characters in strings, a byte order mark and anything behind the value are refused. Where
an object has a key twice the last value counts, in the place of the first.

Values are read only up to a nesting, and integers only up to a number of digits. What is beyond is a
fault of its own, found where it stands, whatever follows.

Every value takes at least one character, and an item or a field is one step more on the same
characters, so twice the length of the text bounds how far the reader goes.
-/

namespace CodeIndex.Json

def maxDigits : Nat := 4300

def maxDepth : Nat := 988

inductive Fault where
  | malformed
  | tooManyDigits (count : Nat)
  /-- Composed values stand too deep inside each other; the kind is that of the first too deep. -/
  | tooDeep (kind : Text)
deriving DecidableEq

/-- What comes of a fault: a text that is not JSON counts as the given value, all else is a failure. -/
def Fault.orElse {α : Type} (default : α) : Fault → Except Failure α
  | malformed => .ok default
  | tooManyDigits count => .error (.tooManyDigits count)
  | tooDeep kind => .error (.tooDeep kind)

def isGap (c : Char) : Bool := c == ' ' || c == '\t' || c == '\n' || c == '\r'

def skipGap (t : Text) : Text := t.dropWhile isGap

def hexValue? (c : Char) : Option Nat :=
  if '0' ≤ c ∧ c ≤ '9' then some (c.toNat - '0'.toNat)
  else if 'a' ≤ c ∧ c ≤ 'f' then some (c.toNat - 'a'.toNat + 10)
  else if 'A' ≤ c ∧ c ≤ 'F' then some (c.toNat - 'A'.toNat + 10)
  else none

def unitValue? (a b c d : Char) : Option Nat := do
  return (((← hexValue? a) * 16 + (← hexValue? b)) * 16 + (← hexValue? c)) * 16 + (← hexValue? d)

def escaped? : Char → Option Char
  | '"' => some '"'
  | '\\' => some '\\'
  | '/' => some '/'
  | 'b' => some '\x08'
  | 'f' => some '\x0C'
  | 'n' => some '\n'
  | 'r' => some '\r'
  | 't' => some '\t'
  | _ => none

/-- The inside of a string up to its closing quote, as code points and escaped units, behind those
read before, last one first. -/
def stringUnits (done : List Nat) : Text → Except Fault (List Nat × Text)
  | [] => .error .malformed
  | '"' :: rest => .ok (done.reverse, rest)
  | '\\' :: 'u' :: a :: b :: c :: d :: rest =>
    match unitValue? a b c d with
    | some n => stringUnits (n :: done) rest
    | none => .error .malformed
  | '\\' :: c :: rest =>
    match escaped? c with
    | some c => stringUnits (c.toNat :: done) rest
    | none => .error .malformed
  | c :: rest =>
    if c.toNat < 0x20 || c == '\\' then .error .malformed
    else stringUnits (c.toNat :: done) rest

/-- Puts a unit in front of code points, together with the first if the two are halves of one. -/
def joinHalves (n : Nat) : List Nat → List Nat
  | [] => [n]
  | m :: rest =>
    if 0xD800 ≤ n && n < 0xDC00 && 0xDC00 ≤ m && m < 0xE000 then
      (0x10000 + (n - 0xD800) * 1024 + (m - 0xDC00)) :: rest
    else n :: m :: rest

def string (t : Text) : Except Fault (Letters × Text) := do
  let (units, rest) ← stringUnits [] t
  return ((units.foldr joinHalves []).map Letter.ofCode, rest)

def digits (t : Text) : Text × Text := (t.takeWhile Char.isDigit, t.dropWhile Char.isDigit)

/-- The digits of a whole number: a zero alone, or digits that do not start with one. -/
def whole? (t : Text) : Option (Text × Text) :=
  match t with
  | '0' :: rest => some (['0'], rest)
  | _ =>
    match digits t with
    | ([], _) => none
    | found => some found

def fraction? (t : Text) : Option (Text × Text) :=
  match t with
  | '.' :: rest =>
    match digits rest with
    | ([], _) => none
    | found => some found
  | _ => none

def sign (t : Text) : Bool × Text :=
  match t with
  | '-' :: rest => (true, rest)
  | '+' :: rest => (false, rest)
  | _ => (false, t)

def exponent? (t : Text) : Option (Int × Text) :=
  match t with
  | c :: rest =>
    if c = 'e' || c = 'E' then
      match sign rest with
      | (negative, rest) =>
        match digits rest with
        | ([], _) => none
        | (ds, rest) =>
          let n : Int := Decimal.natOfText ds
          some (if negative then -n else n, rest)
    else none
  | [] => none

def unsigned (negative : Bool) (t : Text) : Except Fault (Json × Text) :=
  match whole? t with
  | none => .error .malformed
  | some (ds, afterWhole) =>
    match fraction? afterWhole with
    | some (fs, afterFraction) =>
      let (e, rest) := (exponent? afterFraction).getD (0, afterFraction)
      .ok (.real (Decimal.toDouble negative ⟨Decimal.natOfText (ds ++ fs), e - fs.length⟩), rest)
    | none =>
      match exponent? afterWhole with
      | some (e, rest) =>
        .ok (.real (Decimal.toDouble negative ⟨Decimal.natOfText ds, e⟩), rest)
      | none =>
        if maxDigits < ds.length then .error (.tooManyDigits ds.length)
        else
          let n : Int := Decimal.natOfText ds
          .ok (.int (if negative then -n else n), afterWhole)

def words : List (Text × Json) :=
  [("null".toList, .null), ("true".toList, .bool true), ("false".toList, .bool false),
    ("NaN".toList, .real .nan), ("Infinity".toList, .real (.infinite false)),
    ("-Infinity".toList, .real (.infinite true))]

def simple (t : Text) : Except Fault (Json × Text) :=
  match words.find? fun w => w.1.isPrefixOf t with
  | some (word, v) => .ok (v, t.drop word.length)
  | none =>
    match t with
    | '-' :: rest => unsigned true rest
    | _ => unsigned false t

mutual

/-- A value, in which at most `depth` composed ones stand inside each other. -/
def value : Nat → Nat → Text → Except Fault (Json × Text)
  | 0, _, _ => .error .malformed
  | n + 1, depth, t =>
    match t with
    | '"' :: rest => do
      let (ls, rest) ← string rest
      return (.str ls, rest)
    | '[' :: rest =>
      match depth with
      | 0 => .error (.tooDeep "array".toList)
      | depth + 1 =>
        match skipGap rest with
        | ']' :: rest => .ok (.arr [], rest)
        | rest => items n depth [] rest
    | '\x7b' :: rest =>
      match depth with
      | 0 => .error (.tooDeep "object".toList)
      | depth + 1 =>
        match skipGap rest with
        | '\x7d' :: rest => .ok (.obj [], rest)
        | rest => fields n depth [] rest
    | _ => simple t

def items : Nat → Nat → List Json → Text → Except Fault (Json × Text)
  | 0, _, _, _ => .error .malformed
  | n + 1, depth, done, t => do
    let (v, rest) ← value n depth t
    match skipGap rest with
    | ',' :: rest => items n depth (v :: done) (skipGap rest)
    | ']' :: rest => return (.arr (v :: done).reverse, rest)
    | _ => throw .malformed

def fields : Nat → Nat → Fields → Text → Except Fault (Json × Text)
  | 0, _, _, _ => .error .malformed
  | n + 1, depth, done, t =>
    match t with
    | '"' :: rest => do
      let (key, rest) ← string rest
      match skipGap rest with
      | ':' :: rest =>
        let (v, rest) ← value n depth (skipGap rest)
        match skipGap rest with
        | ',' :: rest => fields n depth ((key, v) :: done) (skipGap rest)
        | '\x7d' :: rest => return (ofFields ((key, v) :: done).reverse, rest)
        | _ => throw .malformed
      | _ => throw .malformed
    | _ => .error .malformed

end

def parse (t : Text) : Except Fault Json := do
  let (v, rest) ← value (2 * t.length + 1) maxDepth (skipGap t)
  if (skipGap rest).isEmpty then return v else throw .malformed

end CodeIndex.Json
