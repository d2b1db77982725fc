import CodeIndex.Number.Double
import CodeIndex.Text.Basic

/-!
# JSON values

Numbers written without a point and an exponent are integers of any size, all others are doubles.
The fields of an object keep the order in which they came, and a key occurs once: setting it again
changes the value and keeps the place.

Characters beyond the basic plane may be escaped in two halves. A half that stands alone means no
character, but it is kept, so strings are made of letters and not of characters.
-/

namespace CodeIndex

namespace Json

inductive Letter where
  | char (c : Char)
  /-- One of the first halves, of which there are 1024, or of the second ones, which follow. -/
  | half (i : Fin 2048)
deriving DecidableEq

abbrev Letters := List Letter

def letters (t : Text) : Letters := t.map .char

namespace Letter

def code : Letter → Nat
  | char c => c.toNat
  | half i => 0xD800 + i

def ofCode (n : Nat) : Letter :=
  if h : 0xD800 ≤ n ∧ n < 0xE000 then half ⟨n - 0xD800, by omega⟩ else char (Char.ofNat n)

def char? : Letter → Option Char
  | char c => some c
  | half _ => none

end Letter

namespace Letters

def text? (ls : Letters) : Option Text := ls.mapM Letter.char?

def le : Letters → Letters → Bool
  | [], _ => true
  | _ :: _, [] => false
  | c :: cs, d :: ds => if c = d then le cs ds else c.code < d.code

def occursIn (part : Letters) : Letters → Bool
  | [] => part.isEmpty
  | c :: cs => part.isPrefixOf (c :: cs) || occursIn part cs

end Letters

end Json

inductive Json where
  | null
  | bool (b : Bool)
  | int (n : Int)
  | real (x : Double)
  | str (ls : Json.Letters)
  | arr (items : List Json)
  | obj (fields : List (Json.Letters × Json))

namespace Json

abbrev Fields := List (Letters × Json)

def text (t : Text) : Json := .str (letters t)

def record (fields : List (String × Json)) : Json :=
  .obj (fields.map fun f => (letters f.1.toList, f.2))

def field? (fields : Fields) (key : Letters) : Option Json :=
  (fields.find? fun f => f.1 = key).map Prod.snd

def named? (fields : Fields) (key : String) : Option Json := field? fields (letters key.toList)

/-- Sets the value of a key, in its place if the key is there and at the end if it is not. -/
def setField (fields : Fields) (key : Letters) (value : Json) : Fields :=
  if fields.any fun f => f.1 = key then
    fields.map fun f => if f.1 = key then (key, value) else f
  else fields ++ [(key, value)]

def eraseField (fields : Fields) (key : Letters) : Fields := fields.filter fun f => f.1 ≠ key

def ofFields (fields : Fields) : Json :=
  .obj (fields.foldl (fun done f => setField done f.1 f.2) [])

/-- Whether a value says anything: it is neither null, nor false, nor zero, nor empty. -/
def isSet : Json → Bool
  | null => false
  | bool b => b
  | int n => n != 0
  | real x => !x.isZero
  | str ls => !ls.isEmpty
  | arr items => !items.isEmpty
  | obj fields => !fields.isEmpty

/-- A number: an integer or a double. A Boolean counts as one or zero. -/
def number? : Json → Option (Int ⊕ Double)
  | bool b => some (.inl (if b then 1 else 0))
  | int n => some (.inl n)
  | real x => some (.inr x)
  | _ => none

def sameNumber (a b : Json) : Bool :=
  match a.number?, b.number? with
  | some (.inl m), some (.inl n) => m == n
  | some (.inl m), some (.inr y) => y.sameInt m
  | some (.inr x), some (.inl n) => x.sameInt n
  | some (.inr x), some (.inr y) => x.sameValue y
  | _, _ => false

def numberLe (a b : Int ⊕ Double) : Bool :=
  match a, b with
  | .inl m, .inl n => m ≤ n
  | .inl m, .inr y => y.atLeastInt m
  | .inr x, .inl n => x.atMostInt n
  | .inr x, .inr y => x.atMost y

def isUndefined : Json → Bool
  | real .nan => true
  | _ => false

/-- Whether two values that are not composed are the same: as numbers, as strings, or as undefined
numbers. -/
def sameScalar : Json → Json → Bool
  | str s, str t => s == t
  | null, null => true
  | a, b => a.sameNumber b || (a.isUndefined && b.isUndefined)

mutual

def depth : Json → Nat
  | arr items => depthOfItems items + 1
  | obj fields => depthOfFields fields + 1
  | _ => 0

def depthOfItems : List Json → Nat
  | [] => 0
  | v :: rest => max v.depth (depthOfItems rest)

def depthOfFields : List (Letters × Json) → Nat
  | [] => 0
  | (_, v) :: rest => max v.depth (depthOfFields rest)

end

def isComposed : Json → Bool
  | arr _ => true
  | obj _ => true
  | _ => false

end Json

end CodeIndex
