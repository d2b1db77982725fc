import CodeIndex.Text.Basic

/-!
# UTF-8

Encoding, and a decoder that goes byte by byte. Between two bytes the decoder either stands between
characters or knows how many bytes it is still owed, which range the next one must come from, and
the value so far. Overlong forms and values beyond the last code point are refused at the first byte
that rules them out; of a surrogate the first two bytes are taken, and no third one fits.

`decode?` refuses a faulty text, and `decodeLossy` leaves out faulty bytes.
-/

namespace CodeIndex

abbrev Bytes := List UInt8

namespace Utf8

def encodeChar (c : Char) : Bytes :=
  let n := c.toNat
  if n < 0x80 then [n.toUInt8]
  else if n < 0x800 then [(0xC0 + n / 64).toUInt8, (0x80 + n % 64).toUInt8]
  else if n < 0x10000 then
    [(0xE0 + n / 4096).toUInt8, (0x80 + n / 64 % 64).toUInt8, (0x80 + n % 64).toUInt8]
  else
    [(0xF0 + n / 262144).toUInt8, (0x80 + n / 4096 % 64).toUInt8, (0x80 + n / 64 % 64).toUInt8,
      (0x80 + n % 64).toUInt8]

def encode (t : Text) : Bytes := t.flatMap encodeChar

def size (t : Text) : Nat := t.foldl (fun n c => n + (encodeChar c).length) 0

inductive State where
  | between
  /-- `owed` more bytes, the next of them from `low` to `high`, after the bits `value`. -/
  | inside (owed low high value : Nat)
deriving DecidableEq

inductive Outcome where
  | goesOn (s : State)
  | completes (c : Char)
  | isFaulty

def firstByte (b : Nat) : Outcome :=
  if b < 0x80 then .completes (Char.ofNat b)
  else if b < 0xC2 then .isFaulty
  else if b < 0xE0 then .goesOn (.inside 1 0x80 0xBF (b - 0xC0))
  else if b = 0xE0 then .goesOn (.inside 2 0xA0 0xBF 0)
  else if b < 0xF0 then .goesOn (.inside 2 0x80 0xBF (b - 0xE0))
  else if b = 0xF0 then .goesOn (.inside 3 0x90 0xBF 0)
  else if b < 0xF4 then .goesOn (.inside 3 0x80 0xBF (b - 0xF0))
  else if b = 0xF4 then .goesOn (.inside 3 0x80 0x8F 4)
  else .isFaulty

/-- The range of a byte behind the second one. Nothing fits behind the bits that all surrogates
start with. -/
def nextRange (value : Nat) : Nat × Nat :=
  if 0x360 ≤ value ∧ value < 0x380 then (1, 0) else (0x80, 0xBF)

def step (s : State) (byte : UInt8) : Outcome :=
  let b := byte.toNat
  match s with
  | .between => firstByte b
  | .inside owed low high value =>
    if low ≤ b ∧ b ≤ high then
      let value := value * 64 + (b - 0x80)
      if owed = 1 then .completes (Char.ofNat value)
      else .goesOn (.inside (owed - 1) (nextRange value).1 (nextRange value).2 value)
    else .isFaulty

abbrev Progress := State × Text

def feed (p : Progress) (b : UInt8) : Option Progress :=
  match step p.1 b with
  | .goesOn s => some (s, p.2)
  | .completes c => some (.between, c :: p.2)
  | .isFaulty => none

/-- One byte, where a faulty one ends the character it breaks and is tried again on its own. -/
def feedLossy (p : Progress) (b : UInt8) : Progress :=
  ((feed p b).or (feed (.between, p.2) b)).getD (.between, p.2)

def decode? (bs : Bytes) : Option Text :=
  match bs.foldlM feed (.between, []) with
  | some (.between, t) => some t.reverse
  | _ => none

def decodeLossy (bs : Bytes) : Text := (bs.foldl feedLossy (.between, [])).2.reverse

end Utf8

end CodeIndex
