import CodeIndex.Number.Double
import CodeIndex.Text.Basic

/-!
# Decimal texts of doubles

A finite double is written with the fewest significant digits that read back as the same number.
Of two candidates with that many digits the nearer one is taken. Points stand in their place as
long as the decimal exponent is small; beyond that the exponent is written.
-/

namespace CodeIndex

structure Decimal where
  digits : Nat
  exponent : Int
deriving DecidableEq

namespace Decimal

def natText (n : Nat) : Text := Nat.toDigits 10 n

def natOfText (t : Text) : Nat := t.foldl (fun n c => 10 * n + (c.toNat - '0'.toNat)) 0

def ratio (d : Decimal) : Nat × Nat :=
  match d.exponent with
  | .ofNat n => (d.digits * Nat.pow 10 n, 1)
  | .negSucc n => (d.digits, Nat.pow 10 (n + 1))

/-- Decimals beyond this power of ten are infinite or zero as doubles. -/
def magnitudeLimit : Int := 400

def toDouble (negative : Bool) (d : Decimal) : Double :=
  let magnitude := (natText d.digits).length + d.exponent
  if d.digits = 0 || magnitude < -magnitudeLimit then .finite negative 0 Double.minExponent
  else if magnitudeLimit < magnitude then .infinite negative
  else
    let (num, den) := d.ratio
    Double.round negative num den

def inUnits (num den : Nat) : Int → Nat × Nat
  | .ofNat n => (num, den * Nat.pow 10 n)
  | .negSucc n => (num * Nat.pow 10 (n + 1), den)

def neighbours (num den : Nat) (exponent : Int) : List Decimal :=
  let (n, d) := inUnits num den exponent
  let below : Decimal := ⟨n / d, exponent⟩
  let above : Decimal := ⟨n / d + 1, exponent⟩
  let twice := 2 * (n % d)
  if twice < d || (twice = d && n / d % 2 = 0) then [below, above] else [above, below]

def maxDigits : Nat := 17

/-- An upper bound for the decimal exponent of a positive quotient: ten to it exceeds the
quotient. It is computed from the number of bits and lowered while it can be. -/
def pointAfter (num den : Nat) : Int :=
  let bits : Int := Double.floorLog2 num den
  let guess : Int := bits * 30103 / 100000 + 2
  let exceeds (k : Int) : Bool :=
    let (n, d) := inUnits num den k
    n < d
  if exceeds (guess - 2) then guess - 2
  else if exceeds (guess - 1) then guess - 1
  else guess

def candidates (num den : Nat) : List Decimal :=
  let point := pointAfter num den
  (List.range maxDigits).flatMap fun (k : Nat) => neighbours num den (point - (k + 1 : Int))

def exact (mantissa : Nat) : Int → Decimal
  | .ofNat n => ⟨mantissa * Nat.pow 2 n, 0⟩
  | .negSucc n => ⟨mantissa * Nat.pow 5 (n + 1), -(n + 1)⟩

def shortest (mantissa : Nat) (exponent : Int) : Decimal :=
  let (num, den) := Double.scale mantissa 1 exponent
  ((candidates num den).find? fun d =>
    d.toDouble false == .finite false mantissa exponent).getD (exact mantissa exponent)

structure Layout where
  /-- The point stands in its place while the decimal exponent of the first digit is at least
  this. -/
  leastPositional : Int
  /-- The point stands in its place while the decimal exponent of the first digit is at most
  this. -/
  greatestPositional : Int
  exponentDigits : Nat

def exponentText (layout : Layout) (e : Int) : Text :=
  let ds := natText e.natAbs
  'e' :: (if e < 0 then '-' else '+') ::
    List.replicate (layout.exponentDigits - ds.length) '0' ++ ds

def layoutText (layout : Layout) (ds : Text) (first : Int) : Text :=
  if layout.leastPositional ≤ first ∧ first ≤ layout.greatestPositional then
    match first with
    | .ofNat n =>
      let whole := ds.take (n + 1)
      let fraction := ds.drop (n + 1)
      whole ++ List.replicate (n + 1 - whole.length) '0' ++ ['.'] ++
        (if fraction.isEmpty then ['0'] else fraction)
    | .negSucc n => '0' :: '.' :: List.replicate n '0' ++ ds
  else
    ds.take 1 ++ (if ds.length = 1 then [] else '.' :: ds.drop 1) ++ exponentText layout first

def withoutTrailingZeros (ds : Text) : Text × Nat :=
  let kept := (ds.reverse.dropWhile (· == '0')).reverse
  (kept, ds.length - kept.length)

def text (layout : Layout) (d : Decimal) : Text :=
  if d.digits = 0 then "0.0".toList
  else
    let ds := natText d.digits
    layoutText layout (withoutTrailingZeros ds).1 (d.exponent + ds.length - 1)

end Decimal

/-- A time in seconds from whole seconds and nanoseconds, with the rounding of a product and a
sum. -/
def Double.ofTime (seconds : Int) (nanoseconds : Nat) : Double :=
  (Double.ofInt seconds).add
    ((Decimal.toDouble false ⟨1, -9⟩).mul (Double.ofInt nanoseconds))

end CodeIndex
