/-!
# Double-precision numbers

Binary floating-point numbers with 53 bits, as exact values: a sign, a mantissa and a power of two.
`Double.round` is the only way in. It takes the nearest number to a quotient, the one with the even
mantissa where two are equally near, so that sums, products and decimals are all one exact
calculation and one rounding.
-/

namespace CodeIndex

inductive Double where
  | nan
  | infinite (negative : Bool)
  /-- The mantissa times two to the exponent, with a sign. -/
  | finite (negative : Bool) (mantissa : Nat) (exponent : Int)
deriving DecidableEq

namespace Double

def roundQuotient (num den : Nat) : Nat :=
  let q := num / den
  let twice := 2 * (num % den)
  if twice < den then q
  else if den < twice then q + 1
  else if q % 2 = 0 then q else q + 1

def scale (num den : Nat) : Int → Nat × Nat
  | .ofNat n => (num * Nat.pow 2 n, den)
  | .negSucc n => (num, den * Nat.pow 2 (n + 1))

def precision : Nat := 53

def minExponent : Int := -1074

def maxExponent : Int := 971

def floorLog2 (num den : Nat) : Int :=
  let guess : Int := (Nat.log2 num : Int) - Nat.log2 den
  let (n, d) := scale num den (-guess)
  if d ≤ n then guess else guess - 1

def exponentFor (num den : Nat) : Int := max minExponent (floorLog2 num den - (precision - 1))

def round (negative : Bool) (num den : Nat) : Double :=
  if num = 0 then finite negative 0 minExponent
  else
    let e := exponentFor num den
    let (n, d) := scale num den (-e)
    let m := roundQuotient n d
    let (m, e) := if m = Nat.pow 2 precision then (Nat.pow 2 (precision - 1), e + 1) else (m, e)
    if maxExponent < e then infinite negative else finite negative m e

def ofRatio (num : Int) (den : Nat) : Double := round (num < 0) num.natAbs den

def ofInt (n : Int) : Double := ofRatio n 1

/-- A finite number as an integer divided by a power of two; zero for the others. -/
def ratio : Double → Int × Nat
  | finite negative m e =>
    let (n, d) := scale m 1 e
    (if negative then -(n : Int) else n, d)
  | _ => (0, 1)

def mul (x y : Double) : Double :=
  let (n, d) := x.ratio
  let (n', d') := y.ratio
  ofRatio (n * n') (d * d')

def add (x y : Double) : Double :=
  let (n, d) := x.ratio
  let (n', d') := y.ratio
  ofRatio (n * d' + n' * d) (d * d')

def isFinite : Double → Bool
  | finite .. => true
  | _ => false

/-- Equality of values: zeros are equal whatever their sign, and nothing equals an undefined
number. -/
def sameValue : Double → Double → Bool
  | infinite s, infinite s' => s == s'
  | finite s m e, finite s' m' e' =>
    let (n, d) := (finite s m e).ratio
    let (n', d') := (finite s' m' e').ratio
    n * d' == n' * d
  | _, _ => false

def atMostRatio (x : Double) (num : Int) (den : Nat) : Bool :=
  match x with
  | nan => false
  | infinite negative => negative
  | finite s m e =>
    let (n, d) := (finite s m e).ratio
    n * den ≤ num * d

def atLeastRatio (x : Double) (num : Int) (den : Nat) : Bool :=
  match x with
  | nan => false
  | infinite negative => !negative
  | finite s m e =>
    let (n, d) := (finite s m e).ratio
    num * d ≤ n * den

def atMostInt (x : Double) (k : Int) : Bool := x.atMostRatio k 1

def atLeastInt (x : Double) (k : Int) : Bool := x.atLeastRatio k 1

def atMost (x y : Double) : Bool :=
  match y with
  | nan => false
  | infinite negative => if negative then decide (x = infinite true) else decide (x ≠ nan)
  | finite s m e => let (n, d) := (finite s m e).ratio; x.atMostRatio n d

def sameInt (x : Double) (k : Int) : Bool :=
  x.isFinite && (let (n, d) := x.ratio; n == k * d)

def isZero : Double → Bool
  | finite _ m _ => m == 0
  | _ => false

end Double

end CodeIndex
