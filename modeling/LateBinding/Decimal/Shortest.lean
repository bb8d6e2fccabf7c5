import LateBinding.Binary64

namespace LateBinding

namespace Decimal

/-- A positive number `significand * 2 ^ exponent`. -/
structure Dyadic where
  significand : Nat
  exponent : Int
  /-- The gap to the next smaller number is half the gap to the next greater one. -/
  narrowBelow : Bool

/-- The magnitude of a finite number. -/
def Dyadic.ofBinary64 (x : Binary64) : Dyadic :=
  if x.exponentField = 0 then ⟨x.fractionField, -1074, false⟩
  else ⟨Binary64.fractions + x.fractionField, (x.exponentField : Int) - 1075,
    x.fractionField == 0 && 1 < x.exponentField⟩

/-- A decimal `digits * 10 ^ exponent`. -/
structure Scientific where
  digits : Nat
  exponent : Int
deriving DecidableEq

/-- A power with a natural exponent; it is one for the exponents below zero. -/
def power (base : Nat) (exponent : Int) : Nat := Nat.pow base exponent.toNat

/-- The order of `a * 10 ^ i` and `b * 2 ^ j`. -/
def compareScaled (a : Nat) (i : Int) (b : Nat) (j : Int) : Ordering :=
  compare (a * power 10 i * power 2 (-j)) (b * power 2 j * power 10 (-i))

/-- The decimal lies in the interval of those that round to the number. The ends of the interval
belong to it exactly if the significand is even. -/
def Dyadic.readsBack (x : Dyadic) (d : Scientific) : Bool :=
  let lower := if x.narrowBelow then 4 * x.significand - 1 else 4 * x.significand - 2
  let upper := 4 * x.significand + 2
  let ends := x.significand % 2 == 0
  let above := compareScaled d.digits d.exponent lower (x.exponent - 2)
  let below := compareScaled d.digits d.exponent upper (x.exponent - 2)
  (above == .gt || (ends && above == .eq)) && (below == .lt || (ends && below == .eq))

/-- The greatest multiple of `10 ^ unit` that does not exceed the number, in units. -/
def Dyadic.floor (x : Dyadic) (unit : Int) : Nat :=
  (x.significand * power 2 x.exponent * power 10 (-unit)) /
    (power 2 (-x.exponent) * power 10 unit)

/-- The number of decimal digits of a natural number. -/
def width (n : Nat) : Nat := (Nat.toDigits 10 n).length

/-- The exponent of the leading decimal digit of a positive number. -/
def Dyadic.leading (x : Dyadic) : Int :=
  let numerator := x.significand * power 2 x.exponent
  let denominator := power 2 (-x.exponent)
  let guess := (width numerator : Int) - width denominator
  if compareScaled 1 guess x.significand x.exponent == .gt then guess - 1 else guess

/-- The unit of the grid of decimals that show a given number of digits of the number. -/
def Dyadic.unit (x : Dyadic) (digits : Nat) : Int := x.leading - digits + 1

/-- The last point of a grid that does not exceed the number. -/
def Dyadic.below (x : Dyadic) (digits : Nat) : Scientific :=
  ⟨x.floor (x.unit digits), x.unit digits⟩

/-- The first point of a grid that exceeds the number. -/
def Dyadic.above (x : Dyadic) (digits : Nat) : Scientific :=
  ⟨x.floor (x.unit digits) + 1, x.unit digits⟩

/-- The number is at least as near to the point above it as to the point below it. -/
def Dyadic.roundsUp (x : Dyadic) (digits : Nat) : Bool :=
  compareScaled (10 * (x.below digits).digits + 5) (x.unit digits - 1)
    x.significand x.exponent != .gt

/-- The point of the grid with a given number of digits that reads back, if one does: the nearer one of two,
and the greater one if they are equally near. -/
def Dyadic.onGrid? (x : Dyadic) (digits : Nat) : Option Scientific :=
  let nearest := if x.roundsUp digits then [x.above digits, x.below digits]
    else [x.below digits, x.above digits]
  nearest.find? x.readsBack

/-- The most digits that a decimal needs to read back. -/
def enoughDigits : Nat := 17

/-- The shortest decimal that reads back as a positive number. The decimals that do fill an interval around
it, and the first grid that meets the interval has the shortest one. -/
def Dyadic.shortest (x : Dyadic) : Scientific :=
  ((List.range enoughDigits).findSome? fun n => x.onGrid? (n + 1)).getD (x.below enoughDigits)

end Decimal

end LateBinding
