import LateBinding.Decimal.Shortest

namespace LateBinding

namespace Decimal

/-- Exponents of a leading digit from which on a number is written positionally. -/
def positionalFrom : Int := -4

/-- Exponents of a leading digit below which a number is written positionally. -/
def positionalBelow : Int := 16

/-- Digits without the zeros at their end. -/
def significantDigits (n : Nat) : List Char :=
  ((Nat.toDigits 10 n).reverse.dropWhile (· == '0')).reverse

/-- Digits whose first one has exponent `leading`, with the point at its place. -/
def positional (digits : List Char) (leading : Int) : List Char :=
  if leading < 0 then
    ['0', '.'] ++ List.replicate (-leading - 1).toNat '0' ++ digits
  else
    let whole := leading.toNat + 1
    let fraction := digits.drop whole
    digits.take whole ++ List.replicate (whole - digits.length) '0' ++ ['.'] ++
      (if fraction.isEmpty then ['0'] else fraction)

/-- Digits whose first one has exponent `leading`, with the point after the first one. -/
def withExponent (digits : List Char) (leading : Int) : List Char :=
  digits.take 1 ++ (if digits.length ≤ 1 then [] else '.' :: digits.drop 1) ++
    ['e'] ++ (toString leading).toList

/-- The text of a decimal. -/
def Scientific.text (d : Scientific) : List Char :=
  let digits := significantDigits d.digits
  let leading := d.exponent + width d.digits - 1
  if positionalFrom ≤ leading ∧ leading < positionalBelow then positional digits leading
  else withExponent digits leading

end Decimal

/-- The text of a number: its sign, then the shortest decimal that reads back. -/
def Binary64.text (x : Binary64) : String :=
  if x.isNaN then "NaN"
  else
    let magnitude :=
      if x.isInfinite then "inf"
      else if x.isZero then "0.0"
      else String.ofList (Decimal.Dyadic.ofBinary64 x).shortest.text
    if x.isNegative then "-" ++ magnitude else magnitude

end LateBinding
