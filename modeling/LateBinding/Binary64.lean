namespace LateBinding

/-- A floating-point number, given by its bits: one for the sign, eleven for the exponent, and fifty-two for
the fraction. Every payload of a NaN and the sign of a zero are kept. -/
structure Binary64 where
  bits : UInt64
deriving DecidableEq, Inhabited

namespace Binary64

/-- The number of different fractions. -/
def fractions : Nat := Nat.pow 2 52

/-- The exponent that marks the infinities and the bits that stand for no number. -/
def topExponent : Nat := 0x7FF

def isNegative (x : Binary64) : Bool := fractions * (topExponent + 1) ≤ x.bits.toNat

def exponentField (x : Binary64) : Nat := x.bits.toNat / fractions % (topExponent + 1)

def fractionField (x : Binary64) : Nat := x.bits.toNat % fractions

def isNaN (x : Binary64) : Bool := x.exponentField == topExponent && x.fractionField != 0

def isInfinite (x : Binary64) : Bool := x.exponentField == topExponent && x.fractionField == 0

def isZero (x : Binary64) : Bool := x.exponentField == 0 && x.fractionField == 0

/-- Equality of numbers: a NaN equals nothing, not even itself, and the two zeros are equal. -/
def equal (x y : Binary64) : Bool :=
  !x.isNaN && !y.isNaN && (x.bits == y.bits || (x.isZero && y.isZero))

/-- What share a part is of a whole, in per cent, and zero where the whole is zero. The quotient is
rounded before it is multiplied by a hundred. -/
def percentage (part whole : Nat) : Binary64 :=
  if whole = 0 then ⟨0⟩ else ⟨(Float.ofNat part / Float.ofNat whole * 100.0).toBits⟩

theorem equal_comm (x y : Binary64) : x.equal y = y.equal x := by
  simp only [equal, Bool.beq_comm (a := x.bits), Bool.and_comm (x := !x.isNaN),
    Bool.and_comm (x := x.isZero)]

/-- Only a NaN differs from itself. -/
theorem equal_self (x : Binary64) : x.equal x = !x.isNaN := by
  simp [equal]

end Binary64

end LateBinding
