/-
Binary64 numbers. A finite double is a sign and a whole number of units of 2⁻¹⁰⁷⁴, the smallest
positive double; which unit counts occur is `Double.Representable`. A unit count fixes the value,
so equality of doubles is equality of values, but for the two zeros.
-/

namespace Stylesheet

namespace Double

/-- The doubles next to `units` lie `2 ^ spacingExponent units` units away: of the leading bit and
all below it a double keeps 53. -/
def spacingExponent (units : Nat) : Nat := units.log2 - 52

/-- The unit is `2⁻¹⁰⁷⁴`. -/
def fractionBits : Nat := 1074

def unitsPerOne : Nat := Nat.pow 2 fractionBits

/-- The units of `2¹⁰²⁴`, the least power of two that is too large for a finite double. -/
def overflowUnits : Nat := Nat.pow 2 (1024 + fractionBits)

theorem unitsPerOne_pos : 0 < unitsPerOne := Nat.two_pow_pos _

theorem overflowUnits_pos : 0 < overflowUnits := Nat.two_pow_pos _

/-- The unit counts of finite doubles: multiples of their own spacing below `2¹⁰²⁴`. -/
def Representable (units : Nat) : Prop :=
  Nat.pow 2 (spacingExponent units) ∣ units ∧ units < overflowUnits

instance : DecidablePred Representable := fun units =>
  inferInstanceAs (Decidable (Nat.pow 2 (spacingExponent units) ∣ units ∧ units < overflowUnits))

theorem representable_zero : Representable 0 := ⟨Nat.dvd_zero _, overflowUnits_pos⟩

end Double

/-- A binary64 number; not-a-number has no sign. -/
inductive Double
  | nan
  | infinite (negative : Bool)
  | finite (negative : Bool) (units : Nat) (representable : Double.Representable units)
deriving DecidableEq

namespace Double

def zero (negative : Bool) : Double := .finite negative 0 representable_zero

instance : Inhabited Double := ⟨zero false⟩

def isNaN : Double → Bool
  | .nan => true
  | _ => false

def isFinite : Double → Bool
  | .finite .. => true
  | _ => false

/-- Both zeros are zero. -/
def isZero : Double → Bool
  | .finite _ units _ => units == 0
  | _ => false

/-- The sign bit; not-a-number counts as positive. -/
def isNegative : Double → Bool
  | .nan => false
  | .infinite negative => negative
  | .finite negative _ _ => negative

/-- Changes the sign, also of the zeros and infinities. -/
def neg : Double → Double
  | .nan => .nan
  | .infinite negative => .infinite !negative
  | .finite negative units h => .finite (!negative) units h

/-- The whole number left when the fraction is dropped; infinities and not-a-number have none. -/
def truncate? : Double → Option Int
  | .finite negative units _ =>
    let whole : Int := units / unitsPerOne
    some (if negative then -whole else whole)
  | _ => none

theorem isNaN_of_isFinite {x : Double} (h : x.isFinite = true) : x.isNaN = false := by
  cases x with
  | finite negative units representable => rfl
  | infinite negative => cases h
  | nan => cases h

theorem eq_nan_of_isNaN {x : Double} (h : x.isNaN = true) : x = .nan := by
  cases x with
  | nan => rfl
  | infinite negative => cases h
  | finite negative units hr => cases h

end Double

end Stylesheet
