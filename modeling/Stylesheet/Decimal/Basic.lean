/-
Decimal numerals as values: a whole coefficient times a power of ten. Reading one gives the
nearest double; exponents of any size are read without forming the power.
-/
import Stylesheet.Double.Nearest

namespace Stylesheet

/-- `coefficient · 10 ^ exponent`, with a sign. -/
structure Decimal where
  negative : Bool
  coefficient : Nat
  exponent : Int
deriving DecidableEq, Repr

namespace Decimal

/-- Units of the double nearest to `coefficient · 10 ^ exponent`. -/
def nearestUnits (coefficient : Nat) (exponent : Int) : Nat :=
  if 0 ≤ exponent then
    Double.nearestUnits (coefficient * Nat.pow 10 exponent.toNat * Double.unitsPerOne) 1
  else
    Double.nearestUnits (coefficient * Double.unitsPerOne) (Nat.pow 10 (-exponent).toNat)

/-- The nearest double, by its definition. -/
def nearest (d : Decimal) : Double :=
  if 0 ≤ d.exponent then Double.ofRatio d.negative (d.coefficient * Nat.pow 10 d.exponent.toNat) 1
  else Double.ofRatio d.negative d.coefficient (Nat.pow 10 (-d.exponent).toNat)

/-- No finite double reaches this power of ten. -/
def overflowExponent : Nat := 310

/-- Down from the reciprocal of this power of ten, zero is the nearest double. -/
def underflowExponent : Nat := 331

/-- The nearest double; the power of ten is not formed where its size alone decides. -/
def toDouble (d : Decimal) : Double :=
  if d.coefficient = 0 then Double.zero d.negative
  else if overflowExponent ≤ d.exponent then .infinite d.negative
  else if d.exponent + d.coefficient.log2 + underflowExponent ≤ 0 then Double.zero d.negative
  else d.nearest

/-! ## Large and small exponents -/

theorem overflowUnits_le_pow :
    Double.overflowUnits ≤ Nat.pow 10 overflowExponent * Double.unitsPerOne := by
  decide +kernel

theorem unitsPerOne_lt_pow : 4 * Double.unitsPerOne < Nat.pow 10 underflowExponent := by
  decide +kernel

theorem nearest_of_coefficient_eq_zero {d : Decimal} (h : d.coefficient = 0) :
    d.nearest = Double.zero d.negative := by
  have small (den : Nat) (hd : 0 < den) :
      Double.ofRatio d.negative 0 den = Double.zero d.negative :=
    Double.ofUnits_of_underflow _ (by omega)
  rw [nearest, h, Nat.zero_mul]
  split
  · exact small 1 (by decide)
  · exact small _ (Nat.pow_pos (by decide))

theorem nearest_of_large {d : Decimal} (hc : d.coefficient ≠ 0)
    (he : overflowExponent ≤ d.exponent) :
    d.nearest = .infinite d.negative := by
  rw [nearest, if_pos (by simp only [overflowExponent] at he; omega)]
  refine Double.ofUnits_of_overflow _ ?_
  rw [Nat.div_one]
  refine Nat.le_trans overflowUnits_le_pow (Nat.mul_le_mul_right _ ?_)
  have hn : overflowExponent ≤ d.exponent.toNat := by omega
  have grow : Nat.pow 10 overflowExponent ≤ Nat.pow 10 d.exponent.toNat :=
    Nat.pow_le_pow_right (by decide) hn
  refine Nat.le_trans grow ?_
  exact Nat.le_mul_of_pos_left _ (Nat.pos_of_ne_zero hc)

theorem nearest_of_small {d : Decimal}
    (h : d.exponent + d.coefficient.log2 + underflowExponent ≤ 0) :
    d.nearest = Double.zero d.negative := by
  rw [nearest, if_neg (by simp only [underflowExponent] at h; omega)]
  refine Double.ofUnits_of_underflow _ ?_
  have low : d.coefficient ≤ 2 * 10 ^ d.coefficient.log2 := by
    refine Nat.le_trans (Nat.le_of_lt (Nat.lt_log2_self (n := d.coefficient))) ?_
    rw [Nat.pow_succ, Nat.mul_comm]
    exact Nat.mul_le_mul_left _ (Nat.pow_le_pow_left (by decide) _)
  calc 2 * (d.coefficient * Double.unitsPerOne)
      ≤ 2 * (2 * 10 ^ d.coefficient.log2 * Double.unitsPerOne) :=
        Nat.mul_le_mul_left _ (Nat.mul_le_mul_right _ low)
    _ = 10 ^ d.coefficient.log2 * (4 * Double.unitsPerOne) := by
        rw [Nat.mul_assoc 2, ← Nat.mul_assoc 2 2, Nat.mul_left_comm _ 4]
    _ < 10 ^ d.coefficient.log2 * 10 ^ underflowExponent :=
        Nat.mul_lt_mul_of_pos_left unitsPerOne_lt_pow (Nat.pow_pos (by decide))
    _ = 10 ^ (d.coefficient.log2 + underflowExponent) := (Nat.pow_add ..).symm
    _ ≤ 10 ^ (-d.exponent).toNat := Nat.pow_le_pow_right (by decide) (by omega)

theorem toDouble_eq_nearest (d : Decimal) : d.toDouble = d.nearest := by
  rw [toDouble]
  split
  · exact (nearest_of_coefficient_eq_zero ‹_›).symm
  · split
    · exact (nearest_of_large ‹_› ‹_›).symm
    · split
      · exact (nearest_of_small ‹_›).symm
      · rfl

end Decimal

/-- The double nearest to the numeral `whole.fraction`, both given by their decimal digits. -/
def Double.ofDigits (whole fraction : List Char) : Double :=
  Double.ofRatio false (Nat.ofDigitChars 10 (whole ++ fraction) 0) (Nat.pow 10 fraction.length)

end Stylesheet
