/-
The double nearest to a quotient of whole numbers. The quotient is rounded to the grid of 53
significant bits around it, a half to the even neighbour; `representable_nearestUnits` says that
the result lies on its own grid, also when rounding carries into the next power of two.
-/
import Stylesheet.Rounding
import Stylesheet.Double.Basic

namespace Stylesheet.Double

/-! ## Rounding to 53 bits -/

/-- The unit count nearest to `num / den` units among those with 53 significant bits. -/
def nearestUnits (num den : Nat) : Nat :=
  let spacing := Nat.pow 2 (spacingExponent (num / den))
  roundHalfEven num (den * spacing) * spacing

theorem div_lt_of_log2 (q : Nat) : q / Nat.pow 2 (spacingExponent q) < Nat.pow 2 53 := by
  change q / 2 ^ spacingExponent q < 2 ^ 53
  rw [Nat.div_lt_iff_lt_mul (Nat.two_pow_pos _), ← Nat.pow_add]
  refine Nat.lt_of_lt_of_le (Nat.lt_log2_self (n := q)) (Nat.pow_le_pow_right (by decide) ?_)
  simp only [spacingExponent]
  omega

theorem spacing_dvd_mul_two_pow {m s : Nat} (h : m ≤ Nat.pow 2 53) :
    Nat.pow 2 (spacingExponent (m * Nat.pow 2 s)) ∣ m * Nat.pow 2 s := by
  change m ≤ 2 ^ 53 at h
  change 2 ^ spacingExponent (m * 2 ^ s) ∣ m * 2 ^ s
  rcases Nat.lt_or_eq_of_le h with h | rfl
  · refine Nat.dvd_trans (Nat.pow_dvd_pow 2 ?_) (Nat.dvd_mul_left _ _)
    rcases Nat.eq_zero_or_pos m with rfl | hm
    · simp [spacingExponent]
    · have : (m * 2 ^ s).log2 < 53 + s := by
        rw [Nat.log2_lt (by have := Nat.two_pow_pos s; exact Nat.ne_of_gt (Nat.mul_pos hm this)),
          Nat.pow_add]
        exact Nat.mul_lt_mul_of_pos_right h (Nat.two_pow_pos s)
      simp only [spacingExponent]
      omega
  · rw [← Nat.pow_add]
    refine Nat.pow_dvd_pow 2 ?_
    simp only [spacingExponent, Nat.log2_two_pow]
    omega

theorem spacing_dvd_nearestUnits (num den : Nat) :
    Nat.pow 2 (spacingExponent (nearestUnits num den)) ∣ nearestUnits num den := by
  refine spacing_dvd_mul_two_pow (roundHalfEven_le_of_div_lt ?_)
  rw [← Nat.div_div_eq_div_mul]
  exact div_lt_of_log2 _

theorem representable_nearestUnits {num den : Nat} (h : nearestUnits num den < overflowUnits) :
    Representable (nearestUnits num den) :=
  ⟨spacing_dvd_nearestUnits num den, h⟩

/-- Rounding does not fall below a power of two. -/
theorem two_pow_le_nearestUnits {num den k : Nat} (h : Nat.pow 2 k ≤ num / den) :
    Nat.pow 2 k ≤ nearestUnits num den := by
  simp only [nearestUnits, Nat.pow_eq] at h ⊢
  generalize hq : num / den = q at h
  have hq0 : q ≠ 0 := Nat.ne_of_gt (Nat.lt_of_lt_of_le (Nat.two_pow_pos k) h)
  have hk : k ≤ q.log2 := (Nat.le_log2 hq0).2 h
  have hs : spacingExponent q ≤ q.log2 := Nat.sub_le _ _
  have low : q / 2 ^ spacingExponent q ≤ roundHalfEven num (den * 2 ^ spacingExponent q) := by
    rw [← hq, Nat.div_div_eq_div_mul]
    rcases roundHalfEven_eq_or num (den * 2 ^ spacingExponent (num / den)) with e | e <;> omega
  calc 2 ^ k ≤ 2 ^ q.log2 := Nat.pow_le_pow_right (by decide) hk
    _ = 2 ^ (q.log2 - spacingExponent q) * 2 ^ spacingExponent q := by
      rw [← Nat.pow_add, Nat.sub_add_cancel hs]
    _ ≤ q / 2 ^ spacingExponent q * 2 ^ spacingExponent q := by
      refine Nat.mul_le_mul_right _ ?_
      rw [Nat.le_div_iff_mul_le (Nat.two_pow_pos _), ← Nat.pow_add, Nat.sub_add_cancel hs]
      exact Nat.log2_self_le hq0
    _ ≤ _ := Nat.mul_le_mul_right _ low

/-- Less than half a unit is nearest to zero. -/
theorem nearestUnits_eq_zero {num den : Nat} (h : 2 * num < den) : nearestUnits num den = 0 := by
  have hq : num / den = 0 := Nat.div_eq_of_lt (by omega)
  have hr : num % den = num := Nat.mod_eq_of_lt (by omega)
  simp [nearestUnits, hq, spacingExponent, roundHalfEven, hr, h]

/-! ## The nearest double -/

/-- The double nearest to `num / den` units; from half a spacing above the largest finite double
on it is infinite. -/
def ofUnits (negative : Bool) (num den : Nat) : Double :=
  if h : nearestUnits num den < overflowUnits then
    .finite negative (nearestUnits num den) (representable_nearestUnits h)
  else .infinite negative

theorem ofUnits_of_overflow (negative : Bool) {num den : Nat} (h : overflowUnits ≤ num / den) :
    ofUnits negative num den = .infinite negative := by
  rw [ofUnits, dif_neg]
  exact Nat.not_lt.2 (two_pow_le_nearestUnits h)

theorem ofUnits_of_underflow (negative : Bool) {num den : Nat} (h : 2 * num < den) :
    ofUnits negative num den = zero negative := by
  have hz := nearestUnits_eq_zero h
  rw [ofUnits, dif_pos (by rw [hz]; exact overflowUnits_pos)]
  simp only [hz, zero]

/-- The double nearest to `num / den`. -/
def ofRatio (negative : Bool) (num den : Nat) : Double :=
  ofUnits negative (num * unitsPerOne) den

/-- The double nearest to a whole number. -/
def ofInt (n : Int) : Double := ofRatio (n < 0) n.natAbs 1

end Stylesheet.Double
