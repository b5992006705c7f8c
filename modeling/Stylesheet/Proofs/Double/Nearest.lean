/-
Which quotients are rounded to a given double. Rounding looks at the quotient alone, not at how it is
written, and whatever is off a double by less than the 2⁵⁴th part of it is rounded to it: next to a
power of two that is half the distance to the double below.
-/
import Mathlib.Tactic
import Stylesheet.Double.Nearest

namespace Stylesheet

/-! ## Whole numbers -/

theorem roundHalfEven_mul (num den : Nat) {k : Nat} (hk : 0 < k) :
    roundHalfEven (num * k) (den * k) = roundHalfEven num den := by
  unfold roundHalfEven
  dsimp only
  rw [Nat.mul_div_mul_right _ _ hk, Nat.mul_mod_mul_right, ← mul_assoc]
  simp only [Nat.mul_lt_mul_right hk]

/-- Less than a half off, a quotient is rounded to the whole number. -/
theorem roundHalfEven_eq_of_close {num den m : Nat} (hlow : 2 * m * den < 2 * num + den)
    (hhigh : 2 * num < 2 * m * den + den) : roundHalfEven num den = m := by
  have hden : 0 < den := by
    rcases Nat.eq_zero_or_pos den with rfl | h
    · omega
    · exact h
  have hq := Nat.div_add_mod num den
  have hr := Nat.mod_lt num hden
  unfold roundHalfEven
  generalize num / den = q at hq ⊢
  generalize num % den = r at hq hr ⊢
  have h1 : q ≤ m := by
    by_contra hn
    have : den * (m + 1) ≤ den * q := Nat.mul_le_mul_left _ (by omega)
    nlinarith
  have h2 : m ≤ q + 1 := by
    by_contra hn
    have : den * (q + 2) ≤ den * m := Nat.mul_le_mul_left _ (by omega)
    nlinarith
  rcases (by omega : m = q ∨ m = q + 1) with rfl | rfl
  · rw [if_pos (by nlinarith)]
  · rw [if_neg (by nlinarith), if_pos (by nlinarith)]

/-- A whole number is at most the rounded quotient if it is above the quotient by a half at most, and even at a half. -/
theorem le_roundHalfEven_iff (num m : Nat) {den : Nat} (hden : 0 < den) : m ≤ roundHalfEven num den ↔
    2 * (m * den) < 2 * num + den ∨ 2 * (m * den) = 2 * num + den ∧ m % 2 = 0 := by
  have hq := Nat.div_add_mod num den
  have hr := Nat.mod_lt num hden
  have hround := roundHalfEven_eq_or num den
  rcases Nat.lt_trichotomy m (num / den + 1) with hlt | rfl | hgt
  · have hmul : m * den ≤ num / den * den := Nat.mul_le_mul_right _ (Nat.lt_succ_iff.1 hlt)
    rw [Nat.mul_comm (num / den)] at hmul
    exact iff_of_true (by omega) (.inl (by omega))
  · have hmul : (num / den + 1) * den = den * (num / den) + den := by ring
    rw [hmul]
    unfold roundHalfEven
    dsimp only
    split_ifs <;> omega
  · have hmul : (num / den + 2) * den ≤ m * den := Nat.mul_le_mul_right _ hgt
    rw [Nat.add_mul, Nat.mul_comm (num / den)] at hmul
    exact iff_of_false (by omega) (by omega)

theorem roundHalfEven_le_iff (num m : Nat) {den : Nat} (hden : 0 < den) : roundHalfEven num den ≤ m ↔
    2 * num < 2 * (m * den) + den ∨ 2 * num = 2 * (m * den) + den ∧ m % 2 = 0 := by
  have hnext := le_roundHalfEven_iff num (m + 1) hden
  rw [← not_lt, Nat.lt_iff_add_one_le, hnext, Nat.add_mul]
  omega

/-- The rounded quotient is at most half off. -/
theorem roundHalfEven_close (num : Nat) {den : Nat} (hden : 0 < den) :
    2 * (roundHalfEven num den * den) ≤ 2 * num + den ∧ 2 * num ≤ 2 * (roundHalfEven num den * den) + den := by
  have hq := Nat.div_add_mod num den
  have hr := Nat.mod_lt num hden
  unfold roundHalfEven
  generalize num / den = q at hq ⊢
  generalize num % den = r at hq hr ⊢
  have hnext : (q + 1) * den = den * q + den := by ring
  have hsame : q * den = den * q := mul_comm ..
  dsimp only
  split_ifs <;> constructor <;> rw [‹_ * den = _›] <;> omega

/-- A quotient that is off a whole number by less than one is rounded to it or to one of its neighbours. -/
theorem roundHalfEven_of_near {num den m : Nat} (hlow : m * den < num + den) (hhigh : num < m * den + den) :
    m ≤ roundHalfEven num den + 1 ∧ roundHalfEven num den ≤ m + 1 := by
  have hden : 0 < den := by omega
  obtain ⟨hbelow, habove⟩ := roundHalfEven_close num hden
  generalize roundHalfEven num den = near at hbelow habove ⊢
  constructor
  · have hlt : 2 * m * den < (2 * near + 3) * den := by
      rw [Nat.add_mul, Nat.mul_assoc, Nat.mul_assoc 2 near]
      omega
    have := Nat.lt_of_mul_lt_mul_right hlt
    omega
  · have hlt : 2 * near * den < (2 * m + 3) * den := by
      rw [Nat.add_mul, Nat.mul_assoc, Nat.mul_assoc 2 m]
      omega
    have := Nat.lt_of_mul_lt_mul_right hlt
    omega

namespace Double

theorem unitsPerOne_eq : unitsPerOne = 2 ^ fractionBits := by
  unfold unitsPerOne
  generalize fractionBits = b
  exact Nat.pow_eq

/-! ## Quotients -/

theorem nearestUnits_mul (num den : Nat) {k : Nat} (hk : 0 < k) :
    nearestUnits (num * k) (den * k) = nearestUnits num den := by
  unfold nearestUnits
  rw [Nat.mul_div_mul_right _ _ hk]
  dsimp only
  rw [mul_right_comm den k, roundHalfEven_mul _ _ hk]

/-- Equal quotients have the same nearest double. -/
theorem nearestUnits_eq_of_mul_eq {num den num' den' : Nat} (hden : 0 < den) (hden' : 0 < den')
    (h : num * den' = num' * den) : nearestUnits num den = nearestUnits num' den' := by
  rw [← nearestUnits_mul num den hden', h, mul_comm den den', nearestUnits_mul _ _ hden]

theorem nearestUnits_eq_of_div_eq {num den num' den' : Nat} (hden : 0 < den) (hden' : 0 < den')
    (h : (num : ℚ) / den = (num' : ℚ) / den') : nearestUnits num den = nearestUnits num' den' := by
  refine nearestUnits_eq_of_mul_eq hden hden' ?_
  rw [div_eq_div_iff (by exact_mod_cast hden.ne') (by exact_mod_cast hden'.ne')] at h
  exact_mod_cast h

/-- Rounding does not go beyond a power of two. -/
theorem nearestUnits_le_two_pow {num den k : Nat} (h : num < 2 ^ k * den) : nearestUnits num den ≤ 2 ^ k := by
  have hden : 0 < den := Nat.pos_of_ne_zero (by rintro rfl; simp at h)
  have hq : num / den < 2 ^ k := (Nat.div_lt_iff_lt_mul hden).2 h
  have hs : spacingExponent (num / den) ≤ k := by
    have hlog : (num / den).log2 ≤ k := by
      rcases Nat.eq_zero_or_pos (num / den) with hz | hpos
      · rw [hz]
        exact Nat.zero_le _
      · exact ((Nat.log2_lt hpos.ne').2 hq).le
    exact (Nat.sub_le _ _).trans hlog
  show roundHalfEven num (den * 2 ^ spacingExponent (num / den)) * 2 ^ spacingExponent (num / den) ≤ 2 ^ k
  generalize spacingExponent (num / den) = s at hs
  have hpow : 2 ^ k = 2 ^ (k - s) * 2 ^ s := by rw [← pow_add, Nat.sub_add_cancel hs]
  rw [hpow] at hq ⊢
  refine Nat.mul_le_mul_right _ (roundHalfEven_le_of_div_lt ?_)
  rw [← Nat.div_div_eq_div_mul]
  exact (Nat.div_lt_iff_lt_mul (Nat.two_pow_pos s)).2 hq

/-- What is below a power of two that is a double is rounded to a double. -/
theorem nearestUnits_lt_overflowUnits {num den k : Nat} (hk : k < 1024) (h : num < 2 ^ k * unitsPerOne * den) :
    nearestUnits num den < overflowUnits := by
  rw [unitsPerOne_eq, ← pow_add] at h
  refine (nearestUnits_le_two_pow h).trans_lt ?_
  unfold overflowUnits
  generalize fractionBits = b
  exact Nat.pow_lt_pow_right (by decide) (Nat.add_lt_add_right hk b)

/-- Rounding does not fall below a double. -/
theorem le_nearestUnits {num den units : Nat} (hs : 2 ^ spacingExponent units ∣ units) (h : units ≤ num / den) :
    units ≤ nearestUnits num den := by
  rcases Nat.eq_zero_or_pos units with rfl | hpos
  · exact Nat.zero_le _
  have hlog : units.log2 ≤ (num / den).log2 := (Nat.le_log2 (by omega)).2 ((Nat.log2_self_le hpos.ne').trans h)
  rcases Nat.eq_or_lt_of_le hlog with heq | hlt
  · -- both are on one grid
    show units ≤ roundHalfEven num (den * 2 ^ spacingExponent (num / den)) * 2 ^ spacingExponent (num / den)
    unfold spacingExponent at hs ⊢
    rw [← heq]
    obtain ⟨m, hm⟩ := hs
    have hspos : 0 < 2 ^ (units.log2 - 52) := Nat.two_pow_pos _
    generalize 2 ^ (units.log2 - 52) = s at hm hspos ⊢
    have hround : num / (den * s) ≤ roundHalfEven num (den * s) := by
      rcases roundHalfEven_eq_or num (den * s) with heq | heq <;> omega
    have hm' : m ≤ num / (den * s) := by
      rw [← Nat.div_div_eq_div_mul, Nat.le_div_iff_mul_le hspos, Nat.mul_comm, ← hm]
      exact h
    rw [hm, Nat.mul_comm s]
    exact Nat.mul_le_mul_right _ (hm'.trans hround)
  · calc units ≤ 2 ^ (units.log2 + 1) := Nat.lt_log2_self.le
      _ ≤ 2 ^ (num / den).log2 := Nat.pow_le_pow_right (by decide) hlt
      _ ≤ nearestUnits num den := two_pow_le_nearestUnits (Nat.log2_self_le (by omega))

/-! ## Quotients near a double -/

section Close

variable {num den units : Nat} (hden : 0 < den) (hs : 2 ^ spacingExponent units ∣ units)
  (hlow : (2 ^ 54 - 1) * (units * den) < 2 ^ 54 * num) (hhigh : 2 ^ 54 * num < (2 ^ 54 + 1) * (units * den))

include hden hs hlow in
/-- The double has at most 53 bits on the grid of a quotient near it. -/
theorem le_of_close : units ≤ 2 ^ 53 * 2 ^ spacingExponent (num / den) := by
  by_contra hn
  generalize hp : spacingExponent (num / den) = p at hn
  have hnum : num < 2 ^ 53 * 2 ^ p * den := by
    have hq : num / den / 2 ^ spacingExponent (num / den) < 2 ^ 53 := div_lt_of_log2 (num / den)
    rwa [hp, Nat.div_lt_iff_lt_mul (Nat.two_pow_pos _), Nat.div_lt_iff_lt_mul hden] at hq
  -- the double lies above that power of two, so by half a spacing of it at least
  have hnext : 2 ^ 53 * 2 ^ p + 2 * 2 ^ p ≤ units := by
    have hlog : 53 + p ≤ units.log2 := by
      rw [Nat.le_log2 (by omega), pow_add]
      omega
    have hdvd : 2 ^ (p + 1) ∣ units := (Nat.pow_dvd_pow 2 (by unfold spacingExponent; omega)).trans hs
    have hdvd' : 2 ^ (p + 1) ∣ 2 ^ 53 * 2 ^ p := by
      rw [← pow_add]; exact Nat.pow_dvd_pow 2 (by omega)
    have hpos : 0 < units - 2 ^ 53 * 2 ^ p := by omega
    have := Nat.le_of_dvd hpos (Nat.dvd_sub hdvd hdvd')
    rw [Nat.pow_succ'] at this
    omega
  have hmul := Nat.mul_le_mul_right den hnext
  have hpos : 0 < 2 ^ p * den := Nat.mul_pos (Nat.two_pow_pos p) hden
  rw [Nat.mul_assoc] at hnum
  rw [Nat.add_mul, Nat.mul_assoc, Nat.mul_assoc] at hmul
  generalize 2 ^ p * den = a at hnum hmul hpos
  omega

include hden hs hhigh in
/-- A quotient near a double is on a grid that holds the double. -/
theorem dvd_of_close : 2 ^ spacingExponent (num / den) ∣ units := by
  refine (Nat.pow_dvd_pow 2 ?_).trans hs
  unfold spacingExponent
  refine Nat.sub_le_sub_right ?_ 52
  have hunits : units ≠ 0 := by rintro rfl; omega
  rcases Nat.eq_zero_or_pos (num / den) with hz | hpos
  · rw [hz]; exact Nat.zero_le _
  rw [← Nat.lt_succ_iff, Nat.log2_lt (Nat.ne_of_gt hpos), Nat.div_lt_iff_lt_mul hden]
  set k := units.log2 with hk
  -- the double ends a spacing below the next power of two
  have hnext : units + 2 ^ (k - 52) ≤ 2 ^ (k + 1) := by
    have hlt : units < 2 ^ (k + 1) := Nat.lt_log2_self
    have hdvd : 2 ^ (k - 52) ∣ 2 ^ (k + 1) := Nat.pow_dvd_pow 2 (by omega)
    have := Nat.le_of_dvd (by omega) (Nat.dvd_sub hdvd (hs : 2 ^ (k - 52) ∣ units))
    omega
  have hpow : 2 ^ (k + 1) ≤ 2 ^ 53 * 2 ^ (k - 52) := by
    rw [← pow_add]; exact Nat.pow_le_pow_right (by decide) (by omega)
  have hmul := Nat.mul_le_mul_right den hnext
  have hmul' := Nat.mul_le_mul_right den hpow
  rw [Nat.add_mul] at hmul
  rw [Nat.mul_assoc] at hmul'
  generalize 2 ^ (k - 52) * den = a at hmul hmul'
  generalize 2 ^ (k + 1) * den = b at hmul hmul' ⊢
  omega

include hden hs hlow hhigh in
/-- What is off a double by less than its 2⁵⁴th part is rounded to it. -/
theorem nearestUnits_eq_of_close : nearestUnits num den = units := by
  have hle := le_of_close hden hs hlow
  obtain ⟨m, hm⟩ := dvd_of_close hden hs hhigh
  show roundHalfEven num (den * 2 ^ spacingExponent (num / den)) * 2 ^ spacingExponent (num / den) = units
  generalize 2 ^ spacingExponent (num / den) = s at hle hm ⊢
  have hsd : m * (den * s) ≤ 2 ^ 53 * (den * s) := by
    refine Nat.mul_le_mul_right _ (Nat.le_of_mul_le_mul_right (c := s) ?_ ?_)
    · rw [mul_comm m, ← hm]; exact hle
    · rcases Nat.eq_zero_or_pos s with rfl | h
      · rw [zero_mul] at hm; subst hm; omega
      · exact h
  have hunits : units * den = m * (den * s) := by rw [hm]; ring
  rw [hunits] at hlow hhigh
  have hround : roundHalfEven num (den * s) = m := by
    have hassoc : 2 * m * (den * s) = 2 * (m * (den * s)) := mul_assoc ..
    refine roundHalfEven_eq_of_close ?_ ?_ <;> rw [hassoc] <;> omega
  rw [hround, hm, mul_comm]

end Close

theorem isNaN_ofUnits (negative : Bool) (num den : Nat) : (ofUnits negative num den).isNaN = false := by
  unfold ofUnits
  split <;> rfl

theorem ofUnits_congr (negative : Bool) {num den num' den' : Nat} (h : nearestUnits num den = nearestUnits num' den') :
    ofUnits negative num den = ofUnits negative num' den' := by
  unfold ofUnits
  simp only [h]

theorem ofUnits_of_nearestUnits {num den units : Nat} (negative : Bool) (h : nearestUnits num den = units)
    (hr : Representable units) : ofUnits negative num den = .finite negative units hr := by
  subst h
  rw [ofUnits, dif_pos hr.2]

end Double

end Stylesheet
