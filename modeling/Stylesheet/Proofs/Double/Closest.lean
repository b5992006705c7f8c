/-
Nearest numbers. A rounded quotient is off by a half at most, and even where it is off by a half, which no other whole
number is (`NearestEven.unique`); and no double is nearer to a quotient than the one it is rounded to
(`Double.nearestUnits_closest`). So a number that is rounded to a multiple of a power of ten, and then to a double, is
rounded to the same multiple again (`Double.roundPlaces_nearestUnits`).
-/
import Mathlib.Tactic
import Stylesheet.Decimal.Fixed
import Stylesheet.Proofs.Double.Nearest

namespace Stylesheet

/-! ## Whole numbers -/

/-- The whole number is off by a half at most, and is even if it is off by a half. -/
structure NearestEven (q : ℚ) (n : ℤ) : Prop where
  close : |q - n| ≤ 1 / 2
  even : |q - n| = 1 / 2 → Even n

namespace NearestEven

variable {p q : ℚ} {m n : ℤ}

theorem le (hm : NearestEven q m) (hn : NearestEven q n) : m ≤ n := by
  by_contra hlt
  have hnext : (n : ℚ) + 1 ≤ m := by exact_mod_cast not_le.1 hlt
  obtain ⟨hlow, -⟩ := abs_le.1 hm.close
  obtain ⟨-, hhigh⟩ := abs_le.1 hn.close
  -- both are off by a half, to either side, so they are even neighbours
  have hqm : q - m = -(1 / 2) := by linarith
  have hqn : q - n = 1 / 2 := by linarith
  have hmn : m = n + 1 := by
    have : (m : ℚ) = n + 1 := by linarith
    exact_mod_cast this
  have heven := hm.even (by rw [hqm, abs_neg, abs_of_pos (by norm_num)])
  rw [hmn, Int.even_add_one] at heven
  exact heven (hn.even (by rw [hqn, abs_of_pos (by norm_num)]))

theorem unique (hm : NearestEven q m) (hn : NearestEven q n) : m = n := le_antisymm (hm.le hn) (hn.le hm)

theorem neg (h : NearestEven q n) : NearestEven (-q) (-n) := by
  have habs : |-q - ((-n : ℤ) : ℚ)| = |q - n| := by
    rw [Int.cast_neg, ← abs_neg]
    congr 1
    ring
  exact ⟨habs ▸ h.close, fun hhalf => (h.even (habs ▸ hhalf)).neg⟩

/-- What is no farther from the whole number is rounded to it as well. -/
theorem of_closer (h : NearestEven q n) (hpq : |p - n| ≤ |q - n|) : NearestEven p n :=
  ⟨hpq.trans h.close, fun hhalf => h.even (le_antisymm h.close (hhalf ▸ hpq))⟩

end NearestEven

theorem nearestEven_roundHalfEven (num : Nat) {den : Nat} (hden : 0 < den) :
    NearestEven ((num : ℚ) / den) (roundHalfEven num den : ℤ) := by
  have hd : (0 : ℚ) < den := by exact_mod_cast hden
  have hupper := (roundHalfEven_le_iff num _ hden).1 le_rfl
  have hlower := (le_roundHalfEven_iff num _ hden).1 le_rfl
  generalize roundHalfEven num den = n at hupper hlower ⊢
  have hoff : (num : ℚ) / den - ((n : ℤ) : ℚ) = (num - n * den) / den := by
    rw [Int.cast_natCast, sub_div, mul_div_cancel_right₀ _ hd.ne']
  have hle : (2 * (n * den) : ℚ) ≤ 2 * num + den := by
    have : 2 * (n * den) ≤ 2 * num + den := by omega
    exact_mod_cast this
  have hge : (2 * num : ℚ) ≤ 2 * (n * den) + den := by
    have : 2 * num ≤ 2 * (n * den) + den := by omega
    exact_mod_cast this
  constructor
  case close =>
    rw [hoff, abs_div, abs_of_pos hd, div_le_iff₀ hd]
    exact abs_le.2 ⟨by linarith, by linarith⟩
  case even =>
    intro hhalf
    rw [hoff, abs_div, abs_of_pos hd, div_eq_iff hd.ne'] at hhalf
    have heven : n % 2 = 0 := by
      rcases (abs_eq (by linarith)).1 hhalf with habove | hbelow
      · have hnat : 2 * num = 2 * (n * den) + den := by
          have : (2 * num : ℚ) = 2 * (n * den) + den := by linarith
          exact_mod_cast this
        omega
      · have hnat : 2 * (n * den) = 2 * num + den := by
          have : (2 * (n * den) : ℚ) = 2 * num + den := by linarith
          exact_mod_cast this
        omega
    exact (Int.even_coe_nat n).2 (Nat.even_iff.2 heven)

/-- The rounded quotient is as near as any whole number. -/
theorem roundHalfEven_closest (num m : Nat) {den : Nat} (hden : 0 < den) :
    |(roundHalfEven num den : ℚ) * den - num| ≤ |(m : ℚ) * den - num| := by
  have hd : (0 : ℚ) < den := by exact_mod_cast hden
  obtain ⟨hlow, hhigh⟩ := roundHalfEven_close num hden
  generalize roundHalfEven num den = n at hlow hhigh ⊢
  have hlow : (2 * (n * den) : ℚ) ≤ 2 * num + den := by exact_mod_cast hlow
  have hhigh : (2 * num : ℚ) ≤ 2 * (n * den) + den := by exact_mod_cast hhigh
  have hclose : |(n : ℚ) * den - num| ≤ den / 2 := abs_le.2 ⟨by linarith, by linarith⟩
  rcases Nat.lt_trichotomy m n with hlt | rfl | hgt
  · have hstep : (m : ℚ) * den + den ≤ n * den := by
      have : (m + 1) * den ≤ n * den := Nat.mul_le_mul_right _ hlt
      rw [Nat.add_mul, Nat.one_mul] at this
      exact_mod_cast this
    refine hclose.trans (le_trans ?_ (neg_le_abs _))
    linarith
  · exact le_rfl
  · have hstep : (n : ℚ) * den + den ≤ m * den := by
      have : (n + 1) * den ≤ m * den := Nat.mul_le_mul_right _ hgt
      rw [Nat.add_mul, Nat.one_mul] at this
      exact_mod_cast this
    refine hclose.trans (le_trans ?_ (le_abs_self _))
    linarith

/-! ## Doubles -/

namespace Double

/-- No double is nearer to a quotient than the one it is rounded to. -/
theorem nearestUnits_closest (num : Nat) {den units : Nat} (hden : 0 < den) (hs : 2 ^ spacingExponent units ∣ units) :
    |(nearestUnits num den : ℚ) * den - num| ≤ |(units : ℚ) * den - num| := by
  -- a multiple of the spacing at the quotient is no nearer
  have hmultiple (m : Nat) : |(nearestUnits num den : ℚ) * den - num| ≤
      |((m * 2 ^ spacingExponent (num / den) : Nat) : ℚ) * den - num| := by
    have hclosest := roundHalfEven_closest num m (Nat.mul_pos hden (Nat.two_pow_pos (spacingExponent (num / den))))
    show |((roundHalfEven num (den * 2 ^ spacingExponent (num / den)) *
      2 ^ spacingExponent (num / den) : Nat) : ℚ) * den - num| ≤ _
    generalize 2 ^ spacingExponent (num / den) = s at hclosest ⊢
    push_cast at hclosest ⊢
    rwa [mul_comm (den : ℚ), ← mul_assoc, ← mul_assoc] at hclosest
  by_cases hdvd : 2 ^ spacingExponent (num / den) ∣ units
  · obtain ⟨m, rfl⟩ := hdvd
    rw [Nat.mul_comm _ m]
    exact hmultiple m
  · -- the double is on a finer grid, so below the leading power of two of the quotient
    have hexponent : spacingExponent units < spacingExponent (num / den) := by
      by_contra hle
      exact hdvd ((Nat.pow_dvd_pow 2 (not_lt.1 hle)).trans hs)
    unfold spacingExponent at hexponent
    have hq : num / den ≠ 0 := by
      intro hzero
      rw [hzero] at hexponent
      simp at hexponent
    have hbelow : units < 2 ^ (num / den).log2 := by
      rcases Nat.eq_zero_or_pos units with rfl | hpos
      · exact Nat.two_pow_pos _
      · exact (Nat.log2_lt hpos.ne').1 (by omega)
    have hquotient : 2 ^ (num / den).log2 * den ≤ num :=
      (Nat.le_div_iff_mul_le hden).1 (Nat.log2_self_le hq)
    have hpow : 2 ^ (num / den).log2 = 2 ^ 52 * 2 ^ spacingExponent (num / den) := by
      rw [← pow_add]
      congr 1
      unfold spacingExponent
      omega
    refine (hmultiple (2 ^ 52)).trans ?_
    rw [← hpow]
    generalize 2 ^ (num / den).log2 = power at hbelow hquotient
    have hlt : (units : ℚ) * den ≤ power * den := by
      exact_mod_cast Nat.mul_le_mul_right den hbelow.le
    have hle : (power : ℚ) * den ≤ num := by exact_mod_cast hquotient
    rw [abs_of_nonpos (by linarith), abs_of_nonpos (by linarith)]
    linarith

/-! ## Places -/

/-- A multiple of a power of ten that a double is rounded to is rounded to a double that has the same multiple. -/
theorem roundPlaces_nearestUnits (places : Nat) {units : Nat} (hs : 2 ^ spacingExponent units ∣ units) :
    roundPlaces places (nearestUnits (roundPlaces places units * unitsPerOne) (10 ^ places)) =
      roundPlaces places units := by
  have hU : (0 : ℚ) < unitsPerOne := by exact_mod_cast unitsPerOne_pos
  have hround (units : Nat) :
      NearestEven ((units * 10 ^ places : Nat) / unitsPerOne : ℚ) (roundPlaces places units : ℤ) :=
    nearestEven_roundHalfEven _ unitsPerOne_pos
  have hcloser := nearestUnits_closest (roundPlaces places units * unitsPerOne)
    (Nat.pow_pos (n := places) (by decide : 0 < 10)) hs
  refine Int.ofNat_inj.1 ((hround _).unique ((hround units).of_closer ?_))
  generalize nearestUnits (roundPlaces places units * unitsPerOne) (10 ^ places) = near at hcloser ⊢
  have hoff (u : Nat) : ((u * 10 ^ places : Nat) / unitsPerOne : ℚ) - ((roundPlaces places units : ℤ) : ℚ) =
      (u * (10 ^ places : Nat) - (roundPlaces places units * unitsPerOne : Nat)) / unitsPerOne := by
    rw [sub_div]
    push_cast
    rw [mul_div_cancel_right₀ _ hU.ne']
  rw [hoff, hoff, abs_div, abs_div]
  exact div_le_div_of_nonneg_right hcloser (abs_nonneg _)

/-- A double is a whole number, or is small. -/
theorem unitsPerOne_dvd_or_lt {units : Nat} (hs : 2 ^ spacingExponent units ∣ units) :
    unitsPerOne ∣ units ∨ units < 2 ^ 53 * unitsPerOne := by
  rw [unitsPerOne_eq]
  generalize fractionBits = b
  rcases le_or_gt b (spacingExponent units) with hle | hlt
  · exact .inl ((Nat.pow_dvd_pow 2 hle).trans hs)
  · right
    have hlog : units.log2 < 53 + b := by unfold spacingExponent at hlt; omega
    rw [← pow_add]
    exact Nat.lt_log2_self.trans_le (Nat.pow_le_pow_right (by decide) hlog)

/-- The double that the multiple is rounded to is finite. -/
theorem nearestUnits_roundPlaces_lt (places : Nat) {units : Nat} (hr : Representable units) :
    nearestUnits (roundPlaces places units * unitsPerOne) (10 ^ places) < overflowUnits := by
  have hP : 0 < 10 ^ places := Nat.pow_pos (by decide)
  rcases unitsPerOne_dvd_or_lt hr.1 with ⟨m, hm⟩ | hsmall
  · -- a whole number is its own multiple, and nothing is nearer to it
    have hexact : roundPlaces places units * unitsPerOne = units * 10 ^ places := by
      have hmultiple : units * 10 ^ places = m * 10 ^ places * unitsPerOne := by rw [hm]; ring
      have hround : roundPlaces places units = m * 10 ^ places := by
        show roundHalfEven (units * 10 ^ places) unitsPerOne = _
        refine roundHalfEven_eq_of_close ?_ ?_ <;> rw [hmultiple, Nat.mul_assoc 2] <;>
          exact Nat.lt_add_of_pos_right unitsPerOne_pos
      rw [hround, hmultiple]
    have hcloser := nearestUnits_closest (units * 10 ^ places) hP hr.1
    rw [hexact]
    generalize nearestUnits (units * 10 ^ places) (10 ^ places) = near at hcloser ⊢
    rw [Nat.cast_mul, sub_self, abs_zero, abs_nonpos_iff, sub_eq_zero] at hcloser
    have hnear : near * 10 ^ places = units * 10 ^ places := by exact_mod_cast hcloser
    rw [Nat.eq_of_mul_eq_mul_right hP hnear]
    exact hr.2
  · refine nearestUnits_lt_overflowUnits (k := 54) (by decide) ?_
    have hclose := (roundHalfEven_close (units * 10 ^ places) unitsPerOne_pos).1
    have hscaled : units * 10 ^ places < 2 ^ 53 * unitsPerOne * 10 ^ places := Nat.mul_lt_mul_of_pos_right hsmall hP
    have hone : unitsPerOne ≤ unitsPerOne * 10 ^ places := Nat.le_mul_of_pos_right _ hP
    show roundHalfEven (units * 10 ^ places) unitsPerOne * unitsPerOne < _
    rw [Nat.mul_assoc] at hscaled ⊢
    generalize unitsPerOne * 10 ^ places = one at hscaled hone ⊢
    omega

end Double

end Stylesheet
