/-
Which doubles are written without exponent. The shortest digits start at the leading digit of the double,
unless they are rounded up to the power of ten above it; and neither `10⁻⁴` nor `10¹⁶` is nearest to a double
below it. So the exponent of the digits is in the plain range exactly if the double is.
-/
import Mathlib.Tactic
import Stylesheet.Proofs.Decimal.Layout

namespace Stylesheet

open Double (unitsPerOne spacingExponent Representable)
open Text (Numeral)

namespace Significand

variable {units : Nat}

/-! ## The plain range -/

theorem length_toDigits_eq {n l : Nat} (hlow : 10 ^ l ≤ n) (hhigh : n < 10 ^ (l + 1)) :
    (Nat.toDigits 10 n).length = l + 1 := by
  refine Nat.le_antisymm ((Nat.length_toDigits_le_iff (by decide) (Nat.succ_pos l)).2 hhigh) ?_
  rcases Nat.eq_zero_or_pos l with rfl | hl
  · exact Nat.length_toDigits_pos
  · by_contra hlt
    have := (Nat.length_toDigits_le_iff (by decide) hl).1 (Nat.lt_succ_iff.1 (not_le.1 hlt))
    omega

/-- The digits start at the leading digit of the double, or are those of a power of ten that is rounded to it. -/
theorem exponent_shortest (hu : 0 < units) (hs : 2 ^ spacingExponent units ∣ units) :
    (shortest units).exponent = leadingExponent units ∨
      (shortest units).exponent = leadingExponent units + 1 ∧ ∀ n k : Nat,
        (n : ℚ) / 10 ^ k = 10 ^ (leadingExponent units + 1) →
        Double.nearestUnits (n * unitsPerOne) (10 ^ k) = units := by
  obtain ⟨n, c, -, hc, hshortest⟩ := exists_neighbour?_eq hu hs
  obtain ⟨hlow, hhigh⟩ := bounds_of_neighbour? hu hc
  have hexponent : (shortest units).exponent = leadingExponent units - n + (Nat.toDigits 10 c).length - 1 := by
    rw [hshortest]
    rfl
  rcases Nat.lt_or_eq_of_le hhigh with hlt | rfl
  · left
    rw [hexponent, length_toDigits_eq hlow hlt]
    omega
  · right
    constructor
    · rw [hexponent, length_toDigits_eq (l := n + 1) (le_refl _) (Nat.pow_lt_pow_succ (by decide))]
      omega
    · intro m k hm
      rw [← (neighbour?_spec hc).1]
      refine Decimal.nearestUnits_eq ?_
      rw [hm, Nat.cast_pow, ← zpow_natCast, Nat.cast_ofNat, ← zpow_add₀ (by norm_num)]
      congr 1
      omega

/-- The double nearest to `10⁻⁴` does not lie below it. -/
theorem unitsPerOne_le_nearestUnits : unitsPerOne ≤ Double.nearestUnits (1 * unitsPerOne) (10 ^ 4) * 10 ^ 4 := by
  decide +kernel

/-- A double is `10¹⁶`. -/
theorem nearestUnits_ten_pow : Double.nearestUnits (10 ^ 16 * unitsPerOne) (10 ^ 0) = 10 ^ 16 * unitsPerOne := by
  decide +kernel

theorem isPlain_shortest_iff_of_pos (hu : 0 < units) (hs : 2 ^ spacingExponent units ∣ units) :
    (shortest units).IsPlain ↔ unitsPerOne ≤ units * 10 ^ 4 ∧ units < 10 ^ 16 * unitsPerOne := by
  obtain ⟨hlow, hhigh⟩ := leadingExponent_spec hu
  have hU : (0 : ℚ) < unitsPerOne := by exact_mod_cast Double.unitsPerOne_pos
  have hsmall : unitsPerOne ≤ units * 10 ^ 4 ↔ (10 : ℚ) ^ (-4 : Int) ≤ (units : ℚ) / unitsPerOne := by
    rw [zpow_neg, inv_eq_one_div, div_le_div_iff₀ (by norm_num) hU, one_mul]
    exact_mod_cast Iff.rfl
  have hlarge : units < 10 ^ 16 * unitsPerOne ↔ (units : ℚ) / unitsPerOne < (10 : ℚ) ^ (16 : Int) := by
    rw [div_lt_iff₀ hU]
    exact_mod_cast Iff.rfl
  have hexponent := exponent_shortest hu hs
  unfold IsPlain
  generalize (shortest units).exponent = e at hexponent ⊢
  generalize leadingExponent units = lead at hlow hhigh hexponent
  refine and_congr ?_ ?_
  · constructor
    · intro he
      rcases hexponent with rfl | ⟨rfl, hpower⟩
      · rw [hsmall]
        exact (zpow_le_zpow_right₀ (by norm_num) he).trans hlow
      · rcases Int.lt_or_eq_of_le he with hlt | heq
        · rw [hsmall]
          exact (zpow_le_zpow_right₀ (by norm_num) (by omega)).trans hlow
        -- the digits are rounded up to `10⁻⁴`, which the double is then nearest to
        · rw [← hpower 1 4 (by rw [← heq]; norm_num)]
          exact unitsPerOne_le_nearestUnits
    · intro h
      have hlt := (zpow_lt_zpow_iff_right₀ (by norm_num)).1 ((hsmall.1 h).trans_lt hhigh)
      omega
  · constructor
    · intro he
      rw [hlarge]
      exact hhigh.trans_le (zpow_le_zpow_right₀ (by norm_num) (by omega))
    · intro h
      have hlt := (zpow_lt_zpow_iff_right₀ (by norm_num)).1 (hlow.trans_lt (hlarge.1 h))
      rcases hexponent with rfl | ⟨rfl, hpower⟩
      · exact hlt
      -- they are not rounded up to `10¹⁶`, for that is a double itself
      · refine Int.lt_iff_le_and_ne.2 ⟨by omega, fun heq => ?_⟩
        rw [← hpower (10 ^ 16) 0 (by rw [heq]; norm_num), nearestUnits_ten_pow] at h
        exact absurd h (Nat.lt_irrefl _)

/-- The doubles from `10⁻⁴` up to below `10¹⁶` are written without exponent, and so is zero. -/
theorem isPlain_shortest_iff (hs : 2 ^ spacingExponent units ∣ units) :
    (shortest units).IsPlain ↔ units = 0 ∨ unitsPerOne ≤ units * 10 ^ 4 ∧ units < 10 ^ 16 * unitsPerOne := by
  rcases Nat.eq_zero_or_pos units with rfl | hu
  · rw [show shortest 0 = ⟨['0'], 0⟩ from rfl]
    exact iff_of_true (by decide) (.inl rfl)
  · rw [isPlain_shortest_iff_of_pos hu hs, or_iff_right hu.ne']

/-! ## Texts of doubles -/

theorem digits_shortest_ne_nil (hs : 2 ^ spacingExponent units ∣ units) : (shortest units).digits ≠ [] := by
  rcases Nat.eq_zero_or_pos units with rfl | hu
  · exact List.cons_ne_nil _ _
  · obtain ⟨n, c, -, hc, hshortest⟩ := exists_neighbour?_eq hu hs
    obtain ⟨zeros, hdigits, -⟩ := ofCoefficient_spec c (leadingExponent units - n)
    intro hnil
    rw [hshortest] at hnil
    -- zeros alone are the digits of zero only
    have hvalue := Nat.ofDigitChars_ten_toDigits (n := c)
    rw [hdigits, hnil, List.nil_append, Nat.ofDigitChars_replicate_zero, Nat.mul_zero] at hvalue
    have hpos := (bounds_of_neighbour? hu hc).1
    rw [← hvalue] at hpos
    exact Nat.not_le.2 (Nat.pow_pos (by decide)) hpos

theorem mem_scientific {s : Significand} (h : s.digits ≠ []) : 'e' ∈ s.scientific := by
  obtain ⟨digits, exponent⟩ := s
  match digits with
  | [] => exact absurd rfl h
  | [d] => simp [scientific, exponentText]
  | d :: d' :: rest => simp [scientific, exponentText]

end Significand

namespace Double

variable {units : Nat}

/-- The text of a double that is written without exponent is a numeral that is rounded to it, behind a minus sign if it
has one. -/
theorem exists_numeral_eq (negative : Bool) (hr : Representable units) (h : (Significand.shortest units).IsPlain) :
    ∃ n : Numeral, Text.Writes n.whole n.places units ∧
      (Double.finite negative units hr).numeral = String.ofList ((if negative then ['-'] else []) ++ n.text) := by
  obtain ⟨n, hn, htext⟩ := plainNumeral_finite negative hr
  exact ⟨n, hn, by rw [← htext, numeral, plainNumeral, writeWith, writeWith, if_pos h, if_pos h]⟩

theorem mem_numeral_of_not_isPlain (hr : Representable units) (h : ¬ (Significand.shortest units).IsPlain)
    (negative : Bool) :
    'e' ∈ (Double.finite negative units hr).numeral.toList := by
  rw [numeral, String.toList_ofList, writeWith, if_neg h]
  exact List.mem_append_right _ (Significand.mem_scientific (Significand.digits_shortest_ne_nil hr.1))

theorem mem_numeral_of_negative (hr : Representable units) : '-' ∈ (Double.finite true units hr).numeral.toList := by
  rw [numeral, String.toList_ofList, writeWith, if_pos rfl]
  exact List.mem_append_left _ (List.mem_singleton_self _)

end Double

end Stylesheet
