/-
Texts without exponent. Wherever the point of the shortest digits falls, the digits around it write the
same number, so the text of a double without its sign is a numeral that is rounded to the double. Its
whole part has zeros only beyond the seventeenth digit.
-/
import Mathlib.Tactic
import Stylesheet.Decimal.Layout
import Stylesheet.Text.Numeral
import Stylesheet.Proofs.Decimal.Shortest

namespace Stylesheet

open Double (unitsPerOne spacingExponent)
open Text (Numeral)

/-! ## Values of digits -/

theorem Decimal.nearestUnits_eq {n k c : Nat} {e : Int} (h : (n : ℚ) / (10 : ℚ) ^ k = c * (10 : ℚ) ^ e) :
    Double.nearestUnits (n * unitsPerOne) (10 ^ k) = Decimal.nearestUnits c e := by
  simp only [Decimal.nearestUnits, Nat.pow_eq]
  have hk : 0 < 10 ^ k := by positivity
  split
  · rename_i he
    obtain ⟨m, rfl⟩ := Int.eq_ofNat_of_zero_le he
    refine Double.nearestUnits_eq_of_div_eq hk Nat.one_pos ?_
    push_cast
    rw [mul_div_right_comm, h, Int.toNat_natCast, zpow_natCast, div_one]
  · rename_i he
    obtain ⟨m, rfl⟩ : ∃ m : Nat, e = -(m : Int) := ⟨(-e).toNat, by omega⟩
    refine Double.nearestUnits_eq_of_div_eq hk (by positivity) ?_
    push_cast
    rw [mul_div_right_comm, h, neg_neg, Int.toNat_natCast, zpow_neg, zpow_natCast, ← div_eq_mul_inv,
      mul_div_right_comm]

theorem Double.isNaN_ofDigits (whole fraction : List Char) : (ofDigits whole fraction).isNaN = false := by
  unfold ofDigits ofRatio
  exact isNaN_ofUnits _ _ _

namespace Significand

/-- The point moves the digits by the exponent, and the zeros filled in change nothing else. -/
theorem point_value (s : Significand) :
    (Nat.ofDigitChars 10 (s.point.1 ++ s.point.2) 0 : ℚ) / (10 : ℚ) ^ s.point.2.length =
      Nat.ofDigitChars 10 s.digits 0 * (10 : ℚ) ^ (s.exponent + 1 - s.digits.length) := by
  unfold point
  split
  · rename_i he
    obtain ⟨m, hm⟩ : ∃ m : Nat, s.exponent = -((m + 1 : Nat) : Int) := ⟨(-s.exponent - 1).toNat, by omega⟩
    have hz : (-s.exponent - 1).toNat = m := by omega
    dsimp only
    rw [hz, ← List.append_assoc, Nat.ofDigitChars_append, Nat.ofDigitChars_append, Nat.ofDigitChars_replicate_zero,
      List.length_append, List.length_replicate, hm,
      show (-((m + 1 : Nat) : Int) + 1 - s.digits.length) = -((m + s.digits.length : Nat) : Int) by push_cast; ring,
      zpow_neg, zpow_natCast, ← div_eq_mul_inv]
    rfl
  · rename_i he
    obtain ⟨m, hm⟩ : ∃ m : Nat, s.exponent = (m : Int) := ⟨s.exponent.toNat, by omega⟩
    rw [hm]
    dsimp only
    rw [Int.toNat_natCast]
    rcases Nat.le_total s.digits.length (m + 1) with hle | hle
    · rw [List.take_of_length_le hle, List.drop_eq_nil_of_le hle, List.append_nil, Nat.ofDigitChars_append,
        Nat.ofDigitChars_replicate_zero, List.length_nil, pow_zero, div_one,
        show ((m : Int) + 1 - s.digits.length) = ((m + 1 - s.digits.length : Nat) : Int) by omega, zpow_natCast]
      push_cast
      ring
    · rw [Nat.sub_eq_zero_of_le hle, List.replicate_zero, List.append_nil, List.take_append_drop, List.length_drop,
        show ((m : Int) + 1 - s.digits.length) = -((s.digits.length - (m + 1) : Nat) : Int) by omega, zpow_neg,
        zpow_natCast, div_eq_mul_inv]

theorem isDigit_of_mem_point {s : Significand} (h : ∀ d ∈ s.digits, d.isDigit = true) :
    ∀ d ∈ s.point.1 ++ s.point.2, d.isDigit = true := by
  unfold point
  split <;> intro d hd
  · simp only [List.mem_append, List.mem_singleton, List.mem_replicate] at hd
    rcases hd with rfl | ⟨-, rfl⟩ | hd
    · decide
    · decide
    · exact h d hd
  · simp only [List.mem_append, List.mem_replicate] at hd
    rcases hd with (hd | ⟨-, rfl⟩) | hd
    · exact h d (List.mem_of_mem_take hd)
    · decide
    · exact h d (List.mem_of_mem_drop hd)

theorem point_whole_ne_nil (s : Significand) : s.point.1 ≠ [] := by
  unfold point
  split
  · simp
  · intro h
    have hlen := congrArg List.length h
    simp only [List.length_append, List.length_take, List.length_replicate, List.length_nil] at hlen
    omega

/-- The whole part is digits and zeros behind them. -/
theorem eq_zero_of_mem_drop_point {s : Significand} {n : Nat} (hn : 0 < n) (h : s.digits.length ≤ n) :
    ∀ d ∈ s.point.1.drop n, d = '0' := by
  unfold point
  split <;> intro d hd
  · rw [List.drop_eq_nil_of_le hn] at hd
    cases hd
  · dsimp only at hd
    rw [List.drop_append, List.drop_eq_nil_of_le ((List.length_take_le' ..).trans h), List.nil_append] at hd
    exact List.eq_of_mem_replicate (List.mem_of_mem_drop hd)

end Significand

/-! ## Numerals of doubles -/

namespace Text

/-- Decimal digits before and after a point that are rounded to `units`. The significant ones of the
whole part are among the first seventeen. -/
structure Writes (whole fraction : List Char) (units : Nat) : Prop where
  digits : ∀ d ∈ whole ++ fraction, d.isDigit = true
  whole_ne_nil : whole ≠ []
  zeros : ∀ d ∈ whole.drop 17, d = '0'
  nearest : Double.nearestUnits (Nat.ofDigitChars 10 (whole ++ fraction) 0 * unitsPerOne) (10 ^ fraction.length) = units

variable {whole fraction : List Char} {units : Nat}

theorem Writes.ofDigits (h : Writes whole fraction units) (hr : Double.Representable units) :
    Double.ofDigits whole fraction = .finite false units hr :=
  Double.ofUnits_of_nearestUnits false h.nearest hr

/-- A whole number may as well end in a point and a zero. -/
theorem Writes.withPoint (h : Writes whole [] units) : Writes whole ['0'] units := by
  obtain ⟨hd, hw, hz, hn⟩ := h
  refine ⟨?_, hw, hz, ?_⟩
  · intro d hm
    rcases List.mem_append.1 hm with hm | hm
    · exact hd d (List.mem_append_left _ hm)
    · rw [List.mem_singleton.1 hm]; decide
  · rw [← hn]
    refine Double.nearestUnits_eq_of_mul_eq (by positivity) (by positivity) ?_
    rw [List.append_nil, Nat.ofDigitChars_append, Nat.ofDigitChars_cons, Nat.ofDigitChars_nil, Nat.sub_self,
      List.length_singleton, List.length_nil]
    ring

end Text

theorem Significand.isDigit_of_mem_ofCoefficient {c : Nat} {e : Int} {d : Char} (h : d ∈ (ofCoefficient c e).digits) :
    d.isDigit = true := by
  obtain ⟨zeros, hdigits, -⟩ := ofCoefficient_spec c e
  exact Nat.isDigit_of_mem_toDigits (by decide) (by decide) (hdigits ▸ List.mem_append_left _ h)

/-- The shortest digits of a double, around their point, are rounded to it. -/
theorem Significand.writes_point_shortest {units : Nat} (hs : 2 ^ spacingExponent units ∣ units) :
    Text.Writes (shortest units).point.1 (shortest units).point.2 units := by
  rcases Nat.eq_zero_or_pos units with rfl | hu
  -- zero has one digit, and no exponent is searched for it
  · rw [show (shortest 0).point = (['0'], []) from rfl]
    refine ⟨?_, List.cons_ne_nil _ _, fun d hd => absurd hd List.not_mem_nil, ?_⟩
    · intro d hd
      rw [List.mem_singleton.1 hd]; decide
    · rw [show Nat.ofDigitChars 10 (['0'] ++ []) 0 = 0 from rfl, zero_mul]
      exact Double.nearestUnits_eq_zero (by decide)
  · obtain ⟨c, e, hc, hread, hle⟩ := exists_shortest_eq hu hs
    obtain ⟨zeros, hdigits, hexp⟩ := ofCoefficient_spec c e
    have hlen := length_digits_ofCoefficient_le hle e
    have hall : ∀ d ∈ (ofCoefficient c e).digits, d.isDigit = true := fun _ => isDigit_of_mem_ofCoefficient
    rw [hc]
    generalize ofCoefficient c e = s at hdigits hexp hlen hall ⊢
    have hvalue : Nat.ofDigitChars 10 s.digits 0 * 10 ^ zeros = c := by
      rw [mul_comm, ← Nat.ofDigitChars_replicate_zero, ← Nat.ofDigitChars_append, ← hdigits,
        Nat.ofDigitChars_ten_toDigits]
    refine ⟨isDigit_of_mem_point hall, point_whole_ne_nil s, eq_zero_of_mem_drop_point (by decide) hlen, ?_⟩
    rw [← hread]
    refine Decimal.nearestUnits_eq ?_
    rw [point_value, hexp, ← hvalue, show e + s.digits.length + zeros - 1 + 1 - s.digits.length = e + zeros by ring,
      zpow_add₀ (by norm_num), zpow_natCast]
    push_cast
    ring

/-- The text of a finite double without exponent is its sign and a numeral that is rounded to it. -/
theorem Double.plainNumeral_finite (negative : Bool) {units : Nat} (hr : Representable units) :
    ∃ n : Numeral, Text.Writes n.whole n.places units ∧
      (Double.finite negative units hr).plainNumeral = (if negative then ['-'] else []) ++ n.text := by
  have hw := Significand.writes_point_shortest hr.1
  unfold plainNumeral writeWith
  dsimp only
  generalize Significand.shortest units = s at hw ⊢
  suffices h : ∃ n : Numeral, Text.Writes n.whole n.places units ∧
      (if s.IsPlain then s.positionalWithPoint else s.positional) = n.text by
    obtain ⟨n, hn, htext⟩ := h
    exact ⟨n, hn, by rw [htext]⟩
  unfold Significand.positionalWithPoint Significand.positional
  generalize s.point = p at hw ⊢
  obtain ⟨whole, fraction⟩ := p
  cases fraction with
  | nil =>
    by_cases hp : s.IsPlain
    · exact ⟨⟨whole, some ['0']⟩, hw.withPoint, by rw [if_pos hp]; rfl⟩
    · exact ⟨⟨whole, none⟩, hw, by rw [if_neg hp]; rfl⟩
  | cons d rest => exact ⟨⟨whole, some (d :: rest)⟩, hw, ite_self _⟩

end Stylesheet
