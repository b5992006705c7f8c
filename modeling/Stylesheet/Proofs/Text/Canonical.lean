/-
Canonical numerals. Many numerals are of the same number: zeros may stand in front of the whole part and at the end of
the fraction, and a point without digits behind it. A numeral without any of them is canonical, and no other of its
number is shorter: its whole part has no more digits (`Numeral.Canonical.length_whole_le`), and since its last digit is
not zero, neither has its fraction (`Numeral.Canonical.length_places_le`).
-/
import Mathlib.Algebra.Order.Floor.Semifield
import Mathlib.Tactic
import Stylesheet.Proofs.Formula.DigitLimit

namespace Stylesheet

namespace Text

/-- A text that starts with no minus sign tells the sign in front of it. -/
theorem sign_append_inj {s t : Bool} {a b : List Char} (ha : a.head? ≠ some '-') (hb : b.head? ≠ some '-') :
    (if s then ['-'] else []) ++ a = (if t then ['-'] else []) ++ b ↔ s = t ∧ a = b := by
  cases s <;> cases t
  · simp
  · simpa using fun h : a = '-' :: b => ha (by rw [h]; rfl)
  · simpa using fun h : '-' :: a = b => hb (by rw [← h]; rfl)
  · simp

/-! ## Digits -/

theorem digit_sub_ne_zero {d : Char} (hd : d.isDigit = true) (hzero : d ≠ '0') : d.toNat - '0'.toNat ≠ 0 := by
  have hlow : 48 ≤ d.toNat := (Char.isDigit_iff_toNat.1 hd).1
  have hne : d.toNat ≠ 48 := fun h => hzero (Char.toNat_inj.1 h)
  show d.toNat - 48 ≠ 0
  omega

/-- Digits behind one that is not zero make a number of as many places. -/
theorem ten_pow_le_ofDigitChars {d : Char} {digits : List Char} (hd : d.isDigit = true) (hzero : d ≠ '0') :
    10 ^ digits.length ≤ Nat.ofDigitChars 10 (d :: digits) 0 := by
  have hone : 1 ≤ 10 * 0 + (d.toNat - '0'.toNat) := by
    have := digit_sub_ne_zero hd hzero
    omega
  rw [Nat.ofDigitChars_cons, Nat.ofDigitChars_eq_ofDigitChars_zero]
  exact le_add_right (Nat.le_mul_of_pos_right _ hone)

/-- A number whose last digit is not zero is no multiple of ten. -/
theorem not_ten_dvd_ofDigitChars {digits : List Char} (h : ∀ d ∈ digits, d.isDigit = true) (hne : digits ≠ [])
    (hlast : digits.getLast? ≠ some '0') : ¬ 10 ∣ Nat.ofDigitChars 10 digits 0 := by
  obtain ⟨front, d, rfl⟩ := List.eq_nil_or_concat' digits |>.resolve_left hne
  have hd : d.isDigit = true := h d (List.mem_append_right _ (List.mem_singleton_self d))
  have hzero : d ≠ '0' := by simpa using hlast
  have hlow := digit_sub_ne_zero hd hzero
  have hhigh : d.toNat - '0'.toNat < 10 := by
    have : d.toNat ≤ 57 := (Char.isDigit_iff_toNat.1 hd).2
    show d.toNat - 48 < 10
    omega
  rw [Nat.ofDigitChars_append, Nat.ofDigitChars_cons, Nat.ofDigitChars_nil]
  omega

/-! ## Numerals -/

namespace Numeral

/-- The number that is written. -/
def value (n : Numeral) : ℚ := (Nat.ofDigitChars 10 (n.whole ++ n.places) 0 : ℚ) / 10 ^ n.places.length

/-- Digits, and perhaps a point and further digits. -/
structure Spelled (n : Numeral) : Prop where
  digits : ∀ d ∈ n.whole ++ n.places, d.isDigit = true
  whole_ne_nil : n.whole ≠ []

/-- No zero stands in front of other digits of the whole part or at the end of the fraction, and there is no point
without a fraction, which has as many digits at most. -/
structure Canonical (n : Numeral) (places : Nat) : Prop extends n.Spelled where
  leading : n.whole.head? = some '0' → n.whole = ['0']
  fraction : ∀ f ∈ n.fraction, f ≠ [] ∧ f.length ≤ places ∧ f.getLast? ≠ some '0'

variable {n other : Numeral} {places : Nat}

/-- The digits of the whole part are the whole part of the number. -/
theorem Spelled.floor_value (h : n.Spelled) : ⌊n.value⌋₊ = Nat.ofDigitChars 10 n.whole 0 := by
  have hlt := ofDigitChars_lt_pow fun d hd => h.digits d (List.mem_append_right _ hd)
  have hfloor : ⌊n.value⌋₊ = Nat.ofDigitChars 10 (n.whole ++ n.places) 0 / 10 ^ n.places.length := by
    rw [value, ← Nat.floor_div_eq_div (K := ℚ)]
    push_cast
    rfl
  rw [hfloor, Nat.ofDigitChars_append, Nat.ofDigitChars_eq_ofDigitChars_zero,
    Nat.mul_add_div (Nat.pow_pos (by decide)), Nat.div_eq_of_lt hlt, Nat.add_zero]

theorem Canonical.length_whole_le (h : n.Canonical places) (ho : other.Spelled) (hvalue : n.value = other.value) :
    n.whole.length ≤ other.whole.length := by
  have hfloor : Nat.ofDigitChars 10 n.whole 0 = Nat.ofDigitChars 10 other.whole 0 := by
    rw [← h.floor_value, hvalue, ho.floor_value]
  have hlt := ofDigitChars_lt_pow fun d hd => ho.digits d (List.mem_append_left _ hd)
  cases hwhole : n.whole with
  | nil => exact absurd hwhole h.whole_ne_nil
  | cons d digits =>
    by_cases hd : d = '0'
    · have hzero := h.leading (by rw [hwhole, hd]; rfl)
      rw [← hwhole, hzero]
      exact List.length_pos_iff.2 ho.whole_ne_nil
    · have hdigit : d.isDigit = true :=
        h.digits d (by rw [hwhole]; exact List.mem_append_left _ (List.mem_cons_self ..))
      have hpow : 10 ^ digits.length < 10 ^ other.whole.length := by
        rw [hwhole] at hfloor
        exact (ten_pow_le_ofDigitChars hdigit hd).trans_lt (hfloor.trans_lt hlt)
      exact (Nat.pow_lt_pow_iff_right (by decide)).1 hpow

/-- The last digit of the fraction is not zero, so fewer places do not hold the number. -/
theorem Canonical.length_places_le (h : n.Canonical places) (hvalue : n.value = other.value) :
    n.places.length ≤ other.places.length := by
  cases hfraction : n.fraction with
  | none => simp [Numeral.places, hfraction]
  | some f =>
    obtain ⟨hne, -, hlast⟩ := h.fraction f hfraction
    have hplaces : n.places = f := by simp [Numeral.places, hfraction]
    have hdigits := h.digits
    unfold value at hvalue
    rw [hplaces] at hvalue hdigits ⊢
    have hdvd : ¬ 10 ∣ Nat.ofDigitChars 10 (n.whole ++ f) 0 := by
      refine not_ten_dvd_ofDigitChars hdigits (List.append_ne_nil_of_right_ne_nil _ hne) ?_
      rwa [List.getLast?_append_of_ne_nil _ hne]
    by_contra hlt
    obtain ⟨k, hk⟩ := Nat.exists_eq_add_of_lt (not_le.1 hlt)
    refine hdvd ⟨10 ^ k * Nat.ofDigitChars 10 (other.whole ++ other.places) 0, ?_⟩
    generalize Nat.ofDigitChars 10 (n.whole ++ f) 0 = a at hvalue ⊢
    generalize Nat.ofDigitChars 10 (other.whole ++ other.places) 0 = b at hvalue ⊢
    rw [hk, div_eq_div_iff (by positivity) (by positivity), pow_succ, pow_add] at hvalue
    have hcancel : (a : ℚ) = 10 * (10 ^ k * b) := by
      refine mul_right_cancel₀ (pow_ne_zero other.places.length (by norm_num : (10 : ℚ) ≠ 0)) (hvalue.trans ?_)
      ring
    exact_mod_cast hcancel

theorem Spelled.split?_text (h : n.Spelled) : split? Char.isDigit n.text = some (n, []) := by
  have hsplit := @split?_text_append Char.isDigit n [] (by decide) h.digits h.whole_ne_nil (by simp)
  rwa [List.append_nil] at hsplit

theorem Spelled.text_inj (h : n.Spelled) (ho : other.Spelled) : n.text = other.text ↔ n = other := by
  refine ⟨fun htext => ?_, congrArg text⟩
  have hsplit := h.split?_text
  rw [htext, ho.split?_text] at hsplit
  exact (Prod.mk.inj (Option.some.inj hsplit)).1.symm

theorem Spelled.isDigit_or_point (h : n.Spelled) : ∀ c ∈ n.text, c.isDigit = true ∨ c = '.' :=
  fun c hc => (mem_text hc).imp_left (h.digits c)

theorem Spelled.not_mem_text (h : n.Spelled) {c : Char} (hdigit : c.isDigit = false) (hpoint : c ≠ '.') : c ∉ n.text :=
  fun hc => (h.isDigit_or_point c hc).elim (fun hd => absurd (hdigit.symm.trans hd) Bool.false_ne_true) hpoint

theorem Spelled.head?_text_ne (h : n.Spelled) : n.text.head? ≠ some '-' :=
  fun hhead => h.not_mem_text (by decide) (by decide) (List.mem_of_head? hhead)

theorem length_text (n : Numeral) : n.text.length = n.whole.length + n.fraction.elim 0 (·.length + 1) := by
  unfold text
  cases n.fraction with
  | none => rfl
  | some f => simp

/-- No other numeral of the number is shorter. -/
theorem Canonical.length_text_le (h : n.Canonical places) (ho : other.Spelled) (hvalue : n.value = other.value) :
    n.text.length ≤ other.text.length := by
  have hwhole := h.length_whole_le ho hvalue
  have hplaces := h.length_places_le hvalue
  rw [length_text, length_text]
  refine Nat.add_le_add hwhole ?_
  cases hn : n.fraction with
  | none => exact Nat.zero_le _
  | some f =>
    have hpos := List.length_pos_iff.2 (h.fraction f hn).1
    unfold Numeral.places at hplaces
    rw [hn] at hplaces
    cases hother : other.fraction with
    | none =>
      rw [hother] at hplaces
      exact absurd hplaces (Nat.not_le.2 hpos)
    | some g =>
      rw [hother] at hplaces
      exact Nat.succ_le_succ hplaces

end Numeral

end Text

end Stylesheet
