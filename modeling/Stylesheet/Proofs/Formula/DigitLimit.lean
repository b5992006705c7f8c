/-
The limit of digits. Of the integer part of a number the first digits are kept and the others read as zeros, and zeros
in front count as digits. So a number is read as it is written if its integer part is no longer than the limit, zeros in
front included (`numberValue_padded`). Zeros enough push every digit of the integer part beyond the limit. Then the
value is another one, since a number of at least one and its fraction are never rounded to the same double
(`ofRatio_whole_ne_fraction`).
-/
import Mathlib.Tactic
import Stylesheet.Proofs.Formula.Numeral
import Stylesheet.Proofs.Text.Words

namespace Stylesheet

open Double (unitsPerOne overflowUnits spacingExponent nearestUnits ofUnits ofRatio)
open Text (Numeral)

/-! ## Digits and their number -/

namespace Text

variable {digits : List Char}

theorem ofDigitChars_eq_zero_iff (h : ∀ d ∈ digits, d.isDigit = true) :
    Nat.ofDigitChars 10 digits 0 = 0 ↔ ∀ d ∈ digits, d = '0' := by
  induction digits with
  | nil => simp
  | cons d digits ih =>
    have hd : 48 ≤ d.toNat := (Char.isDigit_iff_toNat.1 (h d (List.mem_cons_self ..))).1
    have hzero : d.toNat - '0'.toNat = 0 ↔ d = '0' := by
      rw [← Char.toNat_inj]
      show d.toNat - 48 = 0 ↔ d.toNat = 48
      omega
    rw [Nat.ofDigitChars_cons, Nat.ofDigitChars_eq_ofDigitChars_zero, List.forall_mem_cons,
      ← ih fun e he => h e (List.mem_cons_of_mem _ he), ← hzero]
    simp

theorem ofDigitChars_lt_pow (h : ∀ d ∈ digits, d.isDigit = true) :
    Nat.ofDigitChars 10 digits 0 < 10 ^ digits.length := by
  have hlt := ofDigitChars_lt h (n := 0) (k := 0) (by decide)
  rwa [Nat.zero_add] at hlt

theorem ofDigitChars_padded (zeros : Nat) (digits : List Char) :
    Nat.ofDigitChars 10 (List.replicate zeros '0' ++ digits) 0 = Nat.ofDigitChars 10 digits 0 := by
  rw [Nat.ofDigitChars_append, Nat.ofDigitChars_replicate_zero, Nat.mul_zero]

/-- The first digits are the number without its last places. -/
theorem ofDigitChars_take (h : ∀ d ∈ digits, d.isDigit = true) (k : Nat) :
    Nat.ofDigitChars 10 (digits.take k) 0 = Nat.ofDigitChars 10 digits 0 / 10 ^ (digits.length - k) := by
  have hlow : Nat.ofDigitChars 10 (digits.drop k) 0 < 10 ^ (digits.length - k) := by
    rw [← List.length_drop]
    exact ofDigitChars_lt_pow fun d hd => h d (List.mem_of_mem_drop hd)
  have hsplit : Nat.ofDigitChars 10 digits 0 =
      10 ^ (digits.length - k) * Nat.ofDigitChars 10 (digits.take k) 0 + Nat.ofDigitChars 10 (digits.drop k) 0 := by
    rw [← List.length_drop, ← Nat.ofDigitChars_eq_ofDigitChars_zero, ← Nat.ofDigitChars_append, List.take_append_drop]
  rw [hsplit, Nat.mul_add_div (Nat.pow_pos (by decide)), Nat.div_eq_of_lt hlow, Nat.add_zero]

namespace Numeral

/-- The numeral behind as many zeros. -/
def padded (n : Numeral) (zeros : Nat) : Numeral := { n with whole := List.replicate zeros '0' ++ n.whole }

/-- The double nearest to the number, with zeros for the last `cut` digits of its integer part. -/
def coarse (n : Numeral) (cut : Nat) : Double :=
  ofRatio false
    (Nat.ofDigitChars 10 n.whole 0 / 10 ^ cut * 10 ^ cut * 10 ^ n.places.length + Nat.ofDigitChars 10 n.places 0)
    (10 ^ n.places.length)

theorem coarse_zero (n : Numeral) : n.coarse 0 = Double.ofDigits n.whole n.places := by
  rw [coarse, Double.ofDigits, pow_zero, Nat.div_one, Nat.mul_one, Nat.ofDigitChars_append,
    @Nat.ofDigitChars_eq_ofDigitChars_zero n.places (Nat.ofDigitChars 10 n.whole 0), Nat.mul_comm (10 ^ _)]
  rfl

theorem coarse_padded (n : Numeral) (zeros cut : Nat) : (n.padded zeros).coarse cut = n.coarse cut := by
  rw [coarse, padded, ofDigitChars_padded]
  rfl

end Numeral

end Text

/-! ## Whole numbers and their fractions -/

namespace Double

/-- Three times a power of two is a double. -/
theorem spacing_dvd_three_mul (k : Nat) : 2 ^ spacingExponent (3 * 2 ^ k) ∣ 3 * 2 ^ k := by
  refine Dvd.dvd.mul_left (Nat.pow_dvd_pow 2 ?_) 3
  have hpos : 0 < 2 ^ k := Nat.two_pow_pos k
  have hlog : (3 * 2 ^ k).log2 < k + 2 := (Nat.log2_lt (by omega)).2 (by rw [pow_add]; omega)
  unfold spacingExponent
  omega

/-- A number of at least one is rounded to more than its fraction, since two doubles are between them: a half and one,
or one and one and a half. -/
theorem nearestUnits_lt_of_whole {t f p : Nat} (k : Nat) (ht : 0 < t) (hf : f < p) :
    nearestUnits (f * 2 ^ (k + 1)) p < nearestUnits ((t * p + f) * 2 ^ (k + 1)) p := by
  have hp : 0 < p := by omega
  have hone : p + f ≤ t * p + f := Nat.add_le_add_right (Nat.le_mul_of_pos_left p ht) f
  have hmul : (p + f) * 2 ^ (k + 1) ≤ (t * p + f) * 2 ^ (k + 1) := Nat.mul_le_mul_right _ hone
  generalize (t * p + f) * 2 ^ (k + 1) = num at hmul ⊢
  have hpow : 2 ^ (k + 1) = 2 * 2 ^ k := pow_succ' 2 k
  have hpos : 0 < 2 ^ k := Nat.two_pow_pos k
  rcases lt_or_ge (2 * f) p with hsmall | hlarge
  · -- the fraction is below a half, and rounded to a half at most
    have hbelow : nearestUnits (f * 2 ^ (k + 1)) p ≤ 2 ^ k := by
      refine nearestUnits_le_two_pow ?_
      rw [hpow, ← Nat.mul_assoc, Nat.mul_comm f 2, Nat.mul_comm (2 ^ k)]
      exact Nat.mul_lt_mul_of_pos_right hsmall hpos
    have habove : 2 ^ (k + 1) ≤ nearestUnits num p := by
      refine two_pow_le_nearestUnits ((Nat.le_div_iff_mul_le hp).2 (le_trans ?_ hmul))
      rw [Nat.pow_eq, Nat.mul_comm]
      exact Nat.mul_le_mul_right _ (Nat.le_add_right ..)
    omega
  · -- the fraction is rounded to one at most, and the number is one and a half at least
    have hbelow : nearestUnits (f * 2 ^ (k + 1)) p ≤ 2 ^ (k + 1) :=
      nearestUnits_le_two_pow (by rw [Nat.mul_comm]; exact Nat.mul_lt_mul_of_pos_left hf (Nat.two_pow_pos _))
    have habove : 3 * 2 ^ k ≤ nearestUnits num p := by
      refine le_nearestUnits (spacing_dvd_three_mul k) ((Nat.le_div_iff_mul_le hp).2 (le_trans ?_ hmul))
      rw [hpow, Nat.mul_assoc, Nat.mul_comm (2 ^ k), ← Nat.mul_assoc, ← Nat.mul_assoc]
      exact Nat.mul_le_mul_right _ (by omega)
    omega

/-- A finite double tells what is rounded to it. -/
theorem nearestUnits_eq_of_ofUnits_eq {negative : Bool} {num den num' den' : Nat}
    (hfinite : nearestUnits num den < overflowUnits)
    (h : ofUnits negative num den = ofUnits negative num' den') : nearestUnits num den = nearestUnits num' den' := by
  rw [ofUnits, dif_pos hfinite, ofUnits] at h
  split at h
  · exact (Double.finite.inj h).2
  · cases h

/-- A number of at least one and its fraction are never rounded to the same double. -/
theorem ofRatio_whole_ne_fraction {t f p : Nat} (ht : 0 < t) (hf : f < p) :
    ofRatio false (t * p + f) p ≠ ofRatio false f p := by
  intro h
  obtain ⟨k, hone⟩ : ∃ k, unitsPerOne = 2 ^ (k + 1) :=
    ⟨fractionBits - 1, by rw [unitsPerOne_eq, Nat.sub_add_cancel (by decide)]⟩
  have hfinite : nearestUnits (f * unitsPerOne) p < overflowUnits := by
    refine nearestUnits_lt_overflowUnits (k := 0) (by decide) ?_
    rw [pow_zero, Nat.one_mul, Nat.mul_comm]
    exact Nat.mul_lt_mul_of_pos_left hf unitsPerOne_pos
  have heq := nearestUnits_eq_of_ofUnits_eq hfinite h.symm
  have hlt := nearestUnits_lt_of_whole k ht hf
  rw [← hone] at hlt
  exact hlt.ne heq

end Double

namespace Text.Numeral

variable {n : Numeral}

/-- A number is read as its fraction only with nothing left of its integer part. -/
theorem coarse_eq_fraction_iff (hplaces : ∀ d ∈ n.places, d.isDigit = true) (cut : Nat) :
    n.coarse cut = Double.ofDigits [] n.places ↔ Nat.ofDigitChars 10 n.whole 0 / 10 ^ cut = 0 := by
  unfold coarse
  constructor
  · intro h
    by_contra hwhole
    have hkept := Nat.mul_pos (Nat.pos_of_ne_zero hwhole) (Nat.pow_pos (n := cut) (Nat.zero_lt_succ 9))
    exact Double.ofRatio_whole_ne_fraction hkept (ofDigitChars_lt_pow hplaces) h
  · intro h
    rw [h, Nat.zero_mul, Nat.zero_mul, Nat.zero_add]
    rfl

/-- Since some cut leaves nothing of the integer part, the cuts from one on are all the same only if that one does. -/
theorem coarse_const_iff (hwhole : ∀ d ∈ n.whole, d.isDigit = true)
    (hplaces : ∀ d ∈ n.places, d.isDigit = true) (cut : Nat) :
    (∀ cut', cut ≤ cut' → n.coarse cut' = n.coarse cut) ↔ Nat.ofDigitChars 10 n.whole 0 / 10 ^ cut = 0 := by
  constructor
  · intro h
    have hpow : 10 ^ n.whole.length ≤ 10 ^ (cut + n.whole.length) :=
      Nat.pow_le_pow_right (Nat.zero_lt_succ 9) (Nat.le_add_left ..)
    have hlost := Nat.div_eq_of_lt ((ofDigitChars_lt_pow hwhole).trans_le hpow)
    rw [← coarse_eq_fraction_iff hplaces, ← h (cut + n.whole.length) (Nat.le_add_right ..)]
    exact (coarse_eq_fraction_iff hplaces _).2 hlost
  · intro hlost cut' hle
    have hless : Nat.ofDigitChars 10 n.whole 0 / 10 ^ cut' ≤ Nat.ofDigitChars 10 n.whole 0 / 10 ^ cut :=
      Nat.div_le_div_left (Nat.pow_le_pow_right (Nat.zero_lt_succ 9) hle) (Nat.pow_pos (Nat.zero_lt_succ 9))
    rw [hlost, Nat.le_zero] at hless
    rw [(coarse_eq_fraction_iff hplaces _).2 hless, (coarse_eq_fraction_iff hplaces _).2 hlost]

end Text.Numeral

namespace Formula

variable {limits : Limits} {n : Numeral}

/-! ## Numbers of formulas -/

/-- A number is read with zeros for the integer digits beyond the limit. -/
theorem numberValue_eq_coarse (hwhole : ∀ d ∈ n.whole, d.isDigit = true) (hlimit : 0 ≤ limits.digits) :
    limits.numberValue n = n.coarse (n.whole.length - limits.digits.toNat) := by
  rw [Limits.numberValue, Double.ofDigits, limitDigits_eq hlimit, Numeral.coarse, Nat.ofDigitChars_append,
    Nat.ofDigitChars_eq_ofDigitChars_zero, Nat.ofDigitChars_append, Nat.ofDigitChars_replicate_zero,
    Text.ofDigitChars_take hwhole, Nat.mul_comm (10 ^ _), Nat.mul_comm (10 ^ _)]
  rfl

/-- A numeral is a formula. -/
theorem parse_numeral (hdigits : ∀ d ∈ n.whole ++ n.places, d.isDigit = true) (hne : n.whole ≠ [])
    (hlimit : 0 ≤ limits.digits)
    (hlength : limits.checkLength n.text.length = .ok ()) :
    parse limits (String.ofList n.text) = .ok (.number 0 (limits.numberValue n)) := by
  have htext : (String.ofList n.text).toList = n.text := String.toList_ofList
  refine parse_of_derivation (d := .term (.factor (.atom n 0))) ?_ ?_ (countable_of_digits hlimit _) (.inl rfl)
  · rw [htext]
    exact hlength
  · rw [htext]
    exact scan_text 0 hdigits hne

/-- Zeros in front of a number count as digits kept. Behind as many of them as the limit nothing is left of its integer
part, so they never change its value only if nothing but zeros is kept without them. -/
theorem numberValue_padded (hdigits : ∀ d ∈ n.whole ++ n.places, d.isDigit = true) (hne : n.whole ≠ [])
    (hlimit : 0 ≤ limits.digits) :
    (∀ zeros, limits.checkLength (n.padded zeros).text.length = .ok () →
      parse limits (String.ofList (n.padded zeros).text) = .ok (.number 0 (limits.numberValue (n.padded zeros)))) ∧
    (∀ zeros, limits.numberValue (n.padded zeros) = n.coarse (zeros + n.whole.length - limits.digits.toNat)) ∧
    (∀ zeros : Nat, (zeros + n.whole.length : Int) ≤ limits.digits →
      limits.numberValue (n.padded zeros) = Double.ofDigits n.whole n.places) ∧
    ((∀ zeros, limits.numberValue (n.padded zeros) = limits.numberValue n) ↔
      ∀ d ∈ n.whole.take limits.digits.toNat, d = '0') := by
  obtain ⟨hwhole, hplaces⟩ := List.forall_mem_append.1 hdigits
  have hpadded (zeros : Nat) : ∀ d ∈ (n.padded zeros).whole, d.isDigit = true :=
    List.forall_mem_append.2 ⟨fun d hd => by rw [List.eq_of_mem_replicate hd]; rfl, hwhole⟩
  have hvalue (zeros : Nat) :
      limits.numberValue (n.padded zeros) = n.coarse (zeros + n.whole.length - limits.digits.toNat) := by
    rw [numberValue_eq_coarse (hpadded zeros) hlimit, Numeral.coarse_padded, Numeral.padded, List.length_append,
      List.length_replicate]
  refine ⟨fun zeros => ?_, hvalue, fun zeros h => ?_, ?_⟩
  · exact parse_numeral (List.forall_mem_append.2 ⟨hpadded zeros, hplaces⟩)
      (List.append_ne_nil_of_right_ne_nil _ hne) hlimit
  · rw [hvalue zeros, Nat.sub_eq_zero_of_le (by omega), Numeral.coarse_zero]
  · rw [← Text.ofDigitChars_eq_zero_iff fun d hd => hwhole d (List.mem_of_mem_take hd), Text.ofDigitChars_take hwhole,
      ← Numeral.coarse_const_iff hwhole hplaces]
    simp only [hvalue, numberValue_eq_coarse hwhole hlimit]
    constructor
    · -- any further cut is made by zeros enough
      intro h cut hcut
      have hzeros := h (limits.digits.toNat + cut - n.whole.length)
      have hsame : limits.digits.toNat + cut - n.whole.length + n.whole.length - limits.digits.toNat = cut := by omega
      rw [hsame] at hzeros
      exact hzeros
    · exact fun h zeros => h _ (by omega)

/-- Of three digits, one zero in front leaves both of the number, and two of them leave one. -/
theorem numberValue_padded_places :
    parse { digits := 3 } "042.5" = .ok (.number 0 (Double.ofDigits ['4', '2'] ['5'])) ∧
      parse { digits := 3 } "0042.5" = .ok (.number 0 (Double.ofDigits ['4', '0'] ['5'])) ∧
      ¬ ∀ zeros, Limits.numberValue { digits := 3 } (Numeral.padded ⟨['4', '2'], some ['5']⟩ zeros) =
        Limits.numberValue { digits := 3 } ⟨['4', '2'], some ['5']⟩ := by
  obtain ⟨hparse, hvalue, hwritten, hsame⟩ := @numberValue_padded { digits := 3 } ⟨['4', '2'], some ['5']⟩
    (List.all_eq_true.1 (by decide)) (by decide) (by decide)
  have hread {x y : Double} (h : x = y) :
      (Except.ok (Expr.number 0 x) : Except Error Expr) = .ok (.number 0 y) := by rw [h]
  exact ⟨(hparse 1 rfl).trans (hread (hwritten 1 (by decide))), (hparse 2 rfl).trans (hread (hvalue 2)),
    fun h => absurd (hsame.1 h '4' (by decide)) (by decide)⟩

/-- A number of one digit is lost behind two zeros, though two digits are kept. -/
theorem parse_behind_zeros :
    parse { digits := 2 } "7" = .ok (.number 0 (Double.ofInt 7)) ∧
      parse { digits := 2 } "007" = .ok (.number 0 (Double.ofInt 0)) ∧
      Double.ofDigits ['0', '0', '7'] [] = Double.ofInt 7 ∧ Double.ofInt 7 ≠ Double.ofInt 0 := by
  decide +kernel

end Formula

end Stylesheet
