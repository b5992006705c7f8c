/-
Times that are doubles. The milliseconds that are read from a word are the whole part of a double that
is not negative, and the whole part of a double is one itself. So exactly the whole numbers that are
doubles are read back from their text.
-/
import Mathlib.Tactic
import Stylesheet.Proofs.Text.Words
import Stylesheet.Transition.Word

namespace Stylesheet

/-! ## Whole doubles -/

namespace Double

/-- Dropping bits below the leading one keeps the leading bit. -/
theorem log2_div_mul_two_pow {n b : Nat} (h : 0 < n / 2 ^ b) : (n / 2 ^ b * 2 ^ b).log2 = n.log2 := by
  have hn : n ≠ 0 := by rintro rfl; simp at h
  have hbits : b ≤ n.log2 := (Nat.le_log2 hn).2 (Nat.div_pos_iff.1 h).2
  have hpow : 2 ^ n.log2 = 2 ^ (n.log2 - b) * 2 ^ b := by rw [← pow_add, Nat.sub_add_cancel hbits]
  rw [Nat.log2_eq_iff (Nat.mul_pos h (Nat.two_pow_pos b)).ne', hpow]
  refine ⟨Nat.mul_le_mul_right _ ((Nat.le_div_iff_mul_le (Nat.two_pow_pos b)).2 ?_),
    (Nat.div_mul_le_self n _).trans_lt Nat.lt_log2_self⟩
  rw [← hpow]
  exact Nat.log2_self_le hn

theorem spacing_dvd_div_mul_two_pow {n b : Nat} (h : 2 ^ spacingExponent n ∣ n) :
    2 ^ spacingExponent (n / 2 ^ b * 2 ^ b) ∣ n / 2 ^ b * 2 ^ b := by
  rcases Nat.eq_zero_or_pos (n / 2 ^ b) with hq | hq
  · rw [hq, Nat.zero_mul]
    exact Nat.dvd_zero _
  rw [spacingExponent, log2_div_mul_two_pow hq, ← spacingExponent]
  rcases le_total (spacingExponent n) b with hs | hs
  · exact (Nat.pow_dvd_pow 2 hs).trans (Nat.dvd_mul_left ..)
  · -- no bit of the number is below the spacing, so none is dropped
    rwa [Nat.div_mul_cancel ((Nat.pow_dvd_pow 2 hs).trans h)]

/-- The whole part of a double is a double. -/
theorem representable_whole {units : Nat} (h : Representable units) :
    Representable (units / unitsPerOne * unitsPerOne) := by
  refine ⟨?_, (Nat.div_mul_le_self units unitsPerOne).trans_lt h.2⟩
  unfold unitsPerOne
  generalize fractionBits = b
  exact spacing_dvd_div_mul_two_pow h.1

/-- A double is nearest to itself. -/
theorem nearestUnits_of_spacing_dvd {units : Nat} (h : 2 ^ spacingExponent units ∣ units) :
    nearestUnits units 1 = units := by
  rcases Nat.eq_zero_or_pos units with rfl | hu
  · exact nearestUnits_eq_zero (by decide)
  · exact nearestUnits_eq_of_close Nat.one_pos h (by omega) (by omega)

theorem ofRatio_one_of_representable {n : Nat} (h : Representable (n * unitsPerOne)) :
    ofRatio false n 1 = .finite false (n * unitsPerOne) h :=
  ofUnits_of_nearestUnits false (nearestUnits_of_spacing_dvd h.1) h

theorem isNegative_ofUnits (negative : Bool) (num den : Nat) : (ofUnits negative num den).isNegative = negative := by
  unfold ofUnits
  split <;> rfl

theorem isNegative_mul {x y : Double} (hx : x.isNegative = false) (hy : y.isNegative = false) :
    (x.mul y).isNegative = false := by
  have hsign {s t : Bool} (hs : s = false) (ht : t = false) : (s != t) = false := by rw [hs, ht]; rfl
  cases x with
  | nan => rfl
  | infinite s =>
    cases y with
    | nan => rfl
    | infinite t => exact hsign hx hy
    | finite t v hv =>
      rw [mul]
      split
      · rfl
      · exact hsign hx hy
  | finite s u hu =>
    cases y with
    | nan => rfl
    | infinite t =>
      rw [mul]
      split
      · rfl
      · exact hsign hx hy
    | finite t v hv => exact (isNegative_ofUnits ..).trans (hsign hx hy)

theorem truncate?_finite {units : Nat} (h : Representable units) :
    (finite false units h).truncate? = some ((units / unitsPerOne : Nat) : Int) := rfl

end Double

namespace Transition

open Text

/-! ## Times -/

/-- The time is a whole number of milliseconds that a double holds. -/
def Exact (t : Int) : Prop := 0 ≤ t ∧ Double.Representable (t.toNat * Double.unitsPerOne)

instance : DecidablePred Exact := fun t =>
  inferInstanceAs (Decidable (0 ≤ t ∧ Double.Representable (t.toNat * Double.unitsPerOne)))

theorem exact_natCast {n : Nat} : Exact n ↔ Double.Representable (n * Double.unitsPerOne) := by
  unfold Exact
  rw [Int.toNat_natCast]
  exact ⟨fun h => h.2, fun h => ⟨Int.natCast_nonneg n, h⟩⟩

theorem exact_of_truncate? {x : Double} (hx : x.isNegative = false) {t : Int} (h : x.truncate? = some t) : Exact t := by
  cases x with
  | nan => cases h
  | infinite negative => cases h
  | finite negative units hr =>
    obtain rfl : negative = false := hx
    rw [Double.truncate?_finite] at h
    obtain rfl := Option.some.inj h
    exact exact_natCast.2 (Double.representable_whole hr)

theorem isNegative_toDouble (n : Numeral) : n.toDouble.isNegative = false := by
  unfold Numeral.toDouble Double.ofDigits Double.ofRatio
  rw [Double.isNegative_ofUnits]

/-- Durations are not negative: no word with a sign reads as one. -/
theorem isNegative_of_duration? {word : List Char} {x : Double} (h : duration? word = some x) :
    x.isNegative = false := by
  unfold duration? at h
  split at h
  · obtain rfl := Option.some.inj h
    exact isNegative_toDouble _
  · obtain rfl := Option.some.inj h
    refine Double.isNegative_mul (isNegative_toDouble _) ?_
    unfold Double.ofInt Double.ofRatio
    rw [Double.isNegative_ofUnits]
    rfl
  · cases h

theorem readTime_eq_some {word : List Char} {t : Int} (h : readTime word = .ok (some t)) : 
    ∃ x, duration? word = some x ∧ x.truncate? = some t := by
  unfold readTime at h
  split at h
  · cases h
  · rename_i x hx
    split at h
    · rename_i t' ht
      cases h
      exact ⟨x, hx, ht⟩
    · cases h

theorem exact_of_readTime {word : List Char} {t : Int} (h : readTime word = .ok (some t)) : Exact t := by
  obtain ⟨x, hx, ht⟩ := readTime_eq_some h
  exact exact_of_truncate? (isNegative_of_duration? hx) ht

theorem readTime_eq_none {word : List Char} : readTime word = .ok none ↔ duration? word = none := by
  unfold readTime
  constructor
  · intro h
    split at h
    · assumption
    · split at h <;> cases h
  · intro h
    rw [h]

theorem timeText_natCast (n : Nat) : (Record.timeText n).toList = Nat.toDigits 10 n ++ ['m', 's'] := by
  show (toString n ++ "ms").toList = _
  rw [String.toList_append]
  simp [toString, Nat.repr]

/-- The text of a time that a double holds is read back. -/
theorem readTime_timeText {t : Int} (h : Exact t) : readTime (Record.timeText t).toList = .ok (some t) := by
  obtain ⟨n, rfl⟩ := Int.eq_ofNat_of_zero_le h.1
  have hr := exact_natCast.1 h
  have hduration : duration? (Record.timeText n).toList = some (.finite false (n * Double.unitsPerOne) hr) := by
    rw [timeText_natCast, duration?, split?_toDigits n (by rintro _ ⟨⟩; decide)]
    exact congrArg some ((toDouble_toDigits n).trans (Double.ofRatio_one_of_representable hr))
  unfold readTime
  rw [hduration]
  dsimp only
  rw [Double.truncate?_finite, Nat.mul_div_cancel _ Double.unitsPerOne_pos]

end Transition

end Stylesheet
