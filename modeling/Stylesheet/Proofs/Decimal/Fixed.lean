/-
Doubles written in places. The places of a rounded double make a canonical numeral when the zeros at their end are
dropped, and then the point if nothing is left behind it (`Double.writePlaces_eq_strip`). So a finite double is written
as the shortest numeral of the nearest multiple of `10⁻⁶` (`Quantity.write_shortest`). Two of them are written alike if
they have the same multiple and the same sign; the sign matters only if the multiple is zero (`Quantity.write_eq_iff`).
-/
import Mathlib.Data.List.DropRight
import Mathlib.Tactic
import Stylesheet.Constant.Quantity
import Stylesheet.Proofs.Double.Closest
import Stylesheet.Proofs.Text.Canonical

namespace Stylesheet

open Double (unitsPerOne Representable roundPlaces)
open Text (Numeral)

namespace Text

/-! ## Strips -/

theorem rdropWhile_of_getLast? {c : Char} {s : List Char} (h : s.getLast? ≠ some c) : s.rdropWhile (· == c) = s := by
  rw [List.rdropWhile_eq_self_iff]
  intro hne hlast
  rw [beq_iff_eq] at hlast
  exact h (by rw [List.getLast?_eq_some_getLast hne, hlast])

theorem rdropWhile_append_replicate (c : Char) (s : List Char) (k : Nat) :
    (s ++ List.replicate k c).rdropWhile (· == c) = s.rdropWhile (· == c) := by
  induction k with
  | zero => rw [List.replicate_zero, List.append_nil]
  | succ k ih =>
    rw [List.replicate_succ', ← List.append_assoc, List.rdropWhile_concat_pos (· == c) _ _ (beq_self_eq_true c), ih]

end Text

/-! ## Places -/

namespace Double

variable {places n : Nat}

/-- As many digits as places, zeros in front included. -/
def placeDigits (places n : Nat) : List Char :=
  List.replicate (places - (Nat.toDigits 10 (n % 10 ^ places)).length) '0' ++ Nat.toDigits 10 (n % 10 ^ places)

/-- The digits up to the last one that is not zero. -/
def keptPlaces (places n : Nat) : List Char := (placeDigits places n).rdropWhile (· == '0')

/-- The numeral that is written, without the point if no digit is kept behind it. -/
def placed (places n : Nat) : Numeral where
  whole := Nat.toDigits 10 (n / 10 ^ places)
  fraction := if (keptPlaces places n).isEmpty then none else some (keptPlaces places n)

theorem writePlaces_eq_text (places n : Nat) : writePlaces places n = (placed places n).text := by
  show Nat.toDigits 10 (n / 10 ^ places) ++
    (if (keptPlaces places n).isEmpty then [] else '.' :: keptPlaces places n) = _
  unfold placed Numeral.text
  cases (keptPlaces places n).isEmpty with
  | true => exact List.append_nil _
  | false => rfl

theorem places_placed (places n : Nat) : (placed places n).places = keptPlaces places n := by
  unfold placed Numeral.places
  cases hkept : keptPlaces places n with
  | nil => rfl
  | cons d digits => rfl

theorem length_placeDigits (hplaces : 0 < places) (n : Nat) : (placeDigits places n).length = places := by
  have hle : (Nat.toDigits 10 (n % 10 ^ places)).length ≤ places :=
    (Nat.length_toDigits_le_iff (by decide) hplaces).2 (Nat.mod_lt _ (Nat.pow_pos (by decide)))
  rw [placeDigits, List.length_append, List.length_replicate, Nat.sub_add_cancel hle]

theorem isDigit_of_mem_placeDigits {d : Char} (hd : d ∈ placeDigits places n) : d.isDigit = true := by
  rcases List.mem_append.1 hd with hd | hd
  · rw [List.eq_of_mem_replicate hd]
    rfl
  · exact Nat.isDigit_of_mem_toDigits (by decide) (by decide) hd

theorem ofDigitChars_placeDigits (places n : Nat) : Nat.ofDigitChars 10 (placeDigits places n) 0 = n % 10 ^ places := by
  rw [placeDigits, Text.ofDigitChars_padded, Nat.ofDigitChars_ten_toDigits]

theorem exists_zeros (places n : Nat) :
    ∃ zeros, placeDigits places n = keptPlaces places n ++ List.replicate zeros '0' := by
  have hsplit : keptPlaces places n ++ (placeDigits places n).rtakeWhile (· == '0') = placeDigits places n :=
    List.rdropWhile_append_rtakeWhile
  have hzeros : (placeDigits places n).rtakeWhile (· == '0') =
      List.replicate ((placeDigits places n).rtakeWhile (· == '0')).length '0' :=
    List.eq_replicate_length.2 fun d hd => beq_iff_eq.1 (List.mem_rtakeWhile_imp (p := (· == '0')) hd)
  rw [hzeros] at hsplit
  exact ⟨_, hsplit.symm⟩

theorem getLast?_keptPlaces (places n : Nat) : (keptPlaces places n).getLast? ≠ some '0' := by
  intro hlast
  have hne : keptPlaces places n ≠ [] := fun h => by rw [h] at hlast; cases hlast
  have hlast' : (keptPlaces places n).getLast hne = '0' :=
    Option.some.inj ((List.getLast?_eq_some_getLast hne).symm.trans hlast)
  exact List.rdropWhile_last_not _ (placeDigits places n) hne (beq_iff_eq.2 hlast')

theorem spelled_placed (places n : Nat) : (placed places n).Spelled where
  digits := by
    refine List.forall_mem_append.2 ⟨fun d hd => Nat.isDigit_of_mem_toDigits (by decide) (by decide) hd, fun d hd => ?_⟩
    rw [places_placed] at hd
    exact isDigit_of_mem_placeDigits ((List.rdropWhile_prefix _ _).subset hd)
  whole_ne_nil := Nat.toDigits_ne_nil

/-- A number of several digits does not start with a zero. -/
theorem toDigits_of_head? {n : Nat} (h : (Nat.toDigits 10 n).head? = some '0') : Nat.toDigits 10 n = ['0'] := by
  have hdigits : ∀ d ∈ Nat.toDigits 10 n, d.isDigit = true :=
    fun d hd => Nat.isDigit_of_mem_toDigits (by decide) (by decide) hd
  cases hn : Nat.toDigits 10 n with
  | nil => exact absurd hn Nat.toDigits_ne_nil
  | cons c rest =>
    rw [hn, List.head?_cons, Option.some.injEq] at h
    subst h
    by_cases hrest : rest = []
    · rw [hrest]
    · -- without the zero the digits are of the same number, which has no fewer
      have hvalue : Nat.ofDigitChars 10 rest 0 = n := by
        have hall : Nat.ofDigitChars 10 ('0' :: rest) 0 = n := by rw [← hn, Nat.ofDigitChars_ten_toDigits]
        exact (Text.ofDigitChars_padded 1 rest).symm.trans hall
      have hlt : n < 10 ^ rest.length := by
        rw [← hvalue]
        exact Text.ofDigitChars_lt_pow fun d hd => hdigits d (by rw [hn]; exact List.mem_cons_of_mem _ hd)
      have hle := (Nat.length_toDigits_le_iff (by decide) (List.length_pos_iff.2 hrest)).2 hlt
      rw [hn] at hle
      exact absurd hle (Nat.not_le.2 (Nat.lt_succ_self _))

theorem canonical_placed (hplaces : 0 < places) (n : Nat) : (placed places n).Canonical places where
  toSpelled := spelled_placed places n
  leading := toDigits_of_head?
  fraction := by
    intro f hf
    unfold placed at hf
    dsimp only at hf
    split at hf
    · cases hf
    · rename_i hempty
      have hne : keptPlaces places n ≠ [] := mt List.isEmpty_iff.2 hempty
      rw [← Option.some.inj hf]
      refine ⟨hne, ?_, getLast?_keptPlaces places n⟩
      have hlength := (List.rdropWhile_prefix (· == '0') (placeDigits places n)).length_le
      rwa [length_placeDigits hplaces] at hlength

/-- The zeros that are dropped count nothing. -/
theorem value_placed (hplaces : 0 < places) (n : Nat) : (placed places n).value = n / 10 ^ places := by
  obtain ⟨zeros, hzeros⟩ := exists_zeros places n
  have hlength := length_placeDigits hplaces n
  have hnumber : Nat.ofDigitChars 10 (Nat.toDigits 10 (n / 10 ^ places) ++ placeDigits places n) 0 = n := by
    rw [Nat.ofDigitChars_append, Nat.ofDigitChars_eq_ofDigitChars_zero, length_placeDigits hplaces,
      ofDigitChars_placeDigits, Nat.ofDigitChars_ten_toDigits, Nat.div_add_mod]
  rw [hzeros, List.length_append, List.length_replicate] at hlength
  rw [hzeros, ← List.append_assoc, Nat.ofDigitChars_append, Nat.ofDigitChars_replicate_zero] at hnumber
  rw [Numeral.value, places_placed]
  show (Nat.ofDigitChars 10 (Nat.toDigits 10 (n / 10 ^ places) ++ keptPlaces places n) 0 : ℚ) / _ = _
  generalize Nat.ofDigitChars 10 (Nat.toDigits 10 (n / 10 ^ places) ++ keptPlaces places n) 0 = kept at hnumber
  have hshift : (10 ^ zeros * kept : ℚ) = n := by exact_mod_cast hnumber
  have hpow : (10 : ℚ) ^ places = 10 ^ (keptPlaces places n).length * 10 ^ zeros := by rw [← pow_add, hlength]
  rw [div_eq_div_iff (by positivity) (by positivity), hpow, ← hshift]
  ring

/-- No numeral starts with the minus sign, so the text tells the sign and the number. -/
theorem sign_append_text_inj (hplaces : 0 < places) {s t : Bool} {a b : Nat} :
    (if s then ['-'] else []) ++ (placed places a).text = (if t then ['-'] else []) ++ (placed places b).text ↔
      s = t ∧ a = b := by
  rw [Text.sign_append_inj (spelled_placed places a).head?_text_ne (spelled_placed places b).head?_text_ne,
    (spelled_placed places a).text_inj (spelled_placed places b)]
  refine and_congr_right' ⟨fun h => ?_, fun h => by rw [h]⟩
  have hvalue := congrArg Numeral.value h
  rw [value_placed hplaces, value_placed hplaces, div_left_inj' (by positivity)] at hvalue
  exact_mod_cast hvalue

/-- What is written is what is left of all the places when the zeros at their end are stripped, and then the point. -/
theorem writePlaces_eq_strip (places n : Nat) :
    writePlaces places n = ((Nat.toDigits 10 (n / 10 ^ places) ++ '.' :: placeDigits places n).rdropWhile
      (· == '0')).rdropWhile (· == '.') := by
  obtain ⟨zeros, hzeros⟩ := exists_zeros places n
  have hpoint (digits : List Char) (hd : ∀ d ∈ digits, d.isDigit = true) : digits.getLast? ≠ some '.' :=
    fun hlast => absurd (hd '.' (List.mem_of_getLast? hlast)) (by decide)
  obtain ⟨hwhole, hkept⟩ := List.forall_mem_append.1 (spelled_placed places n).digits
  rw [places_placed] at hkept
  have hlast := getLast?_keptPlaces places n
  rw [writePlaces_eq_text, hzeros, ← List.cons_append, ← List.append_assoc,
    Text.rdropWhile_append_replicate, Numeral.text,
    placed]
  generalize keptPlaces places n = kept at hkept hlast
  cases kept with
  | nil =>
    have hend : (Nat.toDigits 10 (n / 10 ^ places) ++ ['.']).getLast? ≠ some '0' := by
      rw [List.getLast?_concat]
      decide
    rw [Text.rdropWhile_of_getLast? hend, List.rdropWhile_concat_pos (· == '.') _ _ rfl]
    exact (Text.rdropWhile_of_getLast? (hpoint _ hwhole)).symm
  | cons d digits =>
    have hend : (Nat.toDigits 10 (n / 10 ^ places) ++ '.' :: d :: digits).getLast? = (d :: digits).getLast? := by
      rw [List.getLast?_append_of_ne_nil _ (List.cons_ne_nil _ _), List.getLast?_cons_cons]
    rw [← hend] at hlast
    have hpoint' := hpoint _ hkept
    rw [← hend] at hpoint'
    rw [Text.rdropWhile_of_getLast? hlast, Text.rdropWhile_of_getLast? hpoint']
    rfl

end Double

/-! ## Values -/

/-- The negation if there is a sign. -/
def withSign {α : Type} [Neg α] (negative : Bool) (a : α) : α := if negative then -a else a

theorem NearestEven.withSign {q : ℚ} {n : ℤ} (negative : Bool) (h : NearestEven q n) :
    NearestEven (withSign negative q) (withSign negative n) := by
  cases negative with
  | false => exact h
  | true => exact h.neg

/-- What is nearest in places is off by half a place at most. -/
theorem NearestEven.abs_div_sub_le {q : ℚ} {n : ℤ} {places : Nat} (h : NearestEven (q * 10 ^ places) n) :
    |(n : ℚ) / 10 ^ places - q| ≤ 1 / 2 / 10 ^ places := by
  have hpos : (0 : ℚ) < 10 ^ places := by positivity
  have hoff : (n : ℚ) / 10 ^ places - q = -(q * 10 ^ places - n) / 10 ^ places := by
    rw [neg_sub, sub_div, mul_div_cancel_right₀ _ hpos.ne']
  rw [hoff, abs_div, abs_neg, abs_of_pos hpos]
  exact div_le_div_of_nonneg_right h.close hpos.le

/-- What is rounded to the same multiple is a place apart at most. -/
theorem NearestEven.apart_le {p q : ℚ} {n : ℤ} {places : Nat} (hp : NearestEven (p * 10 ^ places) n)
    (hq : NearestEven (q * 10 ^ places) n) : |p - q| ≤ 1 / 10 ^ places := by
  calc |p - q| ≤ |p - n / 10 ^ places| + |n / 10 ^ places - q| := abs_sub_le ..
    _ = |n / 10 ^ places - p| + |n / 10 ^ places - q| := by rw [abs_sub_comm p]
    _ ≤ 1 / 2 / 10 ^ places + 1 / 2 / 10 ^ places := add_le_add hp.abs_div_sub_le hq.abs_div_sub_le
    _ = 1 / 10 ^ places := by rw [← add_div, add_halves]

theorem intCast_withSign (negative : Bool) (n : ℤ) : ((withSign negative n : ℤ) : ℚ) = withSign negative (n : ℚ) := by
  cases negative with
  | false => rfl
  | true => exact Int.cast_neg n

theorem natAbs_withSign (negative : Bool) (n : Nat) : (withSign negative (n : ℤ)).natAbs = n := by
  cases negative with
  | false => exact Int.natAbs_natCast n
  | true => exact (Int.natAbs_neg _).trans (Int.natAbs_natCast n)

theorem withSign_mul (negative : Bool) (a b : ℚ) : withSign negative (a * b) = withSign negative a * b := by
  cases negative with
  | false => rfl
  | true => exact neg_mul_eq_neg_mul a b

theorem withSign_div (negative : Bool) (a b : ℚ) : withSign negative (a / b) = withSign negative a / b := by
  rw [div_eq_mul_inv, withSign_mul, ← div_eq_mul_inv]

/-- A number with sign is the magnitude and, unless it is zero, the sign. -/
theorem withSign_eq_iff {s t : Bool} {a b : Nat} :
    withSign s (a : ℤ) = withSign t (b : ℤ) ∧ (withSign s (a : ℤ) = 0 → s = t) ↔ s = t ∧ a = b := by
  unfold withSign
  cases s <;> cases t <;> simp <;> omega

namespace Double

/-- The value of a finite double. -/
def rational? : Double → Option ℚ
  | .finite negative units _ => some (withSign negative ((units : ℚ) / unitsPerOne))
  | _ => none

theorem nearestEven_roundPlaces (negative : Bool) (places units : Nat) :
    NearestEven (withSign negative ((units : ℚ) / unitsPerOne) * 10 ^ places)
      (withSign negative (roundPlaces places units : ℤ)) := by
  have hscaled : (units : ℚ) / unitsPerOne * 10 ^ places = ((units * 10 ^ places : Nat) : ℚ) / unitsPerOne := by
    push_cast
    ring
  rw [← withSign_mul, hscaled]
  exact (nearestEven_roundHalfEven _ Double.unitsPerOne_pos).withSign negative

/-- Doubles with a value are finite, and their units are rounded as the value is. -/
theorem exists_units {x : Double} {q : ℚ} (h : x.rational? = some q) :
    ∃ negative units hr, x = .finite negative units hr ∧
      ∀ places, NearestEven (q * 10 ^ places) (withSign negative (roundPlaces places units : ℤ)) := by
  cases x with
  | nan => cases h
  | infinite negative => cases h
  | finite negative units hr =>
    obtain rfl := Option.some.inj h
    exact ⟨negative, units, hr, rfl, fun places => nearestEven_roundPlaces negative places units⟩

end Double

namespace Quantity

variable {x y : Double} {p q : ℚ} {m k : ℤ}

theorem write_finite (negative : Bool) {units : Nat} (hr : Representable units) (unit : Option String) :
    write ⟨.finite negative units hr, unit⟩ =
      String.ofList ((if negative then ['-'] else []) ++ (Double.placed 6 (roundPlaces 6 units)).text) ++
        unit.getD "" := by
  show String.ofList ((if negative then ['-'] else []) ++ Double.writePlaces 6 (roundPlaces 6 units)) ++ _ = _
  rw [Double.writePlaces_eq_text]

/-- A finite double without unit is written as the shortest numeral of the multiple of `10⁻⁶` that is nearest to it,
behind a minus sign if it has one. Of the whole part no digit is dropped. -/
theorem write_shortest (hx : x.rational? = some q) : ∃ (n : Numeral) (m : ℤ),
    write ⟨x, none⟩ = String.ofList ((if x.isNegative then ['-'] else []) ++ n.text) ∧ n.Canonical 6 ∧
      NearestEven (q * 10 ^ 6) m ∧ withSign x.isNegative n.value = m / 10 ^ 6 ∧
      |withSign x.isNegative n.value - q| ≤ 5 / 10 ^ 7 ∧ n.whole = Nat.toDigits 10 (m.natAbs / 10 ^ 6) ∧
      ∀ other : Numeral, other.Spelled → other.value = n.value → n.text.length ≤ other.text.length := by
  obtain ⟨negative, units, hr, rfl, hnearest⟩ := Double.exists_units hx
  have hcanonical := Double.canonical_placed (by decide : 0 < 6) (roundPlaces 6 units)
  have hvalue : withSign negative (Double.placed 6 (roundPlaces 6 units)).value =
      ((withSign negative (roundPlaces 6 units : ℤ) : ℤ) : ℚ) / 10 ^ 6 := by
    rw [Double.value_placed (by decide), withSign_div, intCast_withSign]
    rfl
  refine ⟨Double.placed 6 (roundPlaces 6 units), withSign negative (roundPlaces 6 units), ?_,
    hcanonical, hnearest 6, hvalue, ?_, ?_, fun other ho hother => hcanonical.length_text_le ho hother.symm⟩
  · rw [write_finite]
    exact String.append_empty
  · have hclose : |withSign negative (Double.placed 6 (roundPlaces 6 units)).value - q| ≤ 1 / 2 / 10 ^ 6 := by
      rw [hvalue]
      exact (hnearest 6).abs_div_sub_le
    exact hclose.trans_eq (by norm_num)
  · rw [natAbs_withSign]
    rfl

/-- A negative double just above minus ten is rounded to it, and the zero of the ten stays. -/
theorem write_shortest_ten : ∃ (n : Numeral) (m : ℤ),
    (Double.ofRatio true 41943039 4194304).rational? = some (-41943039 / 4194304) ∧
    write ⟨.ofRatio true 41943039 4194304, none⟩ = "-10" ∧ "-10" = String.ofList ('-' :: n.text) ∧ n.Canonical 6 ∧
      NearestEven (-41943039 / 4194304 * 10 ^ 6) m ∧ -n.value = m / 10 ^ 6 := by
  have hx : (Double.ofRatio true 41943039 4194304).rational? = some (-41943039 / 4194304) := by decide +kernel
  have htext : write ⟨.ofRatio true 41943039 4194304, none⟩ = "-10" := by decide +kernel
  have hsign : (Double.ofRatio true 41943039 4194304).isNegative = true := by decide +kernel
  obtain ⟨n, m, hwrite, hcanonical, hnearest, hvalue, -⟩ := write_shortest hx
  rw [hsign] at hwrite hvalue
  exact ⟨n, m, hx, htext, htext.symm.trans hwrite, hcanonical, hnearest, hvalue⟩

/-- Finite doubles are written alike exactly if they are rounded to the same multiple of `10⁻⁶`, and have the same sign
if that is zero. What is rounded to zero is written as zero behind its sign. -/
theorem write_eq_iff (hx : x.rational? = some p) (hy : y.rational? = some q) (hm : NearestEven (p * 10 ^ 6) m)
    (hk : NearestEven (q * 10 ^ 6) k) (unit : Option String) :
    (write ⟨x, unit⟩ = write ⟨y, unit⟩ ↔ m = k ∧ (m = 0 → x.isNegative = y.isNegative)) ∧
      (m = 0 → write ⟨x, unit⟩ = (if x.isNegative then "-0" else "0") ++ unit.getD "") := by
  obtain ⟨s, u, hu, rfl, hp⟩ := Double.exists_units hx
  obtain ⟨t, v, hv, rfl, hq⟩ := Double.exists_units hy
  obtain rfl := hm.unique (hp 6)
  obtain rfl := hk.unique (hq 6)
  rw [write_finite, write_finite]
  generalize roundPlaces 6 u = a
  generalize roundPlaces 6 v = b
  constructor
  · rw [String.append_left_inj, String.ofList_inj, Double.sign_append_text_inj (by decide)]
    exact withSign_eq_iff.symm
  · intro hzero
    have ha : a = 0 := by rw [← natAbs_withSign s a, hzero, Int.natAbs_zero]
    rw [ha]
    cases s <;> rfl

/-- A half is written like the double `2⁻²²` above it, and the one `2⁻²²` below zero as zero behind a sign. -/
theorem write_eq_iff_half :
    let half := Double.ofRatio false 1 2
    let above := Double.ofRatio false 2097153 4194304
    let below := Double.ofRatio true 1 4194304
    half.rational? = some (1 / 2) ∧ above.rational? = some (2097153 / 4194304) ∧ below.rational? = some (-1 / 4194304) ∧
      NearestEven (1 / 2 * 10 ^ 6) 500000 ∧ NearestEven (2097153 / 4194304 * 10 ^ 6) 500000 ∧
      NearestEven (-1 / 4194304 * 10 ^ 6) 0 ∧
      write ⟨half, some "px"⟩ = write ⟨above, some "px"⟩ ∧ write ⟨below, some "px"⟩ = "-0px" ∧
      write ⟨half, some "px"⟩ ≠ write ⟨below, some "px"⟩ := by
  intro half above below
  have hhalf : half.rational? = some (1 / 2) := by decide +kernel
  have habove : above.rational? = some (2097153 / 4194304) := by decide +kernel
  have hbelow : below.rational? = some (-1 / 4194304) := by decide +kernel
  have hm : NearestEven (1 / 2 * 10 ^ 6) 500000 := ⟨by norm_num, by norm_num⟩
  have hk : NearestEven (2097153 / 4194304 * 10 ^ 6) 500000 := ⟨by norm_num [abs_le], by norm_num [abs_eq]⟩
  have hz : NearestEven (-1 / 4194304 * 10 ^ 6) 0 := ⟨by norm_num [abs_le], fun _ => Even.zero⟩
  have hsign : below.isNegative = true := by decide +kernel
  have hzero := (write_eq_iff hbelow hhalf hz hm (some "px")).2 rfl
  rw [hsign] at hzero
  refine ⟨hhalf, habove, hbelow, hm, hk, hz, ?_, hzero, fun h => ?_⟩
  · exact (write_eq_iff hhalf habove hm hk _).1.2 ⟨rfl, fun h => absurd h (by decide)⟩
  · exact absurd ((write_eq_iff hhalf hbelow hm hz _).1.1 h).1 (by decide)

/-- Though both are rounded to zero, `2⁻²²` and its negation are not written alike. -/
theorem write_ne_of_sign :
    (Double.ofRatio false 1 4194304).rational? = some (1 / 4194304) ∧ NearestEven (1 / 4194304 * 10 ^ 6) 0 ∧
    (Double.ofRatio true 1 4194304).rational? = some (-1 / 4194304) ∧ NearestEven (-1 / 4194304 * 10 ^ 6) 0 ∧
      write ⟨.ofRatio false 1 4194304, none⟩ = "0" ∧ write ⟨.ofRatio true 1 4194304, none⟩ = "-0" := by
  have hpositive : NearestEven (1 / 4194304 * 10 ^ 6) 0 := ⟨by norm_num [abs_le], fun _ => Even.zero⟩
  have hnegative : NearestEven (-1 / 4194304 * 10 ^ 6) 0 := ⟨by norm_num [abs_le], fun _ => Even.zero⟩
  exact ⟨by decide +kernel, hpositive, by decide +kernel, hnegative, by decide +kernel, by decide +kernel⟩

end Quantity

end Stylesheet
