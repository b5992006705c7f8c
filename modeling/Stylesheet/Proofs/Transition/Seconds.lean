/-
Seconds against milliseconds. Milliseconds below 2⁵³ are read as they are. Seconds are read as the nearest double,
which is multiplied by a thousand, rounded again and truncated. The product is off the milliseconds by less than
the spacing of doubles around it, so the time is off by one at most; and it is exact if and only if the product is
close enough before it is rounded (`Transition.readTime_seconds`). That of one second and a millisecond is not
(`Transition.readTime_seconds_off`).
-/
import Stylesheet.Proofs.Transition.Time

namespace Stylesheet

/-! ## A thousand times a double -/

namespace Double

/-- The thousandfold, in units, of the double nearest to a thousandth of a whole number. -/
def thousandfold (n : Nat) : Nat := 1000 * nearestUnits (n * unitsPerOne) 1000

/-- The spacing of doubles around a number of units. -/
def spacing (units : Nat) : Nat := 2 ^ spacingExponent units

variable {n : Nat}

theorem spacing_pos (units : Nat) : 0 < spacing units := Nat.two_pow_pos _

theorem two_pow_le_unitsPerOne : 2 ^ 62 ≤ unitsPerOne := by decide +kernel

/-- The nearest double is off by half a spacing at most, and its thousandfold by as much a thousand times. -/
theorem thousandfold_error (n : Nat) :
    2 * thousandfold n ≤ 2 * (n * unitsPerOne) + 1000 * spacing (n * unitsPerOne / 1000) ∧
      2 * (n * unitsPerOne) ≤ 2 * thousandfold n + 1000 * spacing (n * unitsPerOne / 1000) := by
  have hden : 0 < 1000 * spacing (n * unitsPerOne / 1000) := Nat.mul_pos (by decide) (spacing_pos _)
  have hclose := roundHalfEven_close (n * unitsPerOne) hden
  have hthousandfold : thousandfold n =
      roundHalfEven (n * unitsPerOne) (1000 * spacing (n * unitsPerOne / 1000)) *
        (1000 * spacing (n * unitsPerOne / 1000)) :=
    Nat.mul_left_comm ..
  rwa [← hthousandfold] at hclose

/-- A factor of a thousand moves the leading bit by nine places at least. -/
theorem spacing_thousandth (hn : 0 < n) : 512 * spacing (n * unitsPerOne / 1000) ≤ spacing (thousandfold n) := by
  set q := n * unitsPerOne / 1000 with hq
  have hlarge : 2 ^ 52 ≤ q := by
    have hone : unitsPerOne ≤ n * unitsPerOne := Nat.le_mul_of_pos_left _ hn
    have hmany := two_pow_le_unitsPerOne
    omega
  have hq0 : q ≠ 0 := by omega
  have hlog : 52 ≤ q.log2 := (Nat.le_log2 hq0).2 hlarge
  have hnear : Nat.pow 2 q.log2 ≤ nearestUnits (n * unitsPerOne) 1000 := two_pow_le_nearestUnits (Nat.log2_self_le hq0)
  have hlead : 2 ^ (9 + q.log2) ≤ thousandfold n := by
    rw [pow_add]
    exact Nat.mul_le_mul (by decide) hnear
  have hthousandfold : 9 + q.log2 ≤ (thousandfold n).log2 :=
    (Nat.le_log2 (Nat.ne_of_gt ((Nat.two_pow_pos _).trans_le hlead))).2 hlead
  calc 512 * spacing q = 2 ^ (9 + spacingExponent q) := (pow_add 2 9 _).symm
    _ ≤ spacing (thousandfold n) := Nat.pow_le_pow_right (by decide) (by unfold spacingExponent; omega)

theorem spacingExponent_le_of_lt {units k : Nat} (h : units < 2 ^ (52 + k + 1)) : spacingExponent units ≤ k := by
  rcases Nat.eq_zero_or_pos units with rfl | hu
  · exact Nat.zero_le _
  · have hlog := (Nat.log2_lt hu.ne').2 h
    unfold spacingExponent
    omega

/-- Below `2⁵³` the nearest double is off by less than a thousandth. -/
theorem thousandfold_lt (hn : n < 2 ^ 53) : thousandfold n < 2 ^ 53 * unitsPerOne := by
  obtain ⟨b, hb, hone⟩ : ∃ b, 9 ≤ b ∧ unitsPerOne = 2 ^ b := ⟨fractionBits, by decide, unitsPerOne_eq⟩
  have hthousandth : 512 * spacing (n * unitsPerOne / 1000) ≤ unitsPerOne := by
    have hlt : n * unitsPerOne / 1000 < 2 ^ (52 + (b - 9) + 1) := by
      rw [Nat.div_lt_iff_lt_mul (by decide), show 52 + (b - 9) + 1 = 44 + b by omega, pow_add, hone]
      exact (Nat.mul_lt_mul_of_pos_right (hn.trans (by decide)) (Nat.two_pow_pos b)).trans_eq
        (mul_right_comm (2 ^ 44) 1000 (2 ^ b))
    calc 512 * spacing (n * unitsPerOne / 1000) ≤ 2 ^ 9 * 2 ^ (b - 9) :=
          Nat.mul_le_mul (by decide) (Nat.pow_le_pow_right (by decide) (spacingExponent_le_of_lt hlt))
      _ = unitsPerOne := by rw [← pow_add, Nat.add_sub_cancel' hb, hone]
  have herror := (thousandfold_error n).1
  have hpos := spacing_pos (n * unitsPerOne / 1000)
  have hnext : (n + 1) * unitsPerOne ≤ 2 ^ 53 * unitsPerOne := Nat.mul_le_mul_right _ hn
  rw [Nat.add_mul, Nat.one_mul] at hnext
  omega

/-- The spacing around it is one at most, and goes into one once or an even number of times. -/
theorem exists_spacing_mul (hn : n < 2 ^ 53) :
    ∃ k, unitsPerOne = k * spacing (thousandfold n) ∧ (k = 1 ∨ k % 2 = 0) := by
  have hexponent : spacingExponent (thousandfold n) ≤ fractionBits := by
    refine spacingExponent_le_of_lt ((thousandfold_lt hn).trans_eq ?_)
    rw [unitsPerOne_eq, ← pow_add, Nat.add_right_comm]
  rw [unitsPerOne_eq]
  generalize fractionBits = b at hexponent
  refine ⟨2 ^ (b - spacingExponent (thousandfold n)), ?_, ?_⟩
  · rw [spacing, ← pow_add, Nat.sub_add_cancel hexponent]
  · rcases Nat.eq_zero_or_pos (b - spacingExponent (thousandfold n)) with hz | hpos
    · exact .inl (by rw [hz, pow_zero])
    · exact .inr (by rw [← Nat.sub_add_cancel hpos, pow_succ, Nat.mul_mod_left])

theorem thousandfold_zero : thousandfold 0 = 0 := by
  rw [thousandfold, Nat.zero_mul, nearestUnits_eq_zero (by decide)]

/-- The thousandfold is off the whole number by less than the spacing around it. -/
theorem thousandfold_close (n : Nat) :
    thousandfold n < n * unitsPerOne + spacing (thousandfold n) ∧
      n * unitsPerOne < thousandfold n + spacing (thousandfold n) := by
  have hpos := spacing_pos (thousandfold n)
  rcases Nat.eq_zero_or_pos n with rfl | hn
  · rw [thousandfold_zero] at hpos ⊢
    omega
  · have herror := thousandfold_error n
    have hspacing := spacing_thousandth hn
    omega

/-- The thousandfold of a double is at most half a spacing below the whole number and at most a half above it,
and so near to a half only where the whole number is even. -/
structure IsThousandfold (units n : Nat) : Prop where
  low : 2 * (n * unitsPerOne) ≤ 2 * (1000 * units) + spacing (1000 * units)
  high : 2 * (1000 * units) ≤ 2 * (n * unitsPerOne) + unitsPerOne
  even : 2 * (1000 * units) = 2 * (n * unitsPerOne) + unitsPerOne ∨
      2 * (n * unitsPerOne) = 2 * (1000 * units) + unitsPerOne →
    n % 2 = 0

theorem isThousandfold_iff : IsThousandfold (nearestUnits (n * unitsPerOne) 1000) n ↔
    2 * (n * unitsPerOne) ≤ 2 * thousandfold n + spacing (thousandfold n) ∧
      2 * thousandfold n ≤ 2 * (n * unitsPerOne) + unitsPerOne ∧
      (2 * thousandfold n = 2 * (n * unitsPerOne) + unitsPerOne ∨
        2 * (n * unitsPerOne) = 2 * thousandfold n + unitsPerOne →
        n % 2 = 0) :=
  ⟨fun h => ⟨h.low, h.high, h.even⟩, fun h => ⟨h.1, h.2.1, h.2.2⟩⟩

/-- Rounded, the thousandfold has the whole number or one of its neighbours as its whole part. -/
theorem nearestUnits_thousandfold (hn : n < 2 ^ 53) :
    nearestUnits (thousandfold n) 1 / unitsPerOne ≤ n + 1 ∧ n ≤ nearestUnits (thousandfold n) 1 / unitsPerOne + 1 ∧
      (nearestUnits (thousandfold n) 1 / unitsPerOne = n ↔ IsThousandfold (nearestUnits (n * unitsPerOne) 1000) n) := by
  obtain ⟨k, hone, hk⟩ := exists_spacing_mul hn
  obtain ⟨hhigh, hlow⟩ := thousandfold_close n
  have hpos := spacing_pos (thousandfold n)
  have hU := unitsPerOne_pos
  have hround : nearestUnits (thousandfold n) 1 =
      roundHalfEven (thousandfold n) (spacing (thousandfold n)) * spacing (thousandfold n) := by
    unfold nearestUnits
    dsimp only
    rw [Nat.div_one, Nat.one_mul]
    rfl
  rw [isThousandfold_iff, hround]
  generalize thousandfold n = t at hone hhigh hlow hpos ⊢
  generalize spacing t = s at hone hhigh hlow hpos ⊢
  -- all is compared in multiples of the spacing
  have hnumber : n * unitsPerOne = n * k * s := by rw [Nat.mul_assoc, ← hone]
  have hlower := le_roundHalfEven_iff t (n * k) hpos
  have hupper := roundHalfEven_le_iff t (n * k) hpos
  obtain ⟨hbelow, habove⟩ := roundHalfEven_of_near (m := n * k) (hnumber ▸ hlow) (hnumber ▸ hhigh)
  generalize roundHalfEven t s = near at hlower hupper hbelow habove ⊢
  have hbelow : n * k * s ≤ near * s + s := (Nat.mul_le_mul_right s hbelow).trans_eq (Nat.succ_mul ..)
  have habove : near * s ≤ n * k * s + s := (Nat.mul_le_mul_right s habove).trans_eq (Nat.succ_mul ..)
  have hk0 : 0 < k := by
    rcases Nat.eq_zero_or_pos k with rfl | h
    · rw [hone, Nat.zero_mul] at hU
      exact absurd hU (Nat.lt_irrefl 0)
    · exact h
  have hs : s ≤ unitsPerOne := hone ▸ Nat.le_mul_of_pos_left s hk0
  refine ⟨Nat.div_le_of_le_mul ?_, ?_, ?_⟩
  · rw [Nat.mul_comm unitsPerOne, Nat.add_mul, Nat.one_mul, hnumber]
    omega
  · rw [← Nat.add_div_right _ hU, Nat.le_div_iff_mul_le hU, hnumber]
    omega
  · have hwhole : near * s / unitsPerOne = n ↔ n * unitsPerOne ≤ near * s ∧
        near * s < n * unitsPerOne + unitsPerOne := by
      rw [← Nat.succ_mul, ← Nat.le_div_iff_mul_le hU, ← Nat.div_lt_iff_lt_mul hU, Nat.lt_succ_iff,
        and_comm, le_antisymm_iff]
    have hle : n * k * s ≤ near * s ↔ n * k ≤ near := Nat.mul_le_mul_right_iff hpos
    rw [hwhole, hnumber, hle, hlower]
    rcases hk with rfl | heven
    · have hlt : near * s < n * 1 * s + unitsPerOne ↔ near ≤ n * 1 := by
        rw [hone, ← Nat.add_mul, Nat.mul_lt_mul_right hpos, Nat.lt_succ_iff]
      rw [hlt, hupper]
      rw [Nat.mul_one] at *
      omega
    · -- there is an even number of multiples, so a half is rounded to the whole number
      have htwo : 2 * s ≤ unitsPerOne := hone ▸ Nat.mul_le_mul_right s (by omega)
      have hparity : n * k % 2 = 0 := by rw [Nat.mul_mod, heven, Nat.mul_zero, Nat.zero_mod]
      omega

/-- A whole number of eighths is a double, and its thousandfold is exact. -/
theorem isThousandfold_of_dvd (hn : n < 2 ^ 53) (h : 125 ∣ n) :
    IsThousandfold (nearestUnits (n * unitsPerOne) 1000) n := by
  obtain ⟨m, rfl⟩ := h
  obtain ⟨b, hone⟩ : ∃ b, unitsPerOne = 8 * 2 ^ b := by
    refine ⟨fractionBits - 3, ?_⟩
    rw [unitsPerOne_eq, show (8 : Nat) = 2 ^ 3 from rfl, ← pow_add, Nat.add_sub_cancel' (by decide)]
  have hnumber : 125 * m * unitsPerOne = m * 2 ^ b * 1000 := by
    rw [hone]
    ring
  have hdvd : 2 ^ spacingExponent (m * 2 ^ b) ∣ m * 2 ^ b := spacing_dvd_mul_two_pow (by rw [Nat.pow_eq]; omega)
  have hexact : nearestUnits (125 * m * unitsPerOne) 1000 = m * 2 ^ b := by
    rw [hnumber]
    exact (nearestUnits_mul (m * 2 ^ b) 1 (by decide)).trans (nearestUnits_of_spacing_dvd hdvd)
  have hthousandfold : 1000 * nearestUnits (125 * m * unitsPerOne) 1000 = 125 * m * unitsPerOne := by
    rw [hexact, hnumber, Nat.mul_comm]
  have hU := unitsPerOne_pos
  refine ⟨?_, ?_, fun hhalf => ?_⟩
  · rw [hthousandfold]
    exact Nat.le_add_right ..
  · rw [hthousandfold]
    exact Nat.le_add_right ..
  · rw [hthousandfold] at hhalf
    omega

end Double

/-! ## Times in seconds -/

namespace Text.Numeral

/-- The thousandths that a numeral of three places at most counts. -/
def thousandths (n : Numeral) : Nat :=
  Nat.ofDigitChars 10 ((n.whole ++ n.places).map toAsciiDigit) 0 * 10 ^ (3 - n.places.length)

theorem toDouble_eq_thousandths {n : Numeral} (h : n.places.length ≤ 3) :
    n.toDouble = Double.ofUnits false (n.thousandths * Double.unitsPerOne) 1000 := by
  unfold toDouble Double.ofDigits Double.ofRatio
  rw [← List.map_append, List.length_map, Nat.pow_eq]
  refine Double.ofUnits_congr false (Double.nearestUnits_eq_of_mul_eq (by positivity) (by decide) ?_)
  have hpow : 10 ^ (3 - n.places.length) * 10 ^ n.places.length = 1000 := by
    rw [← pow_add, Nat.sub_add_cancel h]
    rfl
  rw [thousandths, ← hpow]
  ring

end Text.Numeral

namespace Double

theorem two_pow_mul_le_overflowUnits : 2 ^ 54 * unitsPerOne ≤ overflowUnits := by decide +kernel

/-- A whole number below `2⁵³` is a double. -/
theorem representable_natCast {n : Nat} (hn : n < 2 ^ 53) : Representable (n * unitsPerOne) := by
  refine ⟨?_, (Nat.mul_lt_mul_of_pos_right (hn.trans (by decide)) unitsPerOne_pos).trans_le
    two_pow_mul_le_overflowUnits⟩
  unfold unitsPerOne
  generalize fractionBits = b
  exact spacing_dvd_mul_two_pow hn.le

/-- What is below a power of two that is a double has a double no larger than that. -/
theorem exists_ofUnits_of_lt {num den k : Nat} (negative : Bool) (hk : k < 1024) (h : num < 2 ^ k * unitsPerOne * den) :
    ∃ units hr, units ≤ 2 ^ k * unitsPerOne ∧ ofUnits negative num den = .finite negative units hr := by
  have hlt := nearestUnits_lt_overflowUnits hk h
  rw [unitsPerOne_eq, ← pow_add] at h ⊢
  exact ⟨_, representable_nearestUnits hlt, nearestUnits_le_two_pow h, ofUnits_of_nearestUnits negative rfl _⟩

theorem mul_thousand {units : Nat} (hr : Representable units) :
    (finite false units hr).mul (ofInt 1000) = ofUnits false (1000 * units) 1 := by
  have hthousand : ofInt 1000 = ofRatio false 1000 1 := rfl
  rw [hthousand, ofRatio_one_of_representable (representable_natCast (by decide))]
  refine ofUnits_congr false ?_
  rw [← nearestUnits_mul (1000 * units) 1 unitsPerOne_pos, Nat.one_mul, Nat.mul_left_comm, Nat.mul_assoc]

end Double

namespace Transition

open Text

theorem duration?_text {n : Numeral} (hwhole : n.whole ≠ []) (hdigits : ∀ d ∈ n.whole ++ n.places, isDigit d = true) :
    duration? (n.text ++ ['m', 's']) = some n.toDouble ∧
      duration? (n.text ++ ['s']) = some (n.toDouble.mul (Double.ofInt 1000)) := by
  have hsplit (rest : List Char) (hrest : ∀ c ∈ rest.head?, isDigit c = false ∧ c ≠ '.') :
      Numeral.split? isDigit (n.text ++ rest) = some (n, rest) :=
    Numeral.split?_text_append (by decide) hdigits hwhole hrest
  constructor
  · rw [duration?, hsplit ['m', 's'] (by rintro _ ⟨⟩; decide)]
    rfl
  · rw [duration?, hsplit ['s'] (by rintro _ ⟨⟩; decide)]
    rfl

theorem readTime_of_finite {word : List Char} {units : Nat} (hr : Double.Representable units)
    (h : duration? word = some (.finite false units hr)) :
    readTime word = .ok (some ((units / Double.unitsPerOne : Nat) : Int)) := by
  unfold readTime
  rw [h]
  rfl

/-- Whole milliseconds below `2⁵³` are read as they are, in the digits of any script. -/
theorem readTime_milliseconds {digits : List Char} (hne : digits ≠ [])
    (hdigits : ∀ d ∈ digits, isDigit d = true) {t : Nat}
    (hvalue : Nat.ofDigitChars 10 (digits.map toAsciiDigit) 0 = t) (ht : t < 2 ^ 53) :
    readTime (digits ++ ['m', 's']) = .ok (some (t : Int)) := by
  let n : Numeral := ⟨digits, none⟩
  have hdouble : n.toDouble = .finite false (t * Double.unitsPerOne) (Double.representable_natCast ht) := by
    rw [← Double.ofRatio_one_of_representable, ← hvalue, ← List.append_nil (digits.map toAsciiDigit)]
    rfl
  have hduration : duration? (n.text ++ ['m', 's']) = some n.toDouble :=
    (duration?_text (n := n) hne (by simpa [n, Numeral.places] using hdigits)).1
  rw [hdouble] at hduration
  have hread := readTime_of_finite _ hduration
  rwa [Nat.mul_div_cancel _ Double.unitsPerOne_pos] at hread

/-- A time of three places at most, and of less than `2⁵³` milliseconds. In whole milliseconds it is read as it is. In
seconds it is read as well, and off by one millisecond at most; it is exact where the seconds are a whole number of
eighths, and elsewhere exactly if the thousandfold of the double that is nearest to the seconds is at most half a
spacing of doubles below the milliseconds and at most a half above. -/
theorem readTime_seconds {n : Numeral} (hwhole : n.whole ≠ []) (hdigits : ∀ d ∈ n.whole ++ n.places, isDigit d = true)
    (hplaces : n.places.length ≤ 3) (hsize : n.thousandths < 2 ^ 53) :
    (∀ digits : List Char, digits ≠ [] → (∀ d ∈ digits, isDigit d = true) →
      Nat.ofDigitChars 10 (digits.map toAsciiDigit) 0 = n.thousandths →
      readTime (digits ++ ['m', 's']) = .ok (some (n.thousandths : Int))) ∧
    ∃ units hr, n.toDouble = .finite false units hr ∧ ∃ t : Nat, readTime (n.text ++ ['s']) = .ok (some (t : Int)) ∧
      t ≤ n.thousandths + 1 ∧ n.thousandths ≤ t + 1 ∧ (125 ∣ n.thousandths → t = n.thousandths) ∧
      (t = n.thousandths ↔ Double.IsThousandfold units n.thousandths) := by
  refine ⟨fun digits hne hd hvalue => readTime_milliseconds hne hd hvalue hsize, ?_⟩
  have hone := Double.unitsPerOne_pos
  have hlarge := Double.two_pow_mul_le_overflowUnits
  have hthousandfold := Double.thousandfold_lt hsize
  obtain ⟨hhigh, hlow, hexact⟩ := Double.nearestUnits_thousandfold hsize
  have hfinite : Double.nearestUnits (n.thousandths * Double.unitsPerOne) 1000 < Double.overflowUnits := by
    unfold Double.thousandfold at hthousandfold
    omega
  have hproduct : Double.nearestUnits (Double.thousandfold n.thousandths) 1 < Double.overflowUnits := by
    have hlt := (Nat.div_lt_iff_lt_mul hone).1 (Nat.lt_succ_of_le hhigh)
    exact hlt.trans_le ((Nat.mul_le_mul_right _ (by omega)).trans hlarge)
  have hr := Double.representable_nearestUnits hfinite
  have hdouble : n.toDouble = .finite false _ hr := by
    rw [Numeral.toDouble_eq_thousandths hplaces]
    exact Double.ofUnits_of_nearestUnits false rfl hr
  refine ⟨_, hr, hdouble, _, readTime_of_finite (Double.representable_nearestUnits hproduct) ?_, hhigh, hlow,
    fun h => hexact.2 (Double.isThousandfold_of_dvd hsize h), hexact⟩
  rw [(duration?_text hwhole hdigits).2, hdouble, Double.mul_thousand]
  exact congrArg some (Double.ofUnits_of_nearestUnits false rfl _)

/-- One and a half seconds are fifteen hundred milliseconds. -/
theorem readTime_seconds_half :
    readTime "1.5s".toList = .ok (some 1500) ∧ readTime "1500ms".toList = .ok (some 1500) := by
  let n : Numeral := ⟨['1'], some ['5']⟩
  have hthousandths : n.thousandths = 1500 := by decide
  obtain ⟨hmilliseconds, -, -, -, t, hseconds, -, -, heighths, -⟩ :=
    readTime_seconds (n := n) (by decide) (List.all_eq_true.1 (by decide)) (by decide) (by rw [hthousandths]; decide)
  rw [heighths (by rw [hthousandths]; decide), hthousandths] at hseconds
  rw [hthousandths] at hmilliseconds
  exact ⟨hseconds, hmilliseconds "1500".toList (by decide) (List.all_eq_true.1 (by decide)) (by decide)⟩

/-- Written in seconds, one second and a millisecond are a millisecond short, and a larger time is one too long. -/
theorem readTime_seconds_off :
    readTime "1.001s".toList = .ok (some 1000) ∧ readTime "1001ms".toList = .ok (some 1001) ∧
    readTime "8900000000000.001s".toList = .ok (some 8900000000000002) := by
  decide +kernel

end Transition

end Stylesheet
