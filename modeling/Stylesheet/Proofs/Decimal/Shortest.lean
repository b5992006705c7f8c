/-
The shortest digits read back. The search starts at the exponent of the leading digit, so a grid of
seventeen digits is fine enough that its point next to a double is rounded to it. Hence the search ends
at a coefficient that reads back, and without its trailing zeros it has seventeen digits at most.
-/
import Mathlib.Data.List.TakeWhile
import Mathlib.Tactic
import Stylesheet.Decimal.Shortest
import Stylesheet.Proofs.Double.Nearest

namespace Stylesheet.Significand

open Double (unitsPerOne spacingExponent)

/-! ## The decimal grid -/

theorem scaled_pos (units : Nat) (e : Int) : 0 < (scaled units e).2 := by
  simp only [scaled, Nat.pow_eq]
  split <;> dsimp only
  · exact Nat.mul_pos Double.unitsPerOne_pos (by positivity)
  · exact Double.unitsPerOne_pos

/-- The quotient that is searched is that of the value and a power of ten. -/
theorem scaled_div (units : Nat) (e : Int) :
    ((scaled units e).1 : ℚ) / (scaled units e).2 = (units : ℚ) / unitsPerOne / (10 : ℚ) ^ e := by
  simp only [scaled, Nat.pow_eq]
  split
  · rename_i he
    obtain ⟨n, rfl⟩ := Int.eq_ofNat_of_zero_le he
    push_cast
    rw [Int.toNat_natCast, zpow_natCast, div_div]
  · rename_i he
    obtain ⟨n, rfl⟩ : ∃ n : Nat, e = -(n : Int) := ⟨(-e).toNat, by omega⟩
    push_cast
    rw [neg_neg, Int.toNat_natCast, zpow_neg, zpow_natCast, div_inv_eq_mul, mul_div_right_comm]

/-- A point of the grid is read as a multiple of the grid's unit. -/
theorem nearestUnits_scaled (units : Nat) (e : Int) : ∃ den, 0 < den ∧ (scaled units e).1 = units * den ∧
    ∀ c, Decimal.nearestUnits c e = Double.nearestUnits (c * (scaled units e).2) den := by
  simp only [scaled, Decimal.nearestUnits, Nat.pow_eq]
  split <;> dsimp only
  · exact ⟨1, Nat.one_pos, (mul_one units).symm, fun c => by rw [mul_assoc, mul_comm (10 ^ e.toNat)]⟩
  · exact ⟨10 ^ (-e).toNat, by positivity, rfl, fun c => rfl⟩

/-! ## The leading digit -/

theorem unitsPerOne_le_pow : unitsPerOne ≤ 10 ^ 324 := by decide +kernel

/-- The number of digits bounds a positive number from both sides. -/
theorem pow_le_of_length_toDigits {n l : Nat} (hn : 0 < n) (h : (Nat.toDigits 10 n).length = l + 1) :
    10 ^ l ≤ n ∧ n < 10 ^ (l + 1) := by
  refine ⟨?_, (Nat.length_toDigits_le_iff (by decide) (Nat.succ_pos l)).1 (le_of_eq h)⟩
  rcases Nat.eq_zero_or_pos l with rfl | hl
  · exact hn
  · by_contra hlt
    have := (Nat.length_toDigits_le_iff (by decide) hl).2 (not_le.1 hlt)
    omega

/-- A positive double lies between the power of ten of its leading digit and the next. -/
theorem leadingExponent_spec {units : Nat} (hu : 0 < units) :
    (10 : ℚ) ^ leadingExponent units ≤ (units : ℚ) / unitsPerOne ∧
      (units : ℚ) / unitsPerOne < (10 : ℚ) ^ (leadingExponent units + 1) := by
  have hU := Double.unitsPerOne_pos
  have hpos : 0 < units * 10 ^ 324 / unitsPerOne :=
    Nat.div_pos (unitsPerOne_le_pow.trans (Nat.le_mul_of_pos_left _ hu)) hU
  obtain ⟨l, hl⟩ : ∃ l, (Nat.toDigits 10 (units * 10 ^ 324 / unitsPerOne)).length = l + 1 :=
    ⟨_, (Nat.sub_add_cancel Nat.length_toDigits_pos).symm⟩
  have hlead : leadingExponent units = ((l + 1 : Nat) : Int) - 325 := congrArg (fun n : Nat => (n : Int) - 325) hl
  obtain ⟨hlow, hhigh⟩ := pow_le_of_length_toDigits hpos hl
  rw [Nat.le_div_iff_mul_le hU] at hlow
  rw [Nat.div_lt_iff_lt_mul hU] at hhigh
  have hU' : (0 : ℚ) < unitsPerOne := by exact_mod_cast hU
  have hp : (0 : ℚ) < (10 : ℚ) ^ 324 := by positivity
  rw [hlead]
  constructor
  · rw [show ((l + 1 : Nat) : Int) - 325 = (l : Int) - (324 : Nat) by push_cast; ring, zpow_sub₀ (by norm_num),
      zpow_natCast, zpow_natCast, div_le_div_iff₀ hp hU']
    exact_mod_cast hlow
  · rw [show ((l + 1 : Nat) : Int) - 325 + 1 = ((l + 1 : Nat) : Int) - (324 : Nat) by push_cast; ring,
      zpow_sub₀ (by norm_num), zpow_natCast, zpow_natCast, div_lt_div_iff₀ hU' hp]
    exact_mod_cast hhigh

/-- On the grid of `n + 1` digits the quotient has as many digits before the point. -/
theorem scaled_leadingExponent {units : Nat} (hu : 0 < units) (n : Nat) :
    10 ^ n * (scaled units (leadingExponent units - n)).2 ≤ (scaled units (leadingExponent units - n)).1 ∧
      (scaled units (leadingExponent units - n)).1 < 10 ^ (n + 1) * (scaled units (leadingExponent units - n)).2 := by
  obtain ⟨hlow, hhigh⟩ := leadingExponent_spec hu
  have hden := scaled_pos units (leadingExponent units - n)
  have hdiv := scaled_div units (leadingExponent units - n)
  generalize scaled units (leadingExponent units - n) = q at hden hdiv ⊢
  have hq : (0 : ℚ) < q.2 := by exact_mod_cast hden
  have hp : (0 : ℚ) < (10 : ℚ) ^ (leadingExponent units - n) := by positivity
  have hn : (10 : ℚ) ^ n * (10 : ℚ) ^ (leadingExponent units - n) = (10 : ℚ) ^ leadingExponent units := by
    rw [← zpow_natCast, ← zpow_add₀ (by norm_num)]
    congr 1; ring
  have hn' : (10 : ℚ) ^ (n + 1) * (10 : ℚ) ^ (leadingExponent units - n) = (10 : ℚ) ^ (leadingExponent units + 1) := by
    rw [← zpow_natCast, ← zpow_add₀ (by norm_num)]
    congr 1; push_cast; ring
  constructor
  · have h : (10 : ℚ) ^ n ≤ (q.1 : ℚ) / q.2 := by rw [hdiv, le_div_iff₀ hp, hn]; exact hlow
    rw [le_div_iff₀ hq] at h
    exact_mod_cast h
  · have h : (q.1 : ℚ) / q.2 < (10 : ℚ) ^ (n + 1) := by rw [hdiv, div_lt_iff₀ hp, hn']; exact hhigh
    rw [div_lt_iff₀ hq] at h
    exact_mod_cast h

/-! ## Seventeen digits suffice -/

/-- The nearest number of seventeen digits is read back to the double. -/
theorem nearestUnits_seventeen {units : Nat} (hu : 0 < units) (hs : 2 ^ spacingExponent units ∣ units) :
    Decimal.nearestUnits (roundHalfEven (scaled units (leadingExponent units - (16 : Nat))).1
      (scaled units (leadingExponent units - (16 : Nat))).2) (leadingExponent units - (16 : Nat)) = units := by
  obtain ⟨hlow, -⟩ := scaled_leadingExponent hu 16
  have hden := scaled_pos units (leadingExponent units - (16 : Nat))
  obtain ⟨den, hd, hnum, hread⟩ := nearestUnits_scaled units (leadingExponent units - (16 : Nat))
  rw [hread]
  obtain ⟨h1, h2⟩ := roundHalfEven_close (scaled units (leadingExponent units - (16 : Nat))).1 hden
  generalize roundHalfEven _ _ * _ = point at h1 h2 ⊢
  rw [hnum] at hlow h1 h2
  -- half a unit of the grid is a 2·10¹⁶th of the double at most
  refine Double.nearestUnits_eq_of_close hd hs ?_ ?_ <;> omega

theorem neighbour?_spec {units : Nat} {e : Int} {c : Nat} (h : neighbour? units e = some c) :
    Decimal.nearestUnits c e = units ∧ (scaled units e).1 / (scaled units e).2 ≤ c ∧
      c ≤ (scaled units e).1 / (scaled units e).2 + 1 := by
  unfold neighbour? at h
  generalize scaled units e = q at h ⊢
  obtain ⟨num, den⟩ := q
  dsimp only at h ⊢
  have hnear := roundHalfEven_eq_or num den
  have hfar : num / den ≤ (if roundHalfEven num den = num / den then roundHalfEven num den + 1 else num / den) ∧
      (if roundHalfEven num den = num / den then roundHalfEven num den + 1 else num / den) ≤ num / den + 1 := by
    split <;> omega
  generalize (if roundHalfEven num den = num / den then roundHalfEven num den + 1 else num / den) = far at h hfar
  have hread {c : Nat} (hc : readsBack units c e = true) : Decimal.nearestUnits c e = units := by
    simpa [readsBack] using hc
  split at h
  · rename_i h1
    cases h
    exact ⟨hread h1, by omega, by omega⟩
  · split at h
    · rename_i h2
      cases h
      exact ⟨hread h2, hfar⟩
    · cases h

/-- The grid of `n + 1` digits has coefficients of so many digits, and the power of ten above them. -/
theorem bounds_of_neighbour? {units n c : Nat} (hu : 0 < units)
    (h : neighbour? units (leadingExponent units - n) = some c) : 10 ^ n ≤ c ∧ c ≤ 10 ^ (n + 1) := by
  obtain ⟨-, hlow, hhigh⟩ := neighbour?_spec h
  obtain ⟨hle, hlt⟩ := scaled_leadingExponent hu n
  have hden := scaled_pos units (leadingExponent units - n)
  rw [← Nat.le_div_iff_mul_le hden] at hle
  rw [← Nat.div_lt_iff_lt_mul hden] at hlt
  exact ⟨hle.trans hlow, hhigh.trans hlt⟩

theorem neighbour?_ne_none {units : Nat} {e : Int}
    (h : Decimal.nearestUnits (roundHalfEven (scaled units e).1 (scaled units e).2) e = units) :
    neighbour? units e ≠ none := by
  unfold neighbour?
  generalize scaled units e = q at h ⊢
  obtain ⟨num, den⟩ := q
  dsimp only at h ⊢
  rw [readsBack, h, beq_self_eq_true, if_pos rfl]
  exact Option.some_ne_none _

/-- The search ends on one of the grids of seventeen digits at most. -/
theorem exists_neighbour?_eq {units : Nat} (hu : 0 < units) (hs : 2 ^ spacingExponent units ∣ units) :
    ∃ n c : Nat, n < 17 ∧ neighbour? units (leadingExponent units - n) = some c ∧
      shortest units = ofCoefficient c (leadingExponent units - n) := by
  have h17 := neighbour?_ne_none (nearestUnits_seventeen hu hs)
  unfold shortest
  rw [if_neg (Nat.ne_of_gt hu)]
  -- the leading exponent is kept from being computed
  generalize leadingExponent units = lead at h17 ⊢
  dsimp -iota only
  cases hfound : (List.range 17).findSome? fun (n : Nat) =>
      (neighbour? units (lead - n)).map fun c => ofCoefficient c (lead - n) with
  | some s =>
    obtain ⟨n, hn, hsome⟩ := List.exists_of_findSome?_eq_some hfound
    obtain ⟨c, hc, rfl⟩ := Option.map_eq_some_iff.1 hsome
    exact ⟨n, c, List.mem_range.1 hn, hc, rfl⟩
  | none =>
    rw [List.findSome?_eq_none_iff] at hfound
    have h16 := hfound 16 (List.mem_range.2 (by decide))
    exact absurd (Option.map_eq_none_iff.1 h16) h17

/-- The coefficient has seventeen digits at most and reads back. -/
theorem exists_shortest_eq {units : Nat} (hu : 0 < units) (hs : 2 ^ spacingExponent units ∣ units) :
    ∃ c e, shortest units = ofCoefficient c e ∧ Decimal.nearestUnits c e = units ∧ c ≤ 10 ^ 17 := by
  obtain ⟨n, c, hn, hc, hshortest⟩ := exists_neighbour?_eq hu hs
  exact ⟨c, _, hshortest, (neighbour?_spec hc).1,
    (bounds_of_neighbour? hu hc).2.trans (Nat.pow_le_pow_right (by decide) (Nat.succ_le_of_lt hn))⟩

/-! ## Trailing zeros -/

/-- Only trailing zeros are left out. -/
theorem ofCoefficient_spec (c : Nat) (e : Int) : ∃ zeros,
    Nat.toDigits 10 c = (ofCoefficient c e).digits ++ List.replicate zeros '0' ∧
      (ofCoefficient c e).exponent = e + (ofCoefficient c e).digits.length + zeros - 1 := by
  unfold ofCoefficient
  dsimp only
  generalize Nat.toDigits 10 c = digits
  have hzeros : digits.reverse.takeWhile (· == '0') =
      List.replicate (digits.reverse.takeWhile (· == '0')).length '0' :=
    List.eq_replicate_of_mem fun d hd => by simpa using List.mem_takeWhile_imp hd
  have hsplit : digits = (digits.reverse.dropWhile (· == '0')).reverse ++
      List.replicate (digits.reverse.takeWhile (· == '0')).length '0' := by
    conv_lhs => rw [← List.reverse_reverse digits,
      ← List.takeWhile_append_dropWhile (p := (· == '0')) (l := digits.reverse)]
    rw [List.reverse_append, hzeros, List.reverse_replicate, List.length_replicate]
  refine ⟨_, hsplit, ?_⟩
  have hlen := congrArg List.length hsplit
  rw [List.length_append, List.length_replicate] at hlen
  omega

theorem length_digits_ofCoefficient_le {c : Nat} (hc : c ≤ 10 ^ 17) (e : Int) :
    (ofCoefficient c e).digits.length ≤ 17 := by
  rcases Nat.lt_or_eq_of_le hc with h | rfl
  · obtain ⟨zeros, hdigits, -⟩ := ofCoefficient_spec c e
    have hlen := (Nat.length_toDigits_le_iff (by decide) (by decide : 0 < 17)).2 h
    rw [hdigits, List.length_append] at hlen
    omega
  · have h : (ofCoefficient (10 ^ 17) e).digits = ['1'] := by
      show (((Nat.toDigits 10 (10 ^ 17)).reverse.dropWhile (· == '0')).reverse) = ['1']
      decide +kernel
    rw [h]; decide

end Stylesheet.Significand
