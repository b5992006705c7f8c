/-
Written numbers, read again. The numeral ends where the unit starts, so the double nearest to the written multiple of
`10⁻⁶` is read, with the unit, and that double is rounded to the same multiple (`Double.roundPlaces_nearestUnits`). So a
text stays, however often it is read and written, and so does its number after the first time; and a constant that is
declared by the text has this number and unit (`Quantity.write_reread`).
-/
import Mathlib.Tactic
import Stylesheet.Proofs.Constant.Composite
import Stylesheet.Proofs.Decimal.Fixed

namespace Stylesheet

open Double (unitsPerOne Representable roundPlaces)
open Text (Numeral)

/-! ## Constants that are resolved at once -/

/-- A constant that is a number at first keeps its value. -/
theorem Resolved.find?_of_quantity? {table : Table} {settings : Settings} {r : Resolved}
    (h : ofTable table settings = .ok r)
    {c : Constant} (hc : c ∈ table.constants.values) {q : Quantity} (hq : c.quantity? = some q) :
    r.find? c.name = some (.resolved ⟨c.rawValue, some q.number, q.unit⟩) := by
  obtain ⟨s₁, s₂, s₃, hruns⟩ := stageRuns_of_ofTable h
  have hextends : States.Extends (States.initial table) r.states :=
    (((Stage.extends_of_runs hruns.aliases).trans (Stage.extends_of_runs hruns.formulas)).trans
      (Stage.extends_of_runs hruns.lists)).trans (Stage.extends_of_runs hruns.listAliases)
  refine hextends.resolved ?_
  rw [States.find?_initial_of_mem hc, States.initialOf, hq]

/-! ## Numerals that are read -/

namespace Quantity

/-- Behind a numeral the unit starts: it is not empty, and its first character is no part of the numeral. -/
def Separate (unit : Option String) : Prop :=
  ∀ u ∈ unit, u ≠ "" ∧ ∀ c ∈ u.toList.head?, Text.isDigit c = false ∧ c ≠ '.'

theorem read?_append {n : Numeral} (h : n.Spelled) {unit : Option String} (hunit : Separate unit) :
    read? (String.ofList n.text ++ unit.getD "") = some ⟨Double.ofDigits n.whole n.places, unit⟩ := by
  have hdigits : ∀ d ∈ n.whole ++ n.places, Text.isDigit d = true :=
    fun d hd => (Text.isDigit_of_ascii (h.digits d hd)).1
  have hrest : ∀ c ∈ (unit.getD "").toList.head?, Text.isDigit c = false ∧ c ≠ '.' := by
    cases unit with
    | none => simp
    | some u => exact (hunit u rfl).2
  unfold read?
  rw [String.toList_append, String.toList_ofList, Numeral.split?_text_append (by decide) hdigits h.whole_ne_nil hrest]
  dsimp only [Option.map_some]
  rw [Text.toDouble_of_ascii h.digits]
  cases unit with
  | none => rfl
  | some u =>
    have hne : u.toList ≠ [] := by simpa using (hunit u rfl).1
    simp [hne]

end Quantity

/-- A numeral is read as the double nearest to its number. -/
theorem Text.Numeral.ofDigits_of_value {n : Numeral} {m places : Nat} (h : n.value = m / 10 ^ places) :
    Double.ofDigits n.whole n.places = Double.ofUnits false (m * unitsPerOne) (10 ^ places) := by
  unfold Double.ofDigits Double.ofRatio
  generalize unitsPerOne = one
  refine Double.ofUnits_congr false
    (Double.nearestUnits_eq_of_div_eq (Nat.pow_pos (by decide)) (Nat.pow_pos (by decide)) ?_)
  unfold value at h
  rw [Nat.cast_mul, Nat.cast_mul, Nat.pow_eq, Nat.cast_pow, Nat.cast_pow, Nat.cast_ofNat, mul_div_right_comm, h,
    ← mul_div_right_comm]

/-- The multiple that a double is rounded to is read as a double that is rounded to it. -/
theorem Double.exists_ofDigits_placed {places units : Nat} (hplaces : 0 < places) (hr : Representable units) :
    ∃ near hn, Double.ofDigits (placed places (roundPlaces places units)).whole
        (placed places (roundPlaces places units)).places = .finite false near hn ∧
      roundPlaces places near = roundPlaces places units := by
  have hfinite := nearestUnits_roundPlaces_lt places hr
  have hsame := roundPlaces_nearestUnits places hr.1
  have hread := Text.Numeral.ofDigits_of_value (value_placed hplaces (roundPlaces places units))
  generalize roundPlaces places units = m at hfinite hsame hread ⊢
  refine ⟨nearestUnits (m * unitsPerOne) (10 ^ places), representable_nearestUnits hfinite, ?_, hsame⟩
  rw [hread]
  exact ofUnits_of_nearestUnits false rfl _

namespace Quantity

variable {x : Double} {q : ℚ} {unit : Option String}

/-- The number is written and read as often. -/
def rereadTimes : Nat → Quantity → Option Quantity
  | 0, q => some q
  | k + 1, q => (read? (write q)).bind (rereadTimes k)

theorem rereadTimes_of_fixed {q : Quantity} (h : read? (write q) = some q) (k : Nat) : rereadTimes k q = some q := by
  induction k with
  | zero => rfl
  | succ k ih => rw [rereadTimes, h, Option.bind_some, ih]

/-- The text of a finite double without sign, with a unit that starts with neither a digit nor a point, is read as a
double with this unit that is a millionth off at most and has the same text. Reading and writing it again changes
nothing. A constant that is declared by the text has this number, unit and text in every result; of a list type only if
there is no space in the text. -/
theorem write_reread (hx : x.rational? = some q) (hsign : x.isNegative = false) (hunit : Separate unit) : ∃ y r,
    y.rational? = some r ∧ y.isNegative = false ∧ read? (write ⟨x, unit⟩) = some ⟨y, unit⟩ ∧
    write ⟨y, unit⟩ = write ⟨x, unit⟩ ∧ |r - q| ≤ 1 / 10 ^ 6 ∧ (∀ k, rereadTimes (k + 1) ⟨x, unit⟩ = some ⟨y, unit⟩) ∧
    ∀ table settings (result : Resolved), Resolved.ofTable table settings = .ok result →
      ∀ c ∈ table.constants.values, c.rawValue = write ⟨x, unit⟩ → (c.isList = true → ' ' ∉ c.rawValue.toList) →
        result.find? c.name = some (.resolved ⟨write ⟨x, unit⟩, some y, unit⟩) := by
  obtain ⟨negative, units, hr, rfl, hnearest⟩ := Double.exists_units hx
  obtain rfl : negative = false := hsign
  obtain ⟨near, hn, hnear, hsame⟩ := Double.exists_ofDigits_placed (by decide : 0 < 6) hr
  have hwrite : write ⟨.finite false near hn, unit⟩ = write ⟨.finite false units hr, unit⟩ := by
    rw [write_finite, write_finite, hsame]
  have hread : read? (write ⟨.finite false units hr, unit⟩) = some ⟨.finite false near hn, unit⟩ := by
    rw [write_finite, ← hnear, if_neg Bool.false_ne_true, List.nil_append]
    exact read?_append (Double.spelled_placed 6 _) hunit
  have hfixed : read? (write ⟨.finite false near hn, unit⟩) = some ⟨.finite false near hn, unit⟩ := by
    rw [hwrite, hread]
  refine ⟨.finite false near hn, _, rfl, rfl, hread, hwrite, ?_, fun k => ?_,
    fun table settings result hresult c hc hraw hspace => ?_⟩
  · have hnear' := Double.nearestEven_roundPlaces false 6 near
    rw [hsame] at hnear'
    exact hnear'.apart_le (hnearest 6)
  · rw [rereadTimes, hread, Option.bind_some]
    exact rereadTimes_of_fixed hfixed k
  · have hquantity := Constant.quantity?_eq_some_iff.2 ⟨by rw [hraw]; exact hread, hspace⟩
    rw [Resolved.find?_of_quantity? hresult hc hquantity, hraw]

/-- A gap of twelve and a half, and `2⁻²²` more, is written without the rest, and is read and declared without it. -/
theorem write_reread_gap :
    let x := Double.ofRatio false 52428801 4194304
    x.rational? = some (52428801 / 4194304) ∧ x.isNegative = false ∧ Separate (some "px") ∧
      write ⟨x, some "px"⟩ = "12.5px" ∧
    ∃ y r result, y.rational? = some r ∧ read? "12.5px" = some ⟨y, some "px"⟩ ∧ write ⟨y, some "px"⟩ = "12.5px" ∧
      |r - 52428801 / 4194304| ≤ 1 / 10 ^ 6 ∧ (∀ k, rereadTimes (k + 1) ⟨x, some "px"⟩ = some ⟨y, some "px"⟩) ∧
      Resolved.ofTable (Table.ofDeclarations {} [("gap", "12.5px", none)]) {} = .ok result ∧
      result.find? "gap" = some (.resolved ⟨"12.5px", some y, some "px"⟩) := by
  intro x
  have hx : x.rational? = some (52428801 / 4194304) := by decide +kernel
  have hsign : x.isNegative = false := by decide +kernel
  have hunit : Separate (some "px") := by
    intro u hu
    rw [← Option.some.inj hu]
    refine ⟨by decide, fun c hc => ?_⟩
    rw [show "px".toList.head? = some 'p' by decide] at hc
    rw [← Option.some.inj hc]
    exact ⟨by decide, by decide⟩
  have htext : write ⟨x, some "px"⟩ = "12.5px" := by decide +kernel
  obtain ⟨y, r, hy, -, hread, hwrite, hclose, htimes, hdeclared⟩ := write_reread hx hsign hunit
  rw [htext] at hread hwrite hdeclared
  let gap := Constant.define {} "gap" "12.5px" none (.scalar .null)
  let table := Table.ofDeclarations {} [("gap", "12.5px", none)]
  have hmem : gap ∈ table.constants.values := ((table.find?_constants_iff "gap" gap).1 rfl).1
  obtain ⟨result, hresult, -⟩ : ∃ r, Resolved.ofTable table {} = .ok r ∧ r.value? "gap" = some "12.5px" :=
    exists_ok_of_toOption (by decide +kernel)
  exact ⟨hx, hsign, hunit, htext, y, r, result, hy, hread, hwrite, hclose, htimes, hresult,
    hdeclared table {} result hresult gap hmem rfl (by decide)⟩

end Quantity

end Stylesheet
