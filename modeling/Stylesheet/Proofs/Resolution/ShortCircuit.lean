/-
Formulas that wait. The names of a formula are read to find those that wait, to put values in their places, and
to tell an alias from a larger formula; all three follow the one cut of the formula into gaps and names. In
the states that a stage meets, what is resolved is never not-a-number. So a formula waits if and only if
substitution stops at one of its names (`Formula.read_along_cut`).
-/
import Stylesheet.Proofs.Formula.Segments
import Stylesheet.Proofs.Resolution.Passes

namespace Stylesheet

open Formula (names substitute Bindings Segments)
open Relation (ReflTransGen)

/-! ## States in the middle of a pass -/

namespace Progress

/-- The states that a stage meets when it comes to a constant: some passes are over, and in the next one some
constants have been gone through. -/
def Meets (table : Table) (limits : Formula.Limits) (s : States) : Prop :=
  ∃ p stage rest part changed, ReflTransGen (Pass table.constants.values) (start limits (States.initial table)) p ∧
    p.stages = stage :: rest ∧ part <+: table.constants.values ∧ stage.pass part p.states = .ok (s, changed)

theorem Meets.proper {table : Table} {limits : Formula.Limits} {s : States} (h : Meets table limits s) :
    s.Proper table.constants.values := by
  obtain ⟨p, stage, rest, part, changed, hpasses, hstages, hpart, hpass⟩ := h
  have hinv := (inv_start table limits 0).passes hpasses
  have hstage : stage.Orderly := hinv.orderly stage (by rw [hstages]; exact List.mem_cons_self ..)
  obtain ⟨hrun, -⟩ := Stage.runs_of_pass (fun _ hc => hpart.subset hc) hpass
  exact (hstage.runs table.distinct hinv.proper hrun).1

end Progress

/-! ## Names that are not known -/

namespace States

variable {s : States} {cs : List Constant}

/-- What is bound to not-a-number is not resolved. -/
theorem Proper.knownNumbers_eq_nan_iff (h : s.Proper cs) (name : String) :
    s.knownNumbers name = some .nan ↔ ∃ r, s.find? name = some r ∧ r.isResolved = false := by
  unfold knownNumbers
  cases hf : s.find? name with
  | none => simp
  | some r =>
    cases r with
    | pending rawValue => simp [Resolution.isResolved]
    | failed rawValue formula => simp [Resolution.isResolved]
    | resolved value =>
      have hnumber : value.number ≠ some .nan := by
        intro hnan
        cases h.numbers hf hnan
      simp [Resolution.isResolved, hnumber]

theorem Proper.waitingFor_ne_nil_iff (h : s.Proper cs) (f : String) :
    s.waitingFor f ≠ [] ↔ ∃ name ∈ names f, s.knownNumbers name = some .nan := by
  rw [ne_eq, waitingFor, List.filter_eq_nil_iff]
  push Not
  refine exists_congr fun name => and_congr_right fun _ => ?_
  rw [h.knownNumbers_eq_nan_iff]
  cases s.find? name <;> simp

end States

/-! ## The theorem -/

namespace Formula

/-- A formula is cut in one way into gaps, which no name starts in, and names, which go on for as long as they
can. The names of the formula are those of the cut; a formula is an alias if there is one name and nothing else.
Substitution stops if one of the names is bound to not-a-number, and else writes the values of the names in
their places and leaves the gaps as they are. So in the states that a stage meets a formula waits if and only if
there is a name among them that substitution stops at. -/
theorem read_along_cut (formula : String) :
    (∃! d : Segments, d.Cuts formula.toList) ∧
    ∀ d : Segments, d.Cuts formula.toList →
      names formula = d.names ∧
      (∀ name, aliasTarget? ('@' :: formula.toList) = some name ↔ d = ⟨[], [(name.toList, [])]⟩) ∧
      (∀ b : Bindings,
        (substitute b formula = none ↔ ∃ name ∈ d.names, b name = some .nan) ∧
        ((∀ name ∈ d.names, b name ≠ some .nan) → substitute b formula = some (String.ofList (d.written b.text)))) ∧
      ∀ (table : Table) (limits : Limits) (s : States), Progress.Meets table limits s →
        (s.waitingFor formula ≠ [] ↔ ∃ name ∈ d.names, s.knownNumbers name = some .nan) := by
  refine ⟨Segments.existsUnique_cuts _, fun d hd =>
    ⟨hd.names_eq, fun name => ?_, fun b => ?_, fun table limits s hs => ?_⟩⟩
  · rw [aliasTarget?_eq_some_iff, List.cons.injEq, hd.eq_name_iff]
    simp
  · exact ⟨hd.substitute_eq_none_iff, hd.substitute_eq_some⟩
  · rw [hs.proper.waitingFor_ne_nil_iff, hd.names_eq]

/-- A digit may stand in front of a name, but not behind it; and a formula waits for the one name of it whose
constant is not resolved. -/
theorem read_along_cut_digits :
    let formula := "2x-wide_1.gap+é"
    let d : Segments := ⟨['2'],
        [(['x'], ['-']), (['w', 'i', 'd', 'e', '_', '1'], ['.']), (['g', 'a', 'p'], ['+', 'é'])]⟩
    let table := Table.ofDeclarations {} [("x", "@y", none), ("gap", "4px", none)]
    d.Cuts formula.toList ∧ names formula = ["x", "wide_1", "gap"] ∧
      substitute (fun name => if name = "gap" then some (.ofInt 4) else none) formula = some "2x-wide_1.4.0+é" ∧
      substitute (States.initial table).knownNumbers formula = none ∧
      (States.initial table).waitingFor formula ≠ [] ∧ aliasTarget? ('@' :: formula.toList) ≠ some "x" := by
  intro formula d table
  have hd : d.Cuts formula.toList := by
    have hpieces : Segments.ofPieces (pieces formula.toList) = d := by decide +kernel
    exact hpieces ▸ Segments.cuts_ofPieces _
  have hmeets : Progress.Meets table {} (States.initial table) :=
    ⟨_, _, _, [], false, .refl, rfl, List.nil_prefix, rfl⟩
  have hnan : ∃ name ∈ d.names, (States.initial table).knownNumbers name = some .nan :=
    ⟨"x", by decide, by decide +kernel⟩
  obtain ⟨hnames, halias, hsubstitute, hwaits⟩ := (read_along_cut formula).2 d hd
  refine ⟨hd, hnames.trans (by decide), ?_, (hsubstitute _).1.2 hnan, (hwaits table {} _ hmeets).2 hnan, ?_⟩
  · rw [(hsubstitute _).2 (by decide +kernel)]
    decide +kernel
  · rw [ne_eq, halias]
    decide

end Formula

end Stylesheet
