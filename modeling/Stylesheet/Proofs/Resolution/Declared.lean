/-
References to constants that are not there. A single reference leaves its first state only by a step that finds all its
names resolved, and one that never does is refused by the formulas unless the table holds all its names. A list is
resolved only if each reference in it names a text as a whole or is evaluated, and a formula with a name that is no
number has letters left over. So a table that resolves has no dangling reference (`Resolved.ofTable_declared`).
-/
import Stylesheet.Proofs.Formula.Scanning
import Stylesheet.Proofs.Resolution.Acyclic

namespace Stylesheet

open Formula (names)
open States (Extends)

variable {limits : Formula.Limits} {cs : List Constant} {s t : States} {c : Constant} {old new : Resolution}

/-! ## Steps and runs -/

/-- What a step needs of the state that it is taken in holds at the end of a run for every constant that the run
changes. -/
theorem Stage.needed_of_runs {stage : Stage} (Needs : States → Constant → Prop)
    (hstep : ∀ s c old new, stage.step s c old = .ok (some new) → Needs s c)
    (hkept : ∀ s t c, Extends s t → Needs s c → Needs t c) (hd : Distinct cs) (hrun : stage.Runs cs s t) (hc : c ∈ cs) :
    t.find? c.name = s.find? c.name ∨ Needs t c := by
  induction hrun with
  | refl => exact .inl rfl
  | tail _ hmove ih =>
    have hext := extends_of_moves hmove
    obtain ⟨hmem, -, hs⟩ := hmove
    rename_i d old new
    by_cases hname : c.name = d.name
    · obtain rfl := hd c hc d hmem hname
      exact .inr (hkept _ _ _ hext (hstep _ _ _ _ hs))
    · exact ih.imp (fun hsame => by rw [NameMap.find?_insert_of_ne _ hname, hsame]) (hkept _ _ _ hext)

/-! ## Single references -/

/-- All names in the references of the constant are resolved. -/
def States.ResolvesNames (s : States) (c : Constant) : Prop := ∀ name ∈ names c.formula, s.Resolves name

theorem States.Extends.resolvesNames (h : Extends s t) (hs : s.ResolvesNames c) : t.ResolvesNames c :=
  fun name hname => h.resolves (hs name hname)

theorem resolvesNames_of_aliasStep (h : aliasStep s c old = .ok (some new)) : s.ResolvesNames c := by
  obtain ⟨-, target, value, htarget, hfound, -⟩ := aliasStep_some h
  obtain ⟨-, -, hnames⟩ := formula_of_aliasTarget? htarget
  intro name hname
  rw [hnames, List.mem_singleton] at hname
  subst hname
  exact ⟨value, hfound⟩

theorem resolvesNames_of_formulaStep (h : formulaStep limits s c old = .ok (some new)) : s.ResolvesNames c := by
  obtain ⟨rawValue, x, -, -, -, hresolved, -⟩ := formulaStep_some h
  exact hresolved

/-- A single reference that waits where no formula moves or fails has known names only. -/
theorem contains_of_formulaStep {rawValue : String} (hcomp : c.isComposite = false) (href : c.isReference = true)
    (h : formulaStep limits s c (.pending rawValue) = .ok none) : ∀ name ∈ names c.formula, s.contains name = true := by
  rw [formulaStep_eq hcomp href] at h
  rw [← States.unknownName?_eq_none_iff]
  cases hunknown : unknownName? s c.formula with
  | none => rfl
  | some name =>
    rw [hunknown] at h
    cases h

/-! ## References in lists -/

/-- The reference names a text as a whole, or all names in it are finite numbers. -/
def States.Spells (s : States) (f : String) : Prop :=
  (∃ value, s.find? f = some (.resolved value) ∧ value.number = none) ∨
    ∀ name ∈ names f, ∃ value x, s.find? name = some (.resolved value) ∧ value.number = some x ∧ x.isFinite = true

theorem States.Extends.spells (h : Extends s t) {f : String} (hs : s.Spells f) : t.Spells f := by
  refine hs.imp (fun ⟨value, hvalue, htext⟩ => ⟨value, h.resolved hvalue, htext⟩) fun hnames name hname => ?_
  obtain ⟨value, x, hvalue, hx⟩ := hnames name hname
  exact ⟨value, x, h.resolved hvalue, hx⟩

/-- A reference that has a text names a text or only numbers. -/
theorem States.spells_of_literal {f text : String} (h : s.literal limits f = .ok text) : s.Spells f := by
  unfold States.literal at h
  split at h
  · rename_i text' unit hfound
    exact .inl ⟨_, hfound, rfl⟩
  · right
    intro name hname
    cases hy : Formula.evaluate limits s.numbers f with
    | error cause =>
      rw [hy] at h
      cases h
    | ok y =>
      rw [hy] at h
      dsimp only at h
      split at h
      · cases h
      · rename_i hnan
        obtain ⟨x, hx, hfinite⟩ := Formula.isFinite_of_evaluate hy (by simpa using hnan) hname
        obtain ⟨value, hvalue, hnumber⟩ := States.exists_of_numbers hx
        exact ⟨value, x, hvalue, hnumber, hfinite⟩

theorem spells_of_listStep (h : listStep limits s c old = .ok (some new)) :
    ∀ word ∈ c.references, s.Spells (String.ofList word.tail) := by
  obtain ⟨-, -, texts, htexts, -⟩ := listStep_some h
  intro word hword
  obtain ⟨hmem, href⟩ := List.mem_filter.1 hword
  obtain ⟨text, htext, -⟩ := exists_of_mem_mapM_ok htexts hmem
  unfold wordText at htext
  rw [if_pos href] at htext
  cases hliteral : s.literal limits (String.ofList word.tail) with
  | ok text => exact States.spells_of_literal hliteral
  | error cause =>
    rw [hliteral] at htext
    cases htext

/-! ## Tables -/

section Stages

variable {table : Table} {s₁ s₂ s₃ s₄ : States}
  (hruns : StageRuns limits table.constants.values (States.initial table) s₁ s₂ s₃ s₄)

include hruns in
/-- After the formulas, whether they settled it or not, every single reference has names of the table only. -/
theorem contains_of_stageRuns (hc : c ∈ table.constants.values) (hcomp : c.isComposite = false)
    (href : c.isReference = true) :
    ∀ name ∈ names c.formula, table.constants.contains name = true := by
  obtain ⟨-, hgrounded, -⟩ := grounded_of_stageRuns hruns
  suffices h : ∀ name ∈ names c.formula, s₂.contains name = true from
    fun name hname => (hgrounded.contains name).symm.trans (h name hname)
  have hresolved (h : s₂.ResolvesNames c) : ∀ name ∈ names c.formula, s₂.contains name = true :=
    fun name hname => (h name hname).contains
  have hkept (u v : States) (d : Constant) (h : Extends u v) (hu : u.ResolvesNames d) :
      v.ResolvesNames d := h.resolvesNames hu
  rcases Stage.needed_of_runs States.ResolvesNames (fun _ _ _ _ h => resolvesNames_of_formulaStep h)
    hkept table.distinct
    hruns.formulas hc with hsame₂ | hneeds
  · rcases Stage.needed_of_runs States.ResolvesNames (fun _ _ _ _ h => resolvesNames_of_aliasStep h)
      hkept table.distinct
      hruns.aliases hc with hsame₁ | hneeds
    -- it waits as it did at first, and the formulas did not refuse it
    · rw [hsame₁, States.find?_initial_of_mem hc, States.initialOf_of_isReference hcomp href] at hsame₂
      exact contains_of_formulaStep hcomp href (hruns.formulasEnd c hc _ hsame₂)
    · exact hresolved ((Stage.extends_of_runs hruns.formulas).resolvesNames hneeds)
  · exact hresolved hneeds

include hruns in
/-- A list that waited and is resolved has references to texts and numbers only. -/
theorem spells_of_stageRuns (hc : c ∈ table.constants.values) (hcomp : c.isComposite = true)
    (hpending : States.initialOf c = .pending c.rawValue) (hr : s₄.Resolves c.name) :
    ∀ word ∈ c.references, s₄.Spells (String.ofList word.tail) := by
  obtain ⟨hbefore, hafter⟩ := find?_of_isComposite hruns hc hcomp
  intro word hword
  refine (Stage.extends_of_runs hruns.listAliases).spells ?_
  rcases Stage.needed_of_runs (fun u d => ∀ word ∈ d.references, u.Spells (String.ofList word.tail))
    (fun _ _ _ _ h => spells_of_listStep h) (fun _ _ _ h hu word hword => h.spells (hu word hword)) table.distinct
    hruns.lists hc with hsame | hneeds
  · obtain ⟨value, hvalue⟩ := hr
    rw [hafter, hsame, hbefore, hpending] at hvalue
    cases hvalue
  · exact hneeds word hword

end Stages

namespace Resolved

/-- No reference dangles in a table that resolves. Every name in a single reference is one of a constant of the table,
whether the reference is resolved, failed or waits; and every reference in a list that waited and is resolved names a
resolved constant without number as a whole, or names resolved numbers only, all finite. So a table with a single
reference that names no constant of it does not resolve. -/
theorem ofTable_declared (table : Table) (settings : Settings) :
    (∀ r, ofTable table settings = .ok r →
      (∀ c ∈ table.constants.values, c.isComposite = false → c.isReference = true →
        ∀ name ∈ names c.formula, table.constants.contains name = true) ∧
      ∀ c ∈ table.constants.values, c.isComposite = true → States.initialOf c = .pending c.rawValue →
        r.states.Resolves c.name → ∀ word ∈ c.references,
          (∃ value, r.find? (String.ofList word.tail) = some (.resolved value) ∧ value.number = none) ∨
            ∀ name ∈ names (String.ofList word.tail), ∃ value x, r.find? name = some (.resolved value) ∧
              value.number = some x ∧ x.isFinite = true) ∧
    ((∃ c ∈ table.constants.values, c.isComposite = false ∧ c.isReference = true ∧
      ∃ name ∈ names c.formula, table.constants.contains name = false) → ∃ e, ofTable table settings = .error e) := by
  have hsingle (r : Resolved) (h : ofTable table settings = .ok r) (c : Constant) (hc : c ∈ table.constants.values)
      (hcomp : c.isComposite = false) (href : c.isReference = true) :
      ∀ name ∈ names c.formula, table.constants.contains name = true := by
    obtain ⟨s₁, s₂, s₃, hruns⟩ := stageRuns_of_ofTable h
    exact contains_of_stageRuns hruns hc hcomp href
  refine ⟨fun r h => ⟨hsingle r h, fun c hc hcomp hpending hr => ?_⟩, ?_⟩
  · obtain ⟨s₁, s₂, s₃, hruns⟩ := stageRuns_of_ofTable h
    exact spells_of_stageRuns hruns hc hcomp hpending hr
  · rintro ⟨c, hc, hcomp, href, name, hname, hunknown⟩
    rw [exists_error_iff]
    rintro ⟨r, h⟩
    rw [hsingle r h c hc hcomp href name hname] at hunknown
    cases hunknown

/-- A list with a text that no formula could name and a formula over a number; and a name that is spelled wrong. -/
theorem ofTable_declared_frame :
    let table := Table.ofDeclarations {} [("frame", "@my-color @gap*2 1px", some "Border"), ("wide", "@gap+1", none),
      ("gap", "4px", none), ("my-color", "red", none)]
    (∃ r, ofTable table {} = .ok r ∧ r.value? "frame" = some "red 8px 1px" ∧ table.constants.contains "gap" = true ∧
      ∃ value x, r.find? "gap" = some (.resolved value) ∧ value.number = some x ∧ x.isFinite = true) ∧
    ∃ e, ofTable (.ofDeclarations {} [("wide", "@gapp+1", none), ("gap", "4px", none)]) {} = .error e := by
  intro table
  obtain ⟨r, hr, hfacts⟩ : ∃ r, ofTable table {} = .ok r ∧
      (r.value? "frame", r.find? "frame", r.find? "gap*2") =
      (some "red 8px 1px", some (.resolved ⟨"red 8px 1px", none, none⟩), none) :=
    exists_ok_of_toOption (by decide +kernel)
  obtain ⟨hvalue, hframe, hwhole⟩ : _ ∧ _ ∧ _ := by simpa only [Prod.mk.injEq] using hfacts
  obtain ⟨hsingle, hlist⟩ := (ofTable_declared table {}).1 r hr
  refine ⟨⟨r, hr, hvalue, ?_, ?_⟩, ?_⟩
  · exact hsingle (.define {} "wide" "@gap+1" none (.scalar .null)) ((table.find?_constants_iff "wide" _).1 rfl).1
      (by decide +kernel) (by decide +kernel) "gap" (by decide +kernel)
  · have hword := hlist (.define {} "frame" "@my-color @gap*2 1px" (some "Border") (.scalar .null))
      ((table.find?_constants_iff "frame" _).1 rfl).1 (by decide +kernel) (by decide +kernel)
      ⟨_, hframe⟩ "@gap*2".toList
      (by decide +kernel)
    rcases hword with ⟨value, hfound, -⟩ | hnames
    · cases hwhole.symm.trans hfound
    · exact hnames "gap" (by decide +kernel)
  · refine (ofTable_declared _ {}).2
      ⟨.define {} "wide" "@gapp+1" none (.scalar .null), ?_, by decide +kernel, by decide +kernel,
      "gapp", by decide +kernel, by decide +kernel⟩
    exact ((Table.find?_constants_iff _ "wide" _).1 rfl).1

end Resolved

end Stylesheet
