/-
What goes on waiting, where no list waits at first. Then the stages after the formulas change nothing, and
a constant that waits after the formulas has a name in its formula that is not resolved either. Following
such names one comes to a constant that failed, or never comes to an end; the table being finite, that is a
cycle. And what failed has the reason for it in the result: a formula that is not a number.
-/
import Stylesheet.Proofs.Resolution.Equations
import Stylesheet.Proofs.Resolution.Passes

namespace Stylesheet

open Formula (names evaluate)
open Relation (ReflTransGen TransGen)
open States (Extends)

/-! ## Failures -/

namespace States

theorem Waits.not_resolves {s : States} {name : String} (h : s.Waits name) : ¬ s.Resolves name := by
  rintro ⟨value, hv⟩
  obtain ⟨rawValue, hf⟩ := h
  rw [hf] at hv; cases hv

/-- The constant failed. -/
def Failed (s : States) (name : String) : Prop := ∃ rawValue formula, s.find? name = some (.failed rawValue formula)

/-- The constant failed for its own formula: that is not a number, although all its names are resolved. -/
structure FailedFor (s : States) (limits : Formula.Limits) (c : Constant) (rawValue formula : String) : Prop where
  rawValue_eq : rawValue = c.rawValue
  formula_eq : formula = c.formula
  single : c.isComposite = false
  reference : c.isReference = true
  solves : s.Solves limits c.formula (.failed rawValue formula)

/-- What waits shows its own value, and what failed has an undefined formula. -/
structure Accounted (limits : Formula.Limits) (cs : List Constant) (s : States) : Prop where
  waits : ∀ {c rawValue}, c ∈ cs → s.find? c.name = some (.pending rawValue) → rawValue = c.rawValue
  fails : ∀ {c rawValue formula}, c ∈ cs → s.find? c.name = some (.failed rawValue formula) →
    s.FailedFor limits c rawValue formula

end States

variable {limits : Formula.Limits} {cs : List Constant} {s t : States} {c : Constant}

theorem States.Extends.failedFor (hext : Extends s t) {rawValue formula : String}
    (h : s.FailedFor limits c rawValue formula) : t.FailedFor limits c rawValue formula :=
  { h with solves := hext.solves h.solves }

theorem accounted_initial (table : Table) (limits : Formula.Limits) :
    (States.initial table).Accounted limits table.constants.values := by
  constructor
  case waits =>
    intro c rawValue hc hf
    rw [States.find?_initial_of_mem hc, Option.some.injEq] at hf
    rcases States.initialOf_cases c with ⟨q, -, hv⟩ | hv | hv <;> rw [hv] at hf <;> cases hf
    rfl
  -- nothing has failed yet
  case fails =>
    intro c rawValue formula hc hf
    rw [States.find?_initial_of_mem hc, Option.some.injEq] at hf
    rcases States.initialOf_cases c with ⟨q, -, hv⟩ | hv | hv <;> rw [hv] at hf <;> cases hf

/-- A move keeps account of all constants if it does of the one that it moves. -/
theorem States.Accounted.insert (h : s.Accounted limits cs) (hd : Distinct cs) (hc : c ∈ cs) {new : Resolution}
    (hext : Extends s (s.insert c.name new)) (hnew : new.isPending = false)
    (hfailed : ∀ rawValue formula, new = .failed rawValue formula → s.FailedFor limits c rawValue formula) :
    States.Accounted limits cs (s.insert c.name new) := by
  constructor
  case waits =>
    intro d rawValue hdm hf
    rw [NameMap.find?_insert] at hf
    split at hf
    · cases hf; cases hnew
    · exact h.waits hdm hf
  case fails =>
    intro d rawValue formula hdm hf
    rw [NameMap.find?_insert] at hf
    split at hf
    · rename_i hn
      cases hd d hdm c hc hn
      cases hf
      exact hext.failedFor (hfailed rawValue formula rfl)
    · exact hext.failedFor (h.fails hdm hf)

theorem States.Accounted.aliases (h : s.Accounted limits cs) (hd : Distinct cs) (hrun : Stage.aliases.Runs cs s t) :
    t.Accounted limits cs := by
  induction hrun with
  | refl => exact h
  | tail _ hm ih =>
    have hext := Stage.extends_of_moves hm
    obtain ⟨hc, -, hs⟩ := hm
    obtain ⟨-, target, value, -, -, rfl⟩ := aliasStep_some hs
    refine ih.insert hd hc hext rfl ?_
    rintro rawValue formula ⟨⟩

theorem States.Accounted.formulas (h : s.Accounted limits cs) (hd : Distinct cs)
    (hrun : (Stage.formulas limits).Runs cs s t) : t.Accounted limits cs := by
  induction hrun with
  | refl => exact h
  | tail _ hm ih =>
    have hext := Stage.extends_of_moves hm
    obtain ⟨hc, hf, hs⟩ := hm
    obtain ⟨rawValue, x, rfl, hcomp, href, hnames, hx, rfl⟩ := formulaStep_some hs
    refine ih.insert hd hc hext ?_ fun rawValue' formula hnew => ?_
    · unfold formulaOutcome
      split <;> rfl
    · unfold formulaOutcome at hnew
      split at hnew
      · rename_i hnan
        cases hnew
        rw [Double.eq_nan_of_isNaN hnan] at hx
        exact ⟨ih.waits hc hf, rfl, hcomp, href, ⟨hnames, hx⟩⟩
      · cases hnew

/-! ## Nothing after the formulas -/

/-- From a state where nothing moves there is no run but the empty one. -/
theorem Stage.Stable.eq_of_runs {stage : Stage} (h : stage.Stable cs s) (hrun : stage.Runs cs s t) : t = s := by
  rcases ReflTransGen.cases_head hrun with rfl | ⟨u, ⟨hc, hf, hs⟩, -⟩
  · rfl
  · rw [h _ hc _ hf] at hs
    cases hs

section Stages

variable {table : Table} {s₁ s₂ s₃ s₄ : States} {name : String}
  (hruns : StageRuns limits table.constants.values (States.initial table) s₁ s₂ s₃ s₄)

include hruns in
/-- A single reference that waits after the formulas has a name that is not resolved. -/
theorem not_ready_of_waits (hc : c ∈ table.constants.values) (hcomp : c.isComposite = false)
    (hw : s₂.Waits c.name) : c.isReference = true ∧ ¬ s₂.Ready c.formula := by
  have href := States.isReference_of_initialOf (initialOf_of_not_resolves hruns hc hw.not_resolves) hcomp
  obtain ⟨rawValue, hf⟩ := hw
  exact ⟨href, not_ready_of_formulaStep_none hcomp href (hruns.formulasEnd c hc _ hf)⟩

include hruns in
/-- Once the formulas are done, no alias moves before a list does. -/
theorem aliases_stable_of_formulas : Stage.aliases.Stable table.constants.values s₂ := by
  have hproper := ((proper_initial table).aliases table.distinct hruns.aliases).formulas table.distinct hruns.formulas
  intro c hc old hf
  cases hs : Stage.aliases.step s₂ c old with
  | error e => exact absurd hs (aliasStep_ne_error e)
  | ok o =>
    cases o with
    | none => rfl
    | some new =>
      obtain ⟨hcomp, target, value, ht, htarget, rfl⟩ := aliasStep_some hs
      obtain ⟨rawValue, rfl⟩ := Stage.eq_pending_of_proper hproper hc hf (Stage.isResolved_eq_false_of_step hs)
        (.inr (by simp [ht]))
      obtain ⟨-, -, hnames⟩ := formula_of_aliasTarget? ht
      refine absurd (fun n hn _ => ?_) (not_ready_of_waits hruns hc hcomp ⟨rawValue, hf⟩).2
      rw [hnames, List.mem_singleton] at hn
      exact hn ▸ ⟨value, htarget⟩

section

variable (hlists : ∀ name, ¬ table.WaitingList name)

include hruns hlists

theorem lists_stable_of_formulas : (Stage.lists limits).Stable table.constants.values s₂ := by
  intro c hc old hf
  cases hcomp : c.isComposite with
  | false => exact listStep_of_not_isComposite hcomp
  | true =>
    by_contra hstep
    obtain ⟨hold, -, -⟩ := readyFor_of_listStep hstep
    refine hlists c.name ⟨c, table.find?_of_mem hc, hcomp, ?_⟩
    refine initialOf_of_not_resolves hruns hc fun hr => ?_
    rw [(States.isResolved_iff hf).2 hr] at hold
    cases hold

/-- Where no list waits at first, the formulas have the last word. -/
theorem end_eq_of_formulas : s₄ = s₂ := by
  have h₃ := (lists_stable_of_formulas hruns hlists).eq_of_runs hruns.lists
  have h₄ := hruns.listAliases
  rw [h₃] at h₄
  exact (aliases_stable_of_formulas hruns).eq_of_runs h₄

/-- What waits depends on a constant that is not resolved either. -/
theorem exists_dependsOn_of_waits (hw : s₂.Waits name) :
    ∃ d, table.DependsOn name d ∧ (s₂.Waits d ∨ s₂.Failed d) := by
  have hcontains := (grounded_of_stageRuns hruns).2.1.contains
  have hk : table.constants.contains name = true := by
    obtain ⟨rawValue, hf⟩ := hw
    rw [← hcontains, NameMap.contains_iff]
    exact ⟨_, hf⟩
  obtain ⟨c, hfind⟩ := (NameMap.contains_iff _ _).1 hk
  obtain ⟨hc, rfl⟩ := (table.find?_constants_iff name c).1 hfind
  have hpend := initialOf_of_not_resolves hruns hc hw.not_resolves
  have hcomp : c.isComposite = false := by
    by_contra hcomp
    exact hlists c.name ⟨c, hfind, by simpa using hcomp, hpend⟩
  obtain ⟨href, hready⟩ := not_ready_of_waits hruns hc hcomp hw
  unfold States.Ready at hready
  push Not at hready
  obtain ⟨d, hd, hdk, hr⟩ := hready
  have hmention : d ∈ c.mentions := by rw [Constant.mentions_of_isReference hcomp href]; exact hd
  refine ⟨d, ⟨c, hfind, hpend, hmention, by rw [← hcontains]; exact hdk⟩, ?_⟩
  obtain ⟨r, hfound⟩ := (NameMap.contains_iff s₂ d).1 hdk
  cases r with
  | pending rawValue => exact .inl ⟨rawValue, hfound⟩
  | resolved value => exact absurd ⟨value, hfound⟩ hr
  | failed rawValue formula => exact .inr ⟨rawValue, formula, hfound⟩

/-- References lead from what waits to a constant that failed, or to a cycle. -/
theorem exists_blocked_of_waits (hw : s₂.Waits name) :
    ∃ other, ReflTransGen table.DependsOn name other ∧ (s₂.Failed other ∨ TransGen table.DependsOn other other) := by
  by_cases hcycle : ∃ other, ReflTransGen table.DependsOn name other ∧ TransGen table.DependsOn other other
  · obtain ⟨other, hreach, hc⟩ := hcycle
    exact ⟨other, hreach, .inr hc⟩
  · have hacc : Acc (fun d n => table.DependsOn n d) name :=
      Table.acc_of_no_cycle fun other hreach hc => hcycle ⟨other, hreach, hc⟩
    clear hcycle
    induction hacc with
    | intro n _ ih =>
      obtain ⟨d, hd, hwait | hfailed⟩ := exists_dependsOn_of_waits hruns hlists hw
      · obtain ⟨other, hreach, hblocked⟩ := ih d hd hwait
        exact ⟨other, .head hd hreach, hblocked⟩
      · exact ⟨d, .single hd, .inl hfailed⟩

end

end Stages

/-! ## The theorem -/

namespace Resolved

/-- Where no list waits at first, references lead from every constant that goes on waiting to one that failed
or to a cycle. Every other constant is resolved, or failed because its formula is not a number although all
its names are resolved. -/
theorem ofTable_waits {table : Table} {settings : Settings} {r : Resolved} (hlists : ∀ name, ¬ table.WaitingList name)
    (h : ofTable table settings = .ok r) :
    (∀ name, r.states.Waits name → ∃ other, ReflTransGen table.DependsOn name other ∧
      (r.states.Failed other ∨ TransGen table.DependsOn other other)) ∧
    ∀ c ∈ table.constants.values, ¬ r.states.Waits c.name → r.states.Resolves c.name ∨
      r.find? c.name = some (.failed c.rawValue c.formula) ∧ c.isComposite = false ∧ c.isReference = true ∧
        (∀ name ∈ names c.formula, r.states.Resolves name) ∧
        evaluate settings.limits (fun name => r.numbers.lookup name) c.formula = .ok .nan := by
  obtain ⟨s₁, s₂, s₃, hruns⟩ := stageRuns_of_ofTable h
  have haccount := ((accounted_initial table settings.limits).aliases table.distinct hruns.aliases).formulas
    table.distinct hruns.formulas
  have hcontains := (grounded_of_stageRuns hruns).2.2.2.contains
  obtain rfl := end_eq_of_formulas hruns hlists
  refine ⟨fun name hw => exists_blocked_of_waits hruns hlists hw, fun c hc hw => ?_⟩
  rw [show (fun name => r.numbers.lookup name) = r.states.numbers from funext r.lookup_numbers]
  obtain ⟨state, hf⟩ := (NameMap.contains_iff r.states c.name).1 (by
    rw [hcontains, NameMap.contains_iff]
    exact ⟨c, table.find?_of_mem hc⟩)
  cases state with
  | pending rawValue => exact absurd ⟨rawValue, hf⟩ hw
  | resolved value => exact .inl ⟨value, hf⟩
  | failed rawValue formula =>
    obtain ⟨rfl, rfl, hcomp, href, hnames, hvalue⟩ := haccount.fails hc hf
    exact .inr ⟨hf, hcomp, href, hnames, hvalue⟩

/-- One constant waits for a failed one, another for a cycle, and the failed one has only itself to blame. -/
theorem ofTable_waits_blocked :
    let settings : Settings := { strict := false }
    let table := Table.ofDeclarations settings
      [("zero", "0px", none), ("ratio", "@zero/zero", none), ("wide", "@ratio*2", none), ("left", "@right+1", none),
        ("right", "@left", none), ("pad", "1px 2px", some "Insets"), ("copy", "@left", none)]
    ∃ r, ofTable table settings = .ok r ∧ r.unresolved = ["ratio", "wide", "left", "right", "copy"] ∧
      (∀ name ∈ ["wide", "copy"], ∃ other, ReflTransGen table.DependsOn name other ∧
        (r.states.Failed other ∨ TransGen table.DependsOn other other)) ∧
      evaluate settings.limits (fun name => r.numbers.lookup name) "zero/zero" = .ok .nan := by
  intro settings table
  obtain ⟨r, hr, hvalues⟩ : ∃ r, ofTable table settings = .ok r ∧
      (r.unresolved, r.find? "ratio", r.find? "wide", r.find? "copy") =
        (["ratio", "wide", "left", "right", "copy"], some (.failed "@zero/zero" "zero/zero"),
          some (.pending "@ratio*2"), some (.pending "@left")) :=
    exists_ok_of_toOption (by decide +kernel)
  obtain ⟨hu, hratio, hwide, hcopy⟩ : _ ∧ _ ∧ _ ∧ _ := by simpa only [Prod.mk.injEq] using hvalues
  have hinitial : ∀ c ∈ table.constants.values, c.isComposite = true → States.initialOf c ≠ .pending c.rawValue := by
    decide +kernel
  have hlists (name : String) : ¬ table.WaitingList name := by
    rintro ⟨c, hfind, hcomp, hpend⟩
    exact hinitial c ((table.find?_constants_iff name c).1 hfind).1 hcomp hpend
  have hmem : Constant.define settings "ratio" "@zero/zero" none (.scalar .null) ∈ table.constants.values :=
    ((table.find?_constants_iff "ratio" _).1 rfl).1
  have hformula : (Constant.define settings "ratio" "@zero/zero" none (.scalar .null)).formula =
      "zero/zero" := by decide
  obtain ⟨hwaits, hfails⟩ := ofTable_waits hlists hr
  refine ⟨r, hr, hu, ?_, ?_⟩
  · simp only [List.forall_mem_cons, List.not_mem_nil, false_imp_iff, implies_true, and_true]
    exact ⟨hwaits "wide" ⟨_, hwide⟩, hwaits "copy" ⟨_, hcopy⟩⟩
  · rcases hfails _ hmem (States.not_waits_of_find? hratio rfl) with ⟨value, hv⟩ | ⟨-, -, -, -, hnan⟩
    · cases hratio.symm.trans hv
    · rwa [hformula] at hnan

end Resolved

end Stylesheet
