/-
The result solves the equations of its references. Each step settles a reference in view of a state that
already has what the reference reads, and later states keep it, so the equation holds at the end as well.
An alias is evaluated only if its target was: otherwise it had been copied before. So the target is a
written number, and its text is read back to the same record.
-/
import Stylesheet.Proofs.Formula.Numeral
import Stylesheet.Proofs.Resolution.Steps

namespace Stylesheet

open Formula (names evaluate)
open States (Extends)

/-! ## Equations -/

/-- The record of a number with the unit of a formula. -/
def States.written (s : States) (f : String) (x : Double) : Settled :=
  ⟨Quantity.write ⟨x, s.inferUnit f⟩, some x, s.inferUnit f⟩

/-- What the reference `f` makes of a constant whose references are resolved as in `s`: a name gives the
record of its constant, any other formula its value, and no value if that is not a number. -/
def States.Solves (s : States) (limits : Formula.Limits) (f : String) : Resolution → Prop
  | .pending _ => True
  | .resolved value =>
    if Formula.isName f.toList then s.find? f = some (.resolved value)
    else (∀ name ∈ names f, s.Resolves name) ∧
      ∃ x, evaluate limits s.numbers f = .ok x ∧ x.isNaN = false ∧ value = s.written f x
  | .failed _ _ => (∀ name ∈ names f, s.Resolves name) ∧ evaluate limits s.numbers f = .ok .nan

theorem States.solves_of_isName {s : States} {limits : Formula.Limits} {f : String} {value : Settled}
    (h : Formula.isName f.toList = true) :
    s.Solves limits f (.resolved value) ↔ s.find? f = some (.resolved value) :=
  iff_of_eq (if_pos h)

theorem States.solves_of_not_isName {s : States} {limits : Formula.Limits} {f : String} {value : Settled}
    (h : ¬ Formula.isName f.toList = true) :
    s.Solves limits f (.resolved value) ↔ (∀ name ∈ names f, s.Resolves name) ∧
      ∃ x, evaluate limits s.numbers f = .ok x ∧ x.isNaN = false ∧ value = s.written f x :=
  iff_of_eq (if_neg h)

/-- Every single reference among the constants is what it has to be. -/
def States.Solved (limits : Formula.Limits) (cs : List Constant) (s : States) : Prop :=
  ∀ c ∈ cs, c.isComposite = false → c.isReference = true →
    ∀ r, s.find? c.name = some r → s.Solves limits c.formula r

variable {limits : Formula.Limits} {cs : List Constant} {s s₁ t : States} {f : String}

/-- Equations go on to hold, since all that they read is resolved. -/
theorem States.Extends.solves (h : Extends s t) {r : Resolution} (hr : s.Solves limits f r) : t.Solves limits f r := by
  have hnumbers (hn : ∀ name ∈ names f, s.Resolves name) :
      (∀ name ∈ names f, t.Resolves name) ∧ evaluate limits t.numbers f = evaluate limits s.numbers f ∧
        t.inferUnit f = s.inferUnit f := by
    have heq := h.find?_eq_of_ready fun name hname _ => hn name hname
    refine ⟨?_, States.evaluate_numbers_congr limits heq, States.inferUnit_congr heq⟩
    intro name hname
    exact h.resolves (hn name hname)
  cases r with
  | pending rawValue => trivial
  | resolved value =>
    by_cases hname : Formula.isName f.toList = true
    · rw [States.solves_of_isName hname] at hr ⊢
      exact h.resolved hr
    · rw [States.solves_of_not_isName hname] at hr ⊢
      obtain ⟨hn, x, hx, hnan, hv⟩ := hr
      obtain ⟨hn', hev, hunit⟩ := hnumbers hn
      refine ⟨hn', x, hev.trans hx, hnan, ?_⟩
      rw [hv, States.written, States.written, hunit]
  | failed rawValue formula =>
    obtain ⟨hn, hx⟩ := hr
    obtain ⟨hn', hev, -⟩ := hnumbers hn
    exact ⟨hn', hev.trans hx⟩

/-- A move keeps all equations if the constant that it moves has its own afterwards. -/
theorem States.Solved.insert (h : s.Solved limits cs) (hd : Distinct cs) {c : Constant} (hc : c ∈ cs)
    {new : Resolution} (hext : Extends s (s.insert c.name new))
    (hnew : c.isComposite = false → c.isReference = true → States.Solves (s.insert c.name new) limits c.formula new) :
    States.Solved limits cs (s.insert c.name new) := by
  intro d hdm hcomp href r hr
  rw [NameMap.find?_insert] at hr
  split at hr
  · rename_i hn
    cases hd d hdm c hc hn
    cases hr
    exact hnew hcomp href
  · exact hext.solves (h d hdm hcomp href r hr)

/-! ## Aliases and lists -/

theorem States.Solved.aliases (h : s.Solved limits cs) (hd : Distinct cs) (hrun : Stage.aliases.Runs cs s t) :
    t.Solved limits cs := by
  induction hrun with
  | refl => exact h
  | tail _ hm ih =>
    have hext := Stage.extends_of_moves hm
    obtain ⟨hc, hf, hs⟩ := hm
    refine ih.insert hd hc hext ?_
    intro _ _
    obtain ⟨-, target, value, ht, htarget, rfl⟩ := aliasStep_some hs
    obtain ⟨-, hformula, -⟩ := formula_of_aliasTarget? ht
    rw [hformula, States.solves_of_isName (aliasTarget?_eq_some_iff.1 ht).2]
    exact hext.resolved htarget

theorem States.Solved.lists (h : s.Solved limits cs) (hd : Distinct cs)
    (hrun : (Stage.lists limits).Runs cs s t) : t.Solved limits cs := by
  induction hrun with
  | refl => exact h
  | tail _ hm ih =>
    have hext := Stage.extends_of_moves hm
    obtain ⟨hc, hf, hs⟩ := hm
    refine ih.insert hd hc hext ?_
    intro hcomp _
    rw [(listStep_some hs).1] at hcomp
    cases hcomp

/-! ## Formulas -/

/-- A number as formulas are settled: its text is written from it, and its unit is none or not blank. -/
def Settled.IsWritten (value : Settled) : Prop :=
  ∃ x, value.number = some x ∧ value.text = Quantity.write ⟨x, value.unit⟩ ∧
    ∀ u, value.unit = some u → Text.allBlank u = false

theorem isWritten_written (s : States) (f : String) (x : Double) : (s.written f x).IsWritten := by
  refine ⟨x, rfl, rfl, ?_⟩
  intro u hu
  obtain ⟨name, -, hname⟩ := List.exists_of_findSome?_eq_some (hu : s.inferUnit f = some u)
  obtain ⟨-, hblank⟩ := Option.filter_eq_some_iff.1 hname
  simpa using hblank

/-- The number of a written record, with the unit of its name, gives the record again. -/
theorem written_of_isWritten {name : String} {value : Settled} {x : Double}
    (hname : Formula.isName name.toList = true) (hf : s.find? name = some (.resolved value)) (hw : value.IsWritten)
    (hx : value.number = some x) : s.written name x = value := by
  obtain ⟨text, number, unit⟩ := value
  obtain ⟨y, hy, htext, hblank⟩ := hw
  rw [hx] at hy
  cases hy; cases hx
  have hunit : s.inferUnit name = unit := by
    unfold States.inferUnit
    rw [Formula.names_of_isName hname, List.findSome?_cons, hf]
    cases unit with
    | none => rfl
    | some u =>
      have hkeep : (some u).filter (!Text.allBlank ·) = some u := by simp [hblank u rfl]
      simp only [Option.bind_some, Resolution.unit?, hkeep]
  rw [States.written, hunit, Settled.mk.injEq]
  exact ⟨htext.symm, rfl, rfl⟩

/-- A formula step that ends in a value ends in a written record. -/
theorem formulaOutcome_eq_resolved {rawValue : String} {x : Double} {value : Settled}
    (h : formulaOutcome s rawValue f x = .resolved value) : x.isNaN = false ∧ value = s.written f x := by
  unfold formulaOutcome at h
  split at h
  · cases h
  · rename_i hx
    cases h
    exact ⟨by simpa using hx, rfl⟩

/-- What is resolved in the run of the formulas was so before it, or is a written record. -/
def Evaluated (s₁ t : States) : Prop :=
  ∀ name value, t.find? name = some (.resolved value) → s₁.find? name = some (.resolved value) ∨ value.IsWritten

theorem evaluated_of_runs (hrun : (Stage.formulas limits).Runs cs s₁ t) : Evaluated s₁ t := by
  induction hrun with
  | refl => exact fun name value h => .inl h
  | tail _ hm ih =>
    obtain ⟨-, -, hs⟩ := hm
    intro name value h
    rw [NameMap.find?_insert] at h
    split at h
    · cases h
      obtain ⟨rawValue, x, -, -, -, -, -, hnew⟩ := formulaStep_some hs
      rw [(formulaOutcome_eq_resolved hnew.symm).2]
      exact .inr (isWritten_written ..)
    · exact ih name value h

/-- The target of an alias that still waits after the aliases is resolved by a formula, if at all. -/
theorem isWritten_of_alias {c : Constant} {target rawValue : String} {value : Settled}
    (hend : Stage.aliases.Stable cs s₁) (hrun : (Stage.formulas limits).Runs cs s₁ s) (hc : c ∈ cs)
    (hcomp : c.isComposite = false) (hpending : s.find? c.name = some (.pending rawValue))
    (halias : aliasTarget? c.rawValue.toList = some target) (hf : s.find? target = some (.resolved value)) :
    value.IsWritten := by
  refine (evaluated_of_runs hrun target value hf).resolve_left ?_
  -- a target that the aliases had would have been copied by them
  intro h1
  have hext := Stage.extends_of_runs hrun
  obtain ⟨old, hold⟩ := (NameMap.contains_iff s₁ c.name).1
    (by rw [← hext.contains, NameMap.contains_iff]; exact ⟨_, hpending⟩)
  have hstay := hend c hc old hold
  cases hres : old.isResolved with
  | true =>
    obtain ⟨v, hv⟩ := (States.isResolved_iff hold).1 hres
    rw [hext.resolved hv] at hpending
    cases hpending
  | false =>
    rw [Stage.step_aliases, aliasStep_of_resolved hres hcomp halias h1] at hstay
    cases hstay

/-- A formula step gives its constant what the formula makes of it; for an alias that is the record of
its target, read back from its text. -/
theorem solves_of_formulaStep (hdigits : 17 ≤ limits.digits) (hend : Stage.aliases.Stable cs s₁)
    (hrun : (Stage.formulas limits).Runs cs s₁ s) {c : Constant} (hc : c ∈ cs) {old new : Resolution}
    (hfound : s.find? c.name = some old) (hs : formulaStep limits s c old = .ok (some new)) :
    s.Solves limits c.formula new := by
  obtain ⟨rawValue, x, rfl, hcomp, href, hnames, hx, hnew⟩ := formulaStep_some hs
  cases new with
  | pending rawValue' => trivial
  | failed rawValue' formula =>
    refine ⟨hnames, ?_⟩
    unfold formulaOutcome at hnew
    split at hnew
    · rename_i hnan
      rw [hx, Double.eq_nan_of_isNaN hnan]
    · cases hnew
  | resolved value =>
    obtain ⟨hnan, hvalue⟩ := formulaOutcome_eq_resolved hnew.symm
    by_cases hname : Formula.isName c.formula.toList = true
    -- the number of an alias is that of its target, and with it all of the record
    · rw [States.solves_of_isName hname]
      obtain ⟨target, htarget⟩ :=
        hnames c.formula (by rw [Formula.names_of_isName hname]; exact List.mem_singleton_self _)
      obtain ⟨y, hy, -, hround⟩ := Formula.evaluate_of_isName hname hx
      cases hround hdigits
      have hraw : aliasTarget? c.rawValue.toList = some c.formula := by
        rw [aliasTarget?_eq_some_iff]
        exact ⟨c.rawValue_eq_of_isReference href, hname⟩
      have hw := isWritten_of_alias hend hrun hc hcomp hfound hraw htarget
      have hnumber : target.number = some x := by
        unfold States.numbers at hy
        rw [htarget] at hy
        exact hy
      rw [htarget, hvalue, written_of_isWritten hname htarget hw hnumber]
    · rw [States.solves_of_not_isName hname]
      exact ⟨hnames, x, hx, hnan, hvalue⟩

theorem States.Solved.formulas (h : s₁.Solved limits cs) (hd : Distinct cs) (hdigits : 17 ≤ limits.digits)
    (hend : Stage.aliases.Stable cs s₁) (hrun : (Stage.formulas limits).Runs cs s₁ t) : t.Solved limits cs := by
  induction hrun with
  | refl => exact h
  | tail hrun hm ih =>
    have hext := Stage.extends_of_moves hm
    obtain ⟨hc, hf, hs⟩ := hm
    refine ih.insert hd hc hext ?_
    intro _ _
    exact hext.solves (solves_of_formulaStep hdigits hend hrun hc hf hs)

/-! ## The result -/

theorem solved_initial (table : Table) (limits : Formula.Limits) :
    (States.initial table).Solved limits table.constants.values := by
  intro c hc hcomp href r hr
  rw [States.find?_initial_of_mem hc] at hr
  cases hr
  rw [States.initialOf_of_isReference hcomp href]
  trivial

namespace Resolved

/-- The numbers of a result, looked up, are those of its states. -/
theorem lookup_numbers (r : Resolved) (name : String) : r.numbers.lookup name = r.states.numbers name :=
  NameMap.lookup_filterMap Resolution.number? r.states.nodup name

/-- The result solves the equations of its references, if numbers keep seventeen digits. A single
reference that is resolved has the record of the constant it names, or the value of its formula over the
numbers of the result; and one that failed has a formula that is not a number, although all its names are
resolved. -/
theorem ofTable_solves {table : Table} {settings : Settings} {r : Resolved} (hdigits : 17 ≤ settings.limits.digits)
    (h : ofTable table settings = .ok r) {c : Constant} (hc : c ∈ table.constants.values)
    (hcomp : c.isComposite = false) {f : String} (hf : c.rawValue = "@" ++ f) :
    (∀ value, r.find? c.name = some (.resolved value) →
      if Formula.isName f.toList then r.find? f = some (.resolved value)
      else ∃ x, evaluate settings.limits (fun name => r.numbers.lookup name) f = .ok x ∧ x.isNaN = false ∧
        value = ⟨Quantity.write ⟨x, r.states.inferUnit f⟩, some x, r.states.inferUnit f⟩) ∧
    ∀ rawValue formula, r.find? c.name = some (.failed rawValue formula) →
      (∀ name ∈ names f, r.states.Resolves name) ∧
        evaluate settings.limits (fun name => r.numbers.lookup name) f = .ok .nan := by
  obtain ⟨s₁, s₂, s₃, hruns⟩ := stageRuns_of_ofTable h
  have hd := table.distinct
  have h1 := (solved_initial table settings.limits).aliases hd hruns.aliases
  have h2 := h1.formulas hd hdigits hruns.aliasesEnd hruns.formulas
  have h4 := (h2.lists hd hruns.lists).aliases hd hruns.listAliases
  obtain ⟨href, rfl⟩ := Constant.isReference_of_rawValue hf
  rw [show (fun name => r.numbers.lookup name) = r.states.numbers from funext r.lookup_numbers]
  constructor
  · intro value hv
    have hsolves := h4 c hc hcomp href _ hv
    split
    · rename_i hname
      exact (States.solves_of_isName hname).1 hsolves
    · rename_i hname
      exact ((States.solves_of_not_isName hname).1 hsolves).2
  · intro rawValue formula hv
    exact h4 c hc hcomp href _ hv

/-- An alias of a formula is settled through its decimal text, with the record of the formula. -/
theorem ofTable_solves_alias :
    let settings : Settings := { strict := false }
    let table := Table.ofDeclarations settings
        [("copy", "@tenth", none), ("tenth", "@gap/10", none), ("gap", "3px", none)]
    ∃ r value, ofTable table settings = .ok r ∧ value.text = "0.3px" ∧ r.find? "copy" = some (.resolved value) ∧
      r.find? "tenth" = some (.resolved value) := by
  intro settings table
  obtain ⟨r, hr, hcopy⟩ : ∃ r, ofTable table settings = .ok r ∧
      r.find? "copy" = some (.resolved ⟨"0.3px", some (.ofRatio false 3 10), some "px"⟩) :=
    exists_ok_of_toOption (by decide +kernel)
  have hmem : Constant.define settings "copy" "@tenth" none (.scalar .null) ∈ table.constants.values :=
    ((table.find?_constants_iff "copy" _).1 rfl).1
  have hraw : (Constant.define settings "copy" "@tenth" none (.scalar .null)).rawValue = "@" ++ "tenth" := by decide
  have htenth := (ofTable_solves (by decide) hr hmem (by decide +kernel) hraw).1 _ hcopy
  rw [if_pos (by decide +kernel)] at htenth
  exact ⟨r, _, hr, rfl, hcopy, htenth⟩

end Resolved

end Stylesheet
