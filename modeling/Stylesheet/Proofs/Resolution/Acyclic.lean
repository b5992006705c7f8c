/-
What stays unresolved without cycles. Formulas are done before lists, and after the lists only aliases
are gone through once more. So where no constant depends on itself and no formula fails, all constants
resolve if and only if what leads to a list is referred to by aliases alone, or by lists if it is a list
itself (`Table.ListsLast`).
-/
import Mathlib.Order.WellFoundedSet
import Stylesheet.Proofs.Formula.Numeral
import Stylesheet.Proofs.Resolution.Dependency

namespace Stylesheet

open Formula (names evaluate)
open Relation (ReflTransGen TransGen)
open States (Extends)

/-! ## Lists and what leads to them -/

namespace Table

variable {table : Table} {name dependency : String}

/-- References of the constant of this name mention the other name. -/
def RefersTo (table : Table) (name other : String) : Prop :=
  ∃ c, table.constants.find? name = some c ∧ other ∈ c.mentions

theorem DependsOn.refersTo (h : table.DependsOn name dependency) : table.RefersTo name dependency := by
  obtain ⟨c, hfind, -, hm, -⟩ := h
  exact ⟨c, hfind, hm⟩

/-- The constant of this name is a list, and waits at first. -/
def WaitingList (table : Table) (name : String) : Prop :=
  ∃ c, table.constants.find? name = some c ∧ c.isComposite = true ∧ States.initialOf c = .pending c.rawValue

/-- References lead from the constant to a list that waits, or it is one. -/
def LeadsToList (table : Table) (name : String) : Prop :=
  ∃ list, ReflTransGen table.DependsOn name list ∧ table.WaitingList list

/-- What leads to a list is referred to by aliases of it, or by lists if it is a list itself. -/
def ListsLast (table : Table) : Prop :=
  ∀ name dependency, table.DependsOn name dependency → table.LeadsToList dependency →
    ∃ c, table.constants.find? name = some c ∧
      (c.isComposite = false ∧ aliasTarget? c.rawValue.toList = some dependency ∨
        c.isComposite = true ∧ table.WaitingList dependency)

theorem LeadsToList.of_dependsOn (h : table.LeadsToList dependency) (hd : table.DependsOn name dependency) :
    table.LeadsToList name := by
  obtain ⟨list, hreach, hw⟩ := h
  exact ⟨list, .head hd hreach, hw⟩

/-- A constant that leads to no cycle is accessible: chains of dependencies below it end. -/
theorem acc_of_no_cycle (h : ∀ other, ReflTransGen table.DependsOn name other →
    ¬ TransGen table.DependsOn other other) :
    Acc (fun d n => table.DependsOn n d) name := by
  -- on what it leads to, depending is a strict order, and the table is finite
  let below (d n : String) : Prop := TransGen table.DependsOn n d ∧ ReflTransGen table.DependsOn name n
  have hirrefl : Std.Irrefl below := ⟨fun n hn => h n hn.2 hn.1⟩
  have htrans : IsTrans String below := ⟨fun _ _ _ h1 h2 => ⟨h2.1.trans h1.1, h2.2⟩⟩
  have horder : IsStrictOrder String below := {}
  have hwf : {n | n ∈ table.constants.names}.WellFoundedOn below :=
    (List.finite_toSet table.constants.names).wellFoundedOn
  have hmem {n d : String} (hd : table.DependsOn n d) : d ∈ table.constants.names := by
    obtain ⟨c, -, -, -, hk⟩ := hd
    exact (NameMap.mem_names_iff _ d).2 hk
  have hacc (d : String) (hd : d ∈ table.constants.names) :
      ReflTransGen table.DependsOn name d → Acc (fun d n => table.DependsOn n d) d := by
    refine hwf.induction hd
      (P := fun d => ReflTransGen table.DependsOn name d → Acc (fun d n => table.DependsOn n d) d) ?_
    exact fun n _ ih hreach => ⟨_, fun d hd => ih d (hmem hd) ⟨.single hd, hreach⟩ (hreach.tail hd)⟩
  exact ⟨_, fun d hd => hacc d (hmem hd) (.single hd)⟩

/-- Without cycles, what carries over from the dependencies of a constant to it is true of all. -/
theorem induction_of_acyclic (hacyclic : ∀ name, ¬ TransGen table.DependsOn name name) {p : String → Prop}
    (h : ∀ name, table.constants.contains name = true → (∀ d, table.DependsOn name d → p d) → p name) :
    ∀ name, table.constants.contains name = true → p name := by
  intro name hname
  have hacc : Acc (fun d n => table.DependsOn n d) name := acc_of_no_cycle fun other _ => hacyclic other
  induction hacc with
  | intro n _ ih =>
    refine h n hname fun d hd => ih d hd ?_
    obtain ⟨c, -, -, -, hk⟩ := hd
    exact hk

/-- A rank that falls along all references leaves no room for cycles. -/
theorem acyclic_of_rank (rank : String → Nat)
    (h : ∀ c ∈ table.constants.values, ∀ d ∈ c.mentions, rank d < rank c.name) (name : String) :
    ¬ TransGen table.RefersTo name name := by
  have hstep {a b : String} (hd : table.RefersTo a b) : rank b < rank a := by
    obtain ⟨c, hfind, hm⟩ := hd
    obtain ⟨hc, rfl⟩ := (table.find?_constants_iff a c).1 hfind
    exact h c hc b hm
  have hfalls {a b : String} (hd : TransGen table.RefersTo a b) : rank b < rank a := by
    induction hd with
    | single hd => exact hstep hd
    | tail _ hd ih => exact (hstep hd).trans ih
  intro hc
  exact Nat.lt_irrefl _ (hfalls hc)

end Table

/-! ## No alias fails -/

/-- Numbers of resolved constants are numbers, and only formulas that are no aliases fail. -/
structure States.Proper (cs : List Constant) (s : States) : Prop where
  numbers : ∀ {name value x}, s.find? name = some (.resolved value) → value.number = some x → x.isNaN = false
  failed : ∀ {c rawValue formula}, c ∈ cs → s.find? c.name = some (.failed rawValue formula) →
    c.isComposite = false ∧ aliasTarget? c.rawValue.toList = none

variable {limits : Formula.Limits} {cs : List Constant} {s t : States}

theorem Quantity.isNaN_of_read? {text : String} {q : Quantity} (h : read? text = some q) : q.number.isNaN = false := by
  unfold read? at h
  obtain ⟨p, -, hq⟩ := Option.map_eq_some_iff.1 h
  have hnumber : q.number = p.1.toDouble := by rw [← hq]
  rw [hnumber, Text.Numeral.toDouble, Double.isNaN_ofDigits]

theorem proper_initial (table : Table) : (States.initial table).Proper table.constants.values := by
  constructor
  case numbers =>
    intro name value x h hx
    rw [States.find?_initial] at h
    obtain ⟨c, -, hc⟩ := Option.map_eq_some_iff.1 h
    rcases States.initialOf_cases c with ⟨q, hq, hv⟩ | hv | hv <;> rw [hv] at hc <;> cases hc
    · cases hx
      unfold Constant.quantity? at hq
      split at hq
      · exact Quantity.isNaN_of_read? hq
      · cases hq
    · cases hx
  -- nothing has failed yet
  case failed =>
    intro c rawValue formula _ h
    rw [States.find?_initial] at h
    obtain ⟨d, -, hd⟩ := Option.map_eq_some_iff.1 h
    rcases States.initialOf_cases d with ⟨q, -, hv⟩ | hv | hv <;> rw [hv] at hd <;> cases hd

/-- A move keeps states proper if what it moves to is. -/
theorem States.Proper.insert (h : s.Proper cs) (hd : Distinct cs) {c : Constant} (hc : c ∈ cs) {new : Resolution}
    (hnumber : ∀ value x, new = .resolved value → value.number = some x → x.isNaN = false)
    (hfailed : ∀ rawValue formula, new = .failed rawValue formula →
      c.isComposite = false ∧ aliasTarget? c.rawValue.toList = none) : States.Proper cs (s.insert c.name new) := by
  constructor
  case numbers =>
    intro name value x hv hx
    rw [NameMap.find?_insert] at hv
    split at hv
    · cases hv; exact hnumber value x rfl hx
    · exact h.numbers hv hx
  case failed =>
    intro d rawValue formula hdm hf
    rw [NameMap.find?_insert] at hf
    split at hf
    · rename_i hn
      cases hd d hdm c hc hn
      cases hf; exact hfailed rawValue formula rfl
    · exact h.failed hdm hf

theorem States.Proper.aliases (h : s.Proper cs) (hd : Distinct cs) (hrun : Stage.aliases.Runs cs s t) :
    t.Proper cs := by
  induction hrun with
  | refl => exact h
  | tail _ hm ih =>
    obtain ⟨hc, -, hs⟩ := hm
    obtain ⟨-, target, value, -, htarget, rfl⟩ := aliasStep_some hs
    refine ih.insert hd hc ?_ ?_
    · rintro _ x ⟨⟩ hx
      exact ih.numbers htarget hx
    · rintro rawValue formula ⟨⟩

/-- An alias of a number that is resolved is a number. -/
theorem not_isNaN_of_alias (h : s.Proper cs) {f : String} {x : Double} (hname : Formula.isName f.toList = true)
    (hr : s.Resolves f) (hx : evaluate limits s.numbers f = .ok x) : x.isNaN = false := by
  obtain ⟨value, hv⟩ := hr
  obtain ⟨y, hy, hnan, -⟩ := Formula.evaluate_of_isName hname hx
  rw [← hnan]
  refine h.numbers hv ?_
  unfold States.numbers at hy
  rw [hv] at hy
  exact hy

theorem States.Proper.formulas (h : s.Proper cs) (hd : Distinct cs) (hrun : (Stage.formulas limits).Runs cs s t) :
    t.Proper cs := by
  induction hrun with
  | refl => exact h
  | tail _ hm ih =>
    obtain ⟨hc, -, hs⟩ := hm
    rename_i c old new
    obtain ⟨rawValue, x, -, hcomp, href, hnames, hx, rfl⟩ := formulaStep_some hs
    unfold formulaOutcome
    split
    · rename_i hnan
      refine ih.insert hd hc ?_ fun rawValue' formula _ => ⟨hcomp, ?_⟩
      · rintro _ y ⟨⟩
      -- the target of an alias is a number, so an alias does not fail
      cases ht : aliasTarget? c.rawValue.toList with
      | none => rfl
      | some target =>
        obtain ⟨-, hformula, hmentions⟩ := formula_of_aliasTarget? ht
        have hname := (aliasTarget?_eq_some_iff.1 ht).2
        rw [hformula] at hx
        rw [not_isNaN_of_alias ih hname (hnames target (by rw [hmentions]; exact List.mem_singleton_self _)) hx] at hnan
        cases hnan
    · rename_i hnan
      refine ih.insert hd hc ?_ ?_
      · rintro _ y ⟨⟩ ⟨⟩
        simpa using hnan
      · rintro rawValue' formula ⟨⟩

/-! ## What each stage leaves -/

section Stages

variable {table : Table} {s₁ s₂ s₃ s₄ : States} {name dependency : String}
  (hruns : StageRuns limits table.constants.values (States.initial table) s₁ s₂ s₃ s₄)

include hruns in
/-- Aliases and formulas leave lists alone, also the aliases after the lists. -/
theorem find?_of_isComposite {c : Constant} (hc : c ∈ table.constants.values) (hcomp : c.isComposite = true) :
    s₂.find? c.name = some (States.initialOf c) ∧ s₄.find? c.name = s₃.find? c.name := by
  have halias (u : States) (d : Constant) (hd : d ∈ table.constants.values) (hn : d.name = c.name) (old : Resolution) :
      aliasStep u d old = .ok none := by
    cases table.distinct d hd c hc hn
    exact aliasStep_of_not_alias (.inl hcomp)
  refine ⟨?_, Stage.find?_of_runs hruns.listAliases fun d hd hn u old => halias u d hd hn old⟩
  rw [Stage.find?_of_runs hruns.formulas fun d hd hn u old => ?_,
    Stage.find?_of_runs hruns.aliases fun d hd hn u old => halias u d hd hn old, States.find?_initial_of_mem hc]
  cases table.distinct d hd c hc hn
  exact formulaStep_of_not_single (.inl hcomp)

include hruns in
theorem find?_lists_of_single {c : Constant} (hc : c ∈ table.constants.values) (hcomp : c.isComposite = false) :
    s₃.find? c.name = s₂.find? c.name := by
  refine Stage.find?_of_runs hruns.lists fun d hd hn u old => ?_
  cases table.distinct d hd c hc hn
  exact listStep_of_not_isComposite hcomp

include hruns in
/-- Once the formulas are done, single values that are no aliases stay as they are. -/
theorem find?_of_not_alias {c : Constant} (hc : c ∈ table.constants.values) (hcomp : c.isComposite = false)
    (halias : aliasTarget? c.rawValue.toList = none) : s₄.find? c.name = s₂.find? c.name := by
  rw [← find?_lists_of_single hruns hc hcomp]
  refine Stage.find?_of_runs hruns.listAliases fun d hd hn u old => ?_
  cases table.distinct d hd c hc hn
  exact aliasStep_of_not_alias (.inr halias)

include hruns in
/-- What is not resolved by the formulas waited at first. -/
theorem initialOf_of_not_resolves {c : Constant} (hc : c ∈ table.constants.values) (hr : ¬ s₂.Resolves c.name) :
    States.initialOf c = .pending c.rawValue := by
  have hext := (Stage.extends_of_runs hruns.aliases).trans (Stage.extends_of_runs hruns.formulas)
  exact States.initialOf_of_not_resolved fun value hv =>
    hr ⟨value, hext.resolved (by rw [States.find?_initial_of_mem hc, hv])⟩

include hruns in
/-- A list still waits after the formulas, and so does what leads to it. -/
theorem not_resolves_of_leadsToList (hl : table.LeadsToList name) : ¬ s₂.Resolves name := by
  obtain ⟨list, hreach, hw⟩ := hl
  have hg := (grounded_of_stageRuns hruns).2.1
  induction hreach using ReflTransGen.head_induction_on with
  | refl =>
    obtain ⟨c, hfind, hcomp, hpend⟩ := hw
    obtain ⟨hc, rfl⟩ := (table.find?_constants_iff list c).1 hfind
    rintro ⟨value, hv⟩
    rw [(find?_of_isComposite hruns hc hcomp).1, hpend] at hv
    cases hv
  | head hd _ ih => exact fun hr => ih (hg.dependencies hd hr)

include hruns in
/-- If nothing has failed in the end, nothing had failed after the formulas. -/
theorem not_failed_of_end (hfailed : ∀ name rawValue formula, s₄.find? name ≠ some (.failed rawValue formula))
    (name rawValue formula : String) : s₂.find? name ≠ some (.failed rawValue formula) := by
  intro h
  have hproper := ((proper_initial table).aliases table.distinct hruns.aliases).formulas table.distinct hruns.formulas
  have hk : table.constants.contains name = true := by
    rw [← (grounded_of_stageRuns hruns).2.1.contains, NameMap.contains_iff]
    exact ⟨_, h⟩
  obtain ⟨c, hfind⟩ := (NameMap.contains_iff _ _).1 hk
  obtain ⟨hc, rfl⟩ := (table.find?_constants_iff name c).1 hfind
  obtain ⟨hcomp, halias⟩ := hproper.failed hc h
  exact hfailed c.name rawValue formula ((find?_of_not_alias hruns hc hcomp halias).trans h)

section

variable (hacyclic : ∀ name, ¬ TransGen table.DependsOn name name)
  (hfailed : ∀ name rawValue formula, s₄.find? name ≠ some (.failed rawValue formula))

include hruns hacyclic hfailed

/-- What does not lead to a list is resolved when the formulas are done. -/
theorem resolves_of_not_leadsToList (name : String) (hk : table.constants.contains name = true) :
    ¬ table.LeadsToList name → s₂.Resolves name := by
  have hg := (grounded_of_stageRuns hruns).2.1
  refine table.induction_of_acyclic hacyclic (p := fun name => ¬ table.LeadsToList name → s₂.Resolves name)
    (fun name hk ih hl => ?_) name hk
  obtain ⟨c, hfind⟩ := (NameMap.contains_iff _ _).1 hk
  obtain ⟨hc, rfl⟩ := (table.find?_constants_iff name c).1 hfind
  by_contra hr
  -- a single reference, all names of which lead to no list either
  have hpend := initialOf_of_not_resolves hruns hc hr
  have hcomp : c.isComposite = false := by
    by_contra hcomp
    exact hl ⟨c.name, .refl, c, hfind, by simpa using hcomp, hpend⟩
  have href := States.isReference_of_initialOf hpend hcomp
  refine hr (hruns.formulasEnd.resolves_of_ready hc (by rw [hg.contains]; exact hk) hcomp href (fun d hd hdk => ?_)
    fun rawValue formula => not_failed_of_end hruns hfailed c.name rawValue formula)
  have hedge : table.DependsOn c.name d :=
    ⟨c, hfind, hpend, by rw [Constant.mentions_of_isReference hcomp href]; exact hd, by rw [← hg.contains]; exact hdk⟩
  exact ih d hedge fun hld => hl (hld.of_dependsOn hedge)

/-- If lists come last, they are resolved when the lists are done. -/
theorem resolves_of_waitingList (hlast : table.ListsLast) (name : String) (hk : table.constants.contains name = true) :
    table.WaitingList name → s₃.Resolves name := by
  have hg := (grounded_of_stageRuns hruns).2.2.1
  refine table.induction_of_acyclic hacyclic (p := fun name => table.WaitingList name → s₃.Resolves name)
    (fun name hk ih hw => ?_) name hk
  obtain ⟨c, hfind, hcomp, hpend⟩ := hw
  obtain ⟨hc, rfl⟩ := (table.find?_constants_iff name c).1 hfind
  refine hruns.listsEnd.resolves_of_readyFor hc (by rw [hg.contains]; exact hk) hcomp fun d hd hdk => ?_
  have hedge : table.DependsOn c.name d := ⟨c, hfind, hpend, hd, by rw [← hg.contains]; exact hdk⟩
  by_cases hld : table.LeadsToList d
  · obtain ⟨c', hfind', hcase⟩ := hlast c.name d hedge hld
    rw [hfind] at hfind'
    cases hfind'
    rcases hcase with ⟨hsingle, -⟩ | ⟨-, hwd⟩
    · rw [hcomp] at hsingle; cases hsingle
    · exact ih d hedge hwd
  · exact (Stage.extends_of_runs hruns.lists).resolves
      (resolves_of_not_leadsToList hruns hacyclic hfailed d (by rw [← hg.contains]; exact hdk) hld)

/-- If lists come last, everything is resolved in the end. -/
theorem resolves_of_listsLast (hlast : table.ListsLast) (name : String)
    (hk : table.constants.contains name = true) : s₄.Resolves name := by
  have hg := (grounded_of_stageRuns hruns).2.2.2
  have h₃ := Stage.extends_of_runs hruns.lists
  have h₄ := Stage.extends_of_runs hruns.listAliases
  refine table.induction_of_acyclic hacyclic (p := fun name => s₄.Resolves name) (fun name hk ih => ?_) name hk
  by_cases hl : table.LeadsToList name
  · obtain ⟨list, hreach, hw⟩ := hl
    rcases ReflTransGen.cases_head hreach with rfl | ⟨d, hedge, hrest⟩
    · exact h₄.resolves (resolves_of_waitingList hruns hacyclic hfailed hlast name hk hw)
    obtain ⟨c, hfind, hcase⟩ := hlast name d hedge ⟨list, hrest, hw⟩
    obtain ⟨hc, rfl⟩ := (table.find?_constants_iff name c).1 hfind
    rcases hcase with ⟨hcomp, halias⟩ | ⟨hcomp, -⟩
    · exact hruns.listAliasesEnd.resolves_of_target hc (by rw [hg.contains]; exact hk) hcomp halias (ih d hedge)
    · obtain ⟨c', hfind', hpend, -, -⟩ := hedge
      rw [hfind] at hfind'
      cases hfind'
      exact h₄.resolves (resolves_of_waitingList hruns hacyclic hfailed hlast c.name hk ⟨c, hfind, hcomp, hpend⟩)
  · exact h₄.resolves (h₃.resolves (resolves_of_not_leadsToList hruns hacyclic hfailed name hk hl))

end

include hruns in
/-- If everything is resolved in the end, lists come last. -/
theorem listsLast_of_resolves (hall : ∀ name, table.constants.contains name = true → s₄.Resolves name) :
    table.ListsLast := by
  obtain ⟨-, -, hg₃, -⟩ := grounded_of_stageRuns hruns
  intro name dependency hedge hl
  obtain ⟨c, hfind, hpend, hm, hk⟩ := id hedge
  obtain ⟨hc, rfl⟩ := (table.find?_constants_iff name c).1 hfind
  have hr := hall c.name ((NameMap.contains_iff _ _).2 ⟨c, hfind⟩)
  refine ⟨c, hfind, ?_⟩
  cases hcomp : c.isComposite with
  | false =>
    refine .inl ⟨rfl, ?_⟩
    cases halias : aliasTarget? c.rawValue.toList with
    | none =>
      -- only formulas could have resolved it, and then the list before
      obtain ⟨value, hv⟩ := hr
      rw [find?_of_not_alias hruns hc hcomp halias] at hv
      exact absurd ⟨value, hv⟩ (not_resolves_of_leadsToList hruns (hl.of_dependsOn hedge))
    | some target =>
      obtain ⟨href, -, hnames⟩ := formula_of_aliasTarget? halias
      rw [Constant.mentions_of_isReference hcomp href, hnames, List.mem_singleton] at hm
      rw [hm]
  | true =>
    refine .inr ⟨rfl, ?_⟩
    have hr₃ : s₃.Resolves c.name := by
      obtain ⟨value, hv⟩ := hr
      exact ⟨value, (find?_of_isComposite hruns hc hcomp).2 ▸ hv⟩
    -- what the list mentions was resolved among the lists, so it is one
    obtain ⟨value, hv⟩ := hg₃.dependencies hedge hr₃
    obtain ⟨d, hfind'⟩ := (NameMap.contains_iff _ _).1 hk
    obtain ⟨hd, rfl⟩ := (table.find?_constants_iff dependency d).1 hfind'
    cases hcomp' : d.isComposite with
    | false =>
      rw [find?_lists_of_single hruns hd hcomp'] at hv
      exact absurd ⟨value, hv⟩ (not_resolves_of_leadsToList hruns hl)
    | true =>
      refine ⟨d, hfind', hcomp', ?_⟩
      have h₂ := (find?_of_isComposite hruns hd hcomp').1
      exact States.initialOf_of_not_resolved fun value hv =>
        not_resolves_of_leadsToList hruns hl ⟨value, by rw [h₂, hv]⟩

end Stages

/-! ## The theorem -/

namespace Resolved

theorem unresolvedNames_eq_nil_iff (s : States) :
    unresolvedNames s = [] ↔ ∀ name, s.contains name = true → s.Resolves name := by
  unfold unresolvedNames
  rw [List.map_eq_nil_iff, List.filter_eq_nil_iff]
  constructor
  · intro h name hk
    obtain ⟨r, hr⟩ := (NameMap.contains_iff s name).1 hk
    have := h _ ((NameMap.find?_eq_some_iff s name r).1 hr)
    exact (States.isResolved_iff hr).1 (by simpa using this)
  · rintro h ⟨name, r⟩ hm
    have hr := (NameMap.find?_eq_some_iff s name r).2 hm
    simpa using (States.isResolved_iff hr).2 (h name ((NameMap.contains_iff s name).2 ⟨r, hr⟩))

/-- In a table without cycles that resolves without failures, nothing stays unresolved if and only if
what leads to a list is referred to by aliases of it alone, or by lists if it is a list itself. -/
theorem unresolved_eq_nil_iff {table : Table} {settings : Settings} {r : Resolved}
    (hacyclic : ∀ name, ¬ TransGen table.DependsOn name name) (h : ofTable table settings = .ok r)
    (hfailed : ∀ name rawValue formula, r.find? name ≠ some (.failed rawValue formula)) :
    r.unresolved = [] ↔ table.ListsLast := by
  obtain ⟨s₁, s₂, s₃, hruns⟩ := stageRuns_of_ofTable h
  have hcontains := (grounded_of_stageRuns hruns).2.2.2.contains
  unfold unresolved
  rw [unresolvedNames_eq_nil_iff]
  constructor
  · intro hall
    exact listsLast_of_resolves hruns fun name hk => hall name (by rw [hcontains]; exact hk)
  · intro hlast name hk
    exact resolves_of_listsLast hruns hacyclic hfailed hlast name (by rw [← hcontains]; exact hk)

theorem not_failed_of_entries {r : Resolved} (h : (r.states.entries.all fun entry => entry.2.error?.isNone) = true)
    (name rawValue formula : String) : r.find? name ≠ some (.failed rawValue formula) := by
  intro hf
  have := List.all_eq_true.1 h _ ((NameMap.find?_eq_some_iff r.states name _).1 hf)
  cases this

/-- A list in a list, and an alias of it. -/
theorem unresolved_eq_nil_of_nested :
    let settings : Settings := { strict := false }
    let table := Table.ofDeclarations settings
      [("copy", "@outer", none), ("outer", "@inner 1px", some "Insets"), ("inner", "@gap 2px", some "Insets"),
        ("gap", "4px", none)]
    (∃ r, ofTable table settings = .ok r ∧ r.value? "copy" = some "4px 2px 1px" ∧ r.unresolved = []) ∧
    table.ListsLast := by
  intro settings table
  obtain ⟨r, hr, hvalues⟩ : ∃ r, ofTable table settings = .ok r ∧
      (r.value? "copy", r.unresolved, r.states.entries.all fun entry => entry.2.error?.isNone) =
        (some "4px 2px 1px", [], true) :=
    exists_ok_of_toOption (by decide +kernel)
  obtain ⟨hcopy, hu, hall⟩ : _ ∧ _ ∧ _ := by simpa only [Prod.mk.injEq] using hvalues
  have hacyclic := table.acyclic_of_rank (["gap", "inner", "outer", "copy"].idxOf ·) (by decide +kernel)
  have hdepends (name : String) : ¬ TransGen table.DependsOn name name := by
    intro hc
    exact hacyclic name (TransGen.mono (fun _ _ => Table.DependsOn.refersTo) _ _ hc)
  exact ⟨⟨r, hr, hcopy, hu⟩, (unresolved_eq_nil_iff hdepends hr (not_failed_of_entries hall)).1 hu⟩

/-- A list in an alias in a list does not resolve, although there is no cycle: the alias has to wait
until the lists are done. -/
theorem acyclic_unresolved :
    ¬ ∀ (table : Table) (settings : Settings) (r : Resolved), settings.strict = false →
      (∀ name ∈ table.constants.names, Formula.isName name.toList = true) →
      (∀ name, ¬ TransGen table.RefersTo name name) → ofTable table settings = .ok r →
      (∀ name rawValue formula, r.find? name ≠ some (.failed rawValue formula)) → r.unresolved = [] := by
  intro h
  obtain ⟨settings, hsettings⟩ : ∃ settings : Settings, settings = { strict := false } := ⟨_, rfl⟩
  obtain ⟨table, htable⟩ : ∃ table, table = Table.ofDeclarations { strict := false }
      [("outer", "@mid 1px", some "Insets"), ("mid", "@inner", none), ("inner", "@gap 2px", some "Insets"),
        ("gap", "4px", none)] :=
    ⟨_, rfl⟩
  obtain ⟨r, hr, hvalues⟩ : ∃ r, ofTable table settings = .ok r ∧
      (r.unresolved, r.states.entries.all fun entry => entry.2.error?.isNone) = (["outer"], true) :=
    exists_ok_of_toOption (by rw [htable, hsettings]; decide +kernel)
  obtain ⟨hu, hall⟩ : _ ∧ _ := by simpa only [Prod.mk.injEq] using hvalues
  have hacyclic := table.acyclic_of_rank (["gap", "inner", "mid", "outer"].idxOf ·) (by rw [htable]; decide +kernel)
  have hnil := h table settings r (by rw [hsettings]) (by rw [htable]; decide +kernel) hacyclic hr
      (not_failed_of_entries hall)
  rw [hu] at hnil
  cases hnil

end Resolved

end Stylesheet
