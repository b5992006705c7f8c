/-
Runs of the stages, whatever order the constants stand in. A run is a sequence of moves, each of one
constant that changes in view of the others; it ends in a state where nothing moves or fails, or in
one where some constant fails. So what one move preserves holds at the end of a run. A move never
takes a resolved constant back, so every state extends those before it.
-/
import Mathlib.Logic.Relation
import Stylesheet.Resolution.Resolved
import Stylesheet.Proofs.Formula.Substitution

namespace Stylesheet

open Relation (ReflTransGen)

/-! ## Tables -/

/-- The table of some declarations, each a name, a value and a type. -/
def Table.ofDeclarations (settings : Settings) (declarations : List (String × String × Option String)) : Table :=
  declarations.foldl (fun table (name, value, type) => table.add (.define settings name value type (.scalar .null)))
    (.empty settings)

/-- The table of some items in a row, each with its place as the source. -/
def Table.ofItems (settings : Settings) (items : List (String × String × Option String)) : Table :=
  items.zipIdx.foldl (fun table ((name, value, type), i) =>
    table.add (.define settings name value type (.scalar (.int i))))
    (.empty settings)

theorem Table.values_bare (table : Table) : table.bare.constants.values = table.constants.values.map Constant.bare := by
  simp [bare, NameMap.values, NameMap.map, Function.comp_def]

theorem Table.names_bare (table : Table) : table.bare.constants.names = table.constants.names := NameMap.names_map ..

theorem Table.find?_of_mem {table : Table} {c : Constant} (hc : c ∈ table.constants.values) :
    table.constants.find? c.name = some c :=
  (table.find?_constants_iff c.name c).2 ⟨hc, rfl⟩

/-- The constants of the list have different names. -/
def Distinct (cs : List Constant) : Prop := ∀ c ∈ cs, ∀ d ∈ cs, c.name = d.name → c = d

theorem Table.distinct (table : Table) : Distinct table.constants.values := by
  intro c hc d hd h
  have hfind := table.find?_of_mem hd
  rw [← h, table.find?_of_mem hc] at hfind
  exact Option.some.inj hfind

namespace States

/-! ## Extension -/

/-- The constant has its value. -/
def Resolves (s : States) (name : String) : Prop := ∃ value, s.find? name = some (.resolved value)

/-- `t` extends `s`: it holds the same constants, and every value that `s` has. -/
structure Extends (s t : States) : Prop where
  contains : ∀ name, t.contains name = s.contains name
  resolved : ∀ {name value}, s.find? name = some (.resolved value) → t.find? name = some (.resolved value)

theorem Extends.refl (s : States) : Extends s s := ⟨fun _ => rfl, id⟩

theorem Extends.trans {s t u : States} (h1 : Extends s t) (h2 : Extends t u) : Extends s u :=
  ⟨fun name => (h2.contains name).trans (h1.contains name), fun h => h2.resolved (h1.resolved h)⟩

theorem Extends.resolves {s t : States} (h : Extends s t) {name : String} (hr : s.Resolves name) :
    t.Resolves name := by
  obtain ⟨value, hv⟩ := hr
  exact ⟨value, h.resolved hv⟩

/-- What is resolved in `s`, or absent, is the same in `t`. -/
theorem Extends.find?_eq {s t : States} (h : Extends s t) {name : String}
    (hn : s.contains name = true → s.Resolves name) : t.find? name = s.find? name := by
  cases hc : s.contains name with
  | true =>
    obtain ⟨value, hv⟩ := hn hc
    rw [hv, h.resolved hv]
  | false =>
    have ht := h.contains name
    rw [hc] at ht
    simp only [NameMap.contains, Option.isSome_eq_false_iff, Option.isNone_iff_eq_none] at hc ht
    rw [hc, ht]

theorem extends_insert {s : States} {name : String} {old : Resolution} (hf : s.find? name = some old)
    (hold : old.isResolved = false) (new : Resolution) : Extends s (s.insert name new) := by
  constructor
  case contains =>
    intro n
    unfold NameMap.contains
    rw [NameMap.find?_insert]
    split
    · rename_i e; subst e; rw [hf]; rfl
    · rfl
  case resolved =>
    intro n value hv
    rw [NameMap.find?_insert_of_ne _ ?_, hv]
    rintro rfl
    rw [hv] at hf; cases hf; cases hold

end States

open States (Extends)

namespace Stage

/-! ## Moves of one stage -/

/-- One constant changes, in view of the others. -/
inductive Moves (stage : Stage) (cs : List Constant) (s : States) : States → Prop
  | intro {c : Constant} {old new : Resolution} (mem : c ∈ cs) (found : s.find? c.name = some old)
    (step : stage.step s c old = .ok (some new)) : Moves stage cs s (s.insert c.name new)

/-- Any number of moves, one after the other. -/
abbrev Runs (stage : Stage) (cs : List Constant) : States → States → Prop :=
  ReflTransGen (stage.Moves cs)

/-- No constant changes or fails. -/
def Stable (stage : Stage) (cs : List Constant) (s : States) : Prop :=
  ∀ c ∈ cs, ∀ old, s.find? c.name = some old → stage.step s c old = .ok none

/-- Some constant fails with this error. -/
def Fails (stage : Stage) (cs : List Constant) (s : States) (e : ResolutionError) : Prop :=
  ∃ c ∈ cs, ∃ old, s.find? c.name = some old ∧ stage.step s c old = .error e

variable {stage : Stage} {cs : List Constant} {s t : States}

/-- A step is taken only by what is not resolved. -/
theorem isResolved_eq_false_of_step {c : Constant} {old new : Resolution}
    (h : stage.step s c old = .ok (some new)) : old.isResolved = false := by
  have hlt := stage.approaches h
  cases old with
  | resolved value => simp [Resolution.distance] at hlt
  | pending rawValue => rfl
  | failed rawValue formula => rfl

theorem extends_of_moves (h : stage.Moves cs s t) : Extends s t := by
  obtain ⟨-, hf, hs⟩ := h
  exact States.extends_insert hf (isResolved_eq_false_of_step hs) _

theorem extends_of_runs (h : stage.Runs cs s t) : Extends s t := by
  induction h with
  | refl => exact .refl s
  | tail _ hm ih => exact ih.trans (extends_of_moves hm)

/-- A stage leaves alone what it has no step for. -/
theorem find?_of_runs {name : String} (h : stage.Runs cs s t)
    (hno : ∀ c ∈ cs, c.name = name → ∀ u old, stage.step u c old = .ok none) : t.find? name = s.find? name := by
  induction h with
  | refl => rfl
  | tail _ hm ih =>
    obtain ⟨hc, -, hs⟩ := hm
    rename_i c old new
    by_cases hn : name = c.name
    · rw [hno c hc hn.symm] at hs; cases hs
    · rw [NameMap.find?_insert_of_ne _ hn, ih]

/-! ## Runs as they are computed -/

/-- A pass over some of the constants is a run; if it changes nothing, none of them can move. -/
theorem runs_of_pass {part : List Constant} {changed : Bool} (hsub : ∀ c ∈ part, c ∈ cs)
    (h : stage.pass part s = .ok (t, changed)) :
    stage.Runs cs s t ∧ (changed = false → t = s ∧ stage.Stable part s) := by
  induction part generalizing s t changed with
  | nil =>
    simp only [pass, Except.ok.injEq, Prod.mk.injEq] at h
    obtain ⟨rfl, rfl⟩ := h
    refine ⟨.refl, fun _ => ⟨rfl, ?_⟩⟩
    intro c hc
    exact absurd hc List.not_mem_nil
  | cons c rest ih =>
    have hc := hsub c (List.mem_cons_self ..)
    have hrest : ∀ d ∈ rest, d ∈ cs := fun d hd => hsub d (List.mem_cons_of_mem _ hd)
    -- a constant that stays as it is adds nothing to the pass over the rest
    have skip (hstay : ∀ old, s.find? c.name = some old → stage.step s c old = .ok none)
        (hr : stage.pass rest s = .ok (t, changed)) :
        stage.Runs cs s t ∧ (changed = false → t = s ∧ stage.Stable (c :: rest) s) := by
      obtain ⟨hrun, hend⟩ := ih hrest hr
      refine ⟨hrun, fun hf => ⟨(hend hf).1, ?_⟩⟩
      intro d hd old hold
      rcases List.mem_cons.1 hd with rfl | hd
      · exact hstay old hold
      · exact (hend hf).2 d hd old hold
    simp only [pass] at h
    split at h
    · rename_i hnone
      exact skip (fun old hold => by rw [hnone] at hold; cases hold) h
    · rename_i old hold
      split at h
      · cases h
      · rename_i hstep
        exact skip (fun old' hold' => by rw [hold] at hold'; cases hold'; exact hstep) h
      · rename_i new hstep
        cases hp : stage.pass rest (s.insert c.name new) with
        | error e => simp [hp, Except.map] at h
        | ok p =>
          obtain ⟨t', changed'⟩ := p
          simp only [hp, Except.map, Except.ok.injEq, Prod.mk.injEq] at h
          obtain ⟨rfl, rfl⟩ := h
          refine ⟨.head (.intro hc hold hstep) (ih hrest hp).1, ?_⟩
          rintro ⟨⟩

theorem fails_of_pass {part : List Constant} {e : ResolutionError} (hsub : ∀ c ∈ part, c ∈ cs)
    (h : stage.pass part s = .error e) : ∃ t, stage.Runs cs s t ∧ stage.Fails cs t e := by
  induction part generalizing s with
  | nil => cases h
  | cons c rest ih =>
    have hc := hsub c (List.mem_cons_self ..)
    have hrest : ∀ d ∈ rest, d ∈ cs := fun d hd => hsub d (List.mem_cons_of_mem _ hd)
    simp only [pass] at h
    split at h
    · exact ih hrest h
    · rename_i old hold
      split at h
      · rename_i e' hstep
        cases h
        exact ⟨s, .refl, c, hc, old, hold, hstep⟩
      · exact ih hrest h
      · rename_i new hstep
        cases hp : stage.pass rest (s.insert c.name new) with
        | ok p => simp [hp, Except.map] at h
        | error e' =>
          simp only [hp, Except.map, Except.error.injEq] at h
          subst h
          obtain ⟨t, hrun, hfail⟩ := ih hrest hp
          exact ⟨t, .head (.intro hc hold hstep) hrun, hfail⟩

theorem untilStable_eq (stage : Stage) (cs : List Constant) (s : States) :
    stage.untilStable cs s = match stage.pass cs s with
      | .error e => .error e
      | .ok (after, false) => .ok (after, 1)
      | .ok (after, true) => (stage.untilStable cs after).map fun (t, n) => (t, n + 1) := by
  rw [untilStable]
  split <;> simp_all

/-- A stage that ends has run to a state where nothing moves. -/
theorem runs_of_untilStable {n : Nat} (h : stage.untilStable cs s = .ok (t, n)) :
    stage.Runs cs s t ∧ stage.Stable cs t := by
  induction hd : distance s using Nat.strongRecOn generalizing s t n with
  | ind d ih =>
    rw [untilStable_eq] at h
    split at h
    · cases h
    · rename_i after hp
      cases h
      obtain ⟨hrun, hend⟩ := runs_of_pass (fun _ hc => hc) hp
      obtain ⟨rfl, hst⟩ := hend rfl
      exact ⟨hrun, hst⟩
    · rename_i after hp
      cases hu : stage.untilStable cs after with
      | error e => simp [hu, Except.map] at h
      | ok p =>
        simp only [hu, Except.map, Except.ok.injEq, Prod.mk.injEq] at h
        obtain ⟨rfl, -⟩ := h
        obtain ⟨hrun, hst⟩ := ih _ (hd ▸ (distance_pass hp).2 rfl) hu rfl
        exact ⟨(runs_of_pass (fun _ hc => hc) hp).1.trans hrun, hst⟩

/-- A stage that does not end has run to a state where a constant fails. -/
theorem fails_of_untilStable {e : ResolutionError} (h : stage.untilStable cs s = .error e) :
    ∃ t, stage.Runs cs s t ∧ stage.Fails cs t e := by
  induction hd : distance s using Nat.strongRecOn generalizing s with
  | ind d ih =>
    rw [untilStable_eq] at h
    split at h
    · rename_i e' hp
      cases h
      exact fails_of_pass (fun _ hc => hc) hp
    · cases h
    · rename_i after hp
      cases hu : stage.untilStable cs after with
      | ok p => simp [hu, Except.map] at h
      | error e' =>
        simp only [hu, Except.map, Except.error.injEq] at h
        subst h
        obtain ⟨t, hrun, hfail⟩ := ih _ (hd ▸ (distance_pass hp).2 rfl) hu rfl
        exact ⟨t, (runs_of_pass (fun _ hc => hc) hp).1.trans hrun, hfail⟩

/-! ## Sources -/

/-- No step reads where its constant was declared. -/
def IgnoresSources (stage : Stage) : Prop := ∀ s c old, stage.step s c.bare old = stage.step s c old

theorem aliases_ignoresSources : aliases.IgnoresSources := fun _ _ _ => rfl

theorem formulas_ignoresSources (limits : Formula.Limits) : (formulas limits).IgnoresSources := fun _ _ _ => rfl

theorem lists_ignoresSources (limits : Formula.Limits) : (lists limits).IgnoresSources := fun _ _ _ => rfl

theorem IgnoresSources.pass_bare (h : stage.IgnoresSources) :
    stage.pass (cs.map Constant.bare) s = stage.pass cs s := by
  induction cs generalizing s with
  | nil => rfl
  | cons c rest ih =>
    simp only [List.map_cons, pass, Constant.name_bare, h s c, ih]

theorem IgnoresSources.untilStable_bare (h : stage.IgnoresSources) :
    stage.untilStable (cs.map Constant.bare) s = stage.untilStable cs s := by
  induction hd : distance s using Nat.strongRecOn generalizing s with
  | ind d ih =>
    rw [untilStable_eq, untilStable_eq, h.pass_bare]
    split
    · rfl
    · rfl
    · rename_i after hp
      rw [ih _ (hd ▸ (distance_pass hp).2 rfl) rfl]

end Stage

/-! ## All stages -/

/-- The four stages ran one after the other, each until nothing moved. -/
structure StageRuns (limits : Formula.Limits) (cs : List Constant) (s₀ s₁ s₂ s₃ s₄ : States) : Prop where
  aliases : Stage.aliases.Runs cs s₀ s₁
  aliasesEnd : Stage.aliases.Stable cs s₁
  formulas : (Stage.formulas limits).Runs cs s₁ s₂
  formulasEnd : (Stage.formulas limits).Stable cs s₂
  lists : (Stage.lists limits).Runs cs s₂ s₃
  listsEnd : (Stage.lists limits).Stable cs s₃
  listAliases : Stage.aliases.Runs cs s₃ s₄
  listAliasesEnd : Stage.aliases.Stable cs s₄

namespace Resolved

theorem runStages_bare (limits : Formula.Limits) (cs : List Constant) (s : States) :
    runStages limits (cs.map Constant.bare) s = runStages limits cs s := by
  simp only [runStages, Stage.aliases_ignoresSources.untilStable_bare,
    (Stage.formulas_ignoresSources limits).untilStable_bare, (Stage.lists_ignoresSources limits).untilStable_bare]

theorem initial_bare (table : Table) : States.initial table.bare = States.initial table := by
  simp only [States.initial, Table.bare, NameMap.map, List.map_map]
  rfl

/-- A table resolves alike wherever its constants were declared. -/
theorem ofTable_bare (table : Table) (settings : Settings) : ofTable table.bare settings = ofTable table settings := by
  rw [ofTable, ofTable, initial_bare, table.values_bare, runStages_bare]

theorem stageRuns_of_runStages {limits : Formula.Limits} {cs : List Constant} {s t : States} {n : Nat}
    (h : runStages limits cs s = .ok (t, n)) : ∃ s₁ s₂ s₃, StageRuns limits cs s s₁ s₂ s₃ t := by
  unfold runStages at h
  obtain ⟨⟨s₁, n₁⟩, h1, h⟩ := except_bind_ok h
  obtain ⟨⟨s₂, n₂⟩, h2, h⟩ := except_bind_ok h
  obtain ⟨⟨s₃, n₃⟩, h3, h⟩ := except_bind_ok h
  obtain ⟨⟨s₄, n₄⟩, h4, h⟩ := except_bind_ok h
  cases h
  obtain ⟨r1, e1⟩ := Stage.runs_of_untilStable h1
  obtain ⟨r2, e2⟩ := Stage.runs_of_untilStable h2
  obtain ⟨r3, e3⟩ := Stage.runs_of_untilStable h3
  obtain ⟨r4, e4⟩ := Stage.runs_of_untilStable h4
  exact ⟨s₁, s₂, s₃, r1, e1, r2, e2, r3, e3, r4, e4⟩

theorem eq_of_conclude {settings : Settings} {t : States} {n : Nat} {r : Resolved} (h : conclude settings t n = .ok r) :
    r = ⟨settings, t, n⟩ := by
  unfold conclude at h
  split at h
  · cases h
  · cases h
    rfl

/-- A result has the states and the passes of the stages, and the settings that it was made with. -/
theorem runStages_of_ofTable {table : Table} {settings : Settings} {r : Resolved} (h : ofTable table settings = .ok r) :
    runStages settings.limits table.constants.values (States.initial table) = .ok (r.states, r.passes) ∧
      r.settings = settings := by
  obtain ⟨⟨t, n⟩, hrun, h⟩ := except_bind_ok h
  obtain rfl := eq_of_conclude h
  exact ⟨hrun, rfl⟩

/-- A table that resolves has gone through all stages, from its initial states to the result. -/
theorem stageRuns_of_ofTable {table : Table} {settings : Settings} {r : Resolved}
    (h : ofTable table settings = .ok r) :
    ∃ s₁ s₂ s₃, StageRuns settings.limits table.constants.values (States.initial table) s₁ s₂ s₃ r.states :=
  stageRuns_of_runStages (runStages_of_ofTable h).1

end Resolved

end Stylesheet
