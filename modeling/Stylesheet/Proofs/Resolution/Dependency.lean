/-
What constants depend on, and why nothing resolves out of a cycle. Each of the three steps resolves a
constant only when everything its references mention is resolved already, so along every run each
resolved constant is accessible: all chains of dependencies below it end. A constant that depends on
itself has a chain that does not.
-/
import Stylesheet.Proofs.Resolution.Steps

namespace Stylesheet

open Relation (ReflTransGen TransGen)
open States (Extends)

/-! ## Dependencies -/

namespace Table

/-- The constant of this name waits at first, and its references mention another of the table. -/
def DependsOn (table : Table) (name dependency : String) : Prop :=
  ∃ c, table.constants.find? name = some c ∧ States.initialOf c = .pending c.rawValue ∧
    dependency ∈ c.mentions ∧ table.constants.contains dependency = true

variable {table : Table} {name dependency : String}

theorem not_dependsOn_of_initial {value : Settled}
    (h : (States.initial table).find? name = some (.resolved value)) : ¬ table.DependsOn name dependency := by
  rintro ⟨c, hc, hw, -, -⟩
  rw [States.find?_initial, hc, Option.map_some, hw] at h
  cases h

/-- A constant that is ready has all its dependencies. -/
theorem resolves_of_readyFor {s : States} {c : Constant} (hc : c ∈ table.constants.values)
    (hs : ∀ n, s.contains n = table.constants.contains n) (hready : s.ReadyFor c)
    (h : table.DependsOn c.name dependency) : s.Resolves dependency := by
  obtain ⟨c', hc', -, hm, hk⟩ := h
  rw [table.find?_of_mem hc] at hc'
  cases hc'
  exact hready dependency hm (by rw [hs]; exact hk)

end Table

/-! ## The invariant -/

/-- Whatever is resolved has its dependencies resolved, and no chain of dependencies below it goes on
for ever. -/
structure Grounded (table : Table) (s : States) : Prop where
  contains : ∀ name, s.contains name = table.constants.contains name
  dependencies : ∀ {name dependency}, table.DependsOn name dependency → s.Resolves name → s.Resolves dependency
  accessible : ∀ {name}, s.Resolves name → Acc (fun dependency name => table.DependsOn name dependency) name

theorem grounded_initial (table : Table) : Grounded table (States.initial table) := by
  constructor
  case contains => exact States.contains_initial table
  -- only what waits has dependencies
  case dependencies =>
    rintro name dependency hd ⟨value, hv⟩
    exact absurd hd (table.not_dependsOn_of_initial hv)
  case accessible =>
    rintro name ⟨value, hv⟩
    refine ⟨_, fun dependency hd => ?_⟩
    exact absurd hd (table.not_dependsOn_of_initial hv)

theorem Grounded.moves {table : Table} {s t : States} {stage : Stage} (h : Grounded table s) (hl : stage.Lawful)
    (hm : stage.Moves table.constants.values s t) : Grounded table t := by
  have hext := Stage.extends_of_moves hm
  obtain ⟨hc, hf, hs⟩ := hm
  rename_i c old new
  have hready : ∀ {dependency}, table.DependsOn c.name dependency → s.Resolves dependency := by
    intro dependency hd
    exact table.resolves_of_readyFor hc h.contains (hl.waits hs) hd
  have hother : ∀ {name}, name ≠ c.name → States.Resolves (s.insert c.name new) name → s.Resolves name := by
    rintro name hn ⟨value, hv⟩
    rw [NameMap.find?_insert_of_ne _ hn] at hv
    exact ⟨value, hv⟩
  constructor
  case contains =>
    intro name
    exact (hext.contains name).trans (h.contains name)
  case dependencies =>
    intro name dependency hd hr
    by_cases hn : name = c.name
    · subst hn; exact hext.resolves (hready hd)
    · exact hext.resolves (h.dependencies hd (hother hn hr))
  case accessible =>
    intro name hr
    by_cases hn : name = c.name
    · subst hn; exact ⟨_, fun dependency hd => h.accessible (hready hd)⟩
    · exact h.accessible (hother hn hr)

theorem Grounded.runs {table : Table} {s t : States} {stage : Stage} (h : Grounded table s) (hl : stage.Lawful)
    (hr : stage.Runs table.constants.values s t) : Grounded table t := by
  induction hr with
  | refl => exact h
  | tail _ hm ih => exact ih.moves hl hm

/-- The invariant holds between the stages and at the end. -/
theorem grounded_of_stageRuns {table : Table} {limits : Formula.Limits} {s₁ s₂ s₃ s₄ : States}
    (h : StageRuns limits table.constants.values (States.initial table) s₁ s₂ s₃ s₄) :
    Grounded table s₁ ∧ Grounded table s₂ ∧ Grounded table s₃ ∧ Grounded table s₄ := by
  have h1 := (grounded_initial table).runs aliases_lawful h.aliases
  have h2 := h1.runs (formulas_lawful limits) h.formulas
  have h3 := h2.runs (lists_lawful limits) h.lists
  exact ⟨h1, h2, h3, h3.runs aliases_lawful h.listAliases⟩

/-! ## Cycles -/

/-- Below an accessible element there is no cycle. -/
theorem not_transGen_of_acc {α : Type} {r : α → α → Prop} {a : α} (h : Acc (fun b a => r a b) a) :
    ¬ TransGen r a a := by
  induction h with
  | intro a _ ih =>
    intro hc
    obtain ⟨b, hab, hba⟩ := Relation.TransGen.head'_iff.1 hc
    exact ih b hab (Relation.TransGen.tail' hba hab)

namespace Resolved

/-- Nothing is resolved out of a cycle: what is resolved has all its dependencies resolved, the
dependencies of resolved constants are well-founded, and no constant that depends on itself, be it
through others, is resolved. -/
theorem ofTable_grounded {table : Table} {settings : Settings} {r : Resolved}
    (h : ofTable table settings = .ok r) :
    (∀ name dependency, table.DependsOn name dependency → r.states.Resolves name → r.states.Resolves dependency) ∧
    WellFounded (fun dependency name => table.DependsOn name dependency ∧ r.states.Resolves name) ∧
    ∀ name, TransGen table.DependsOn name name → ¬ r.states.Resolves name := by
  obtain ⟨s₁, s₂, s₃, hruns⟩ := stageRuns_of_ofTable h
  have hg := (grounded_of_stageRuns hruns).2.2.2
  refine ⟨?_, ⟨?_⟩, ?_⟩
  · intro name dependency hd hr
    exact hg.dependencies hd hr
  · intro name
    by_cases hr : r.states.Resolves name
    · exact Subrelation.accessible (fun h => h.1) (hg.accessible hr)
    · exact ⟨_, fun dependency hd => absurd hd.2 hr⟩
  · intro name hc hr
    exact not_transGen_of_acc (hg.accessible hr) hc

/-- Next to two constants that name each other, which stay unresolved, others resolve. -/
theorem ofTable_grounded_cycle :
    let settings : Settings := { strict := false }
    let table := Table.ofDeclarations settings
      [("left", "@right+1", none), ("right", "@left", none), ("wide", "@gap*2", none), ("gap", "4px", none)]
    ∃ r, ofTable table settings = .ok r ∧ r.unresolved = ["left", "right"] ∧
      TransGen table.DependsOn "left" "left" ∧ ¬ r.states.Resolves "left" := by
  intro settings table
  obtain ⟨r, hr, hu⟩ : ∃ r, ofTable table settings = .ok r ∧ r.unresolved = ["left", "right"] :=
    exists_ok_of_toOption (by decide +kernel)
  have hleft : table.DependsOn "left" "right" :=
    ⟨.define settings "left" "@right+1" none (.scalar .null),
      rfl, by decide +kernel, by decide +kernel, by decide +kernel⟩
  have hright : table.DependsOn "right" "left" :=
    ⟨.define settings "right" "@left" none (.scalar .null),
      rfl, by decide +kernel, by decide +kernel, by decide +kernel⟩
  have hcycle : TransGen table.DependsOn "left" "left" := .tail (.single hleft) hright
  exact ⟨r, hr, hu, hcycle, (ofTable_grounded hr).2.2 "left" hcycle⟩

end Resolved

end Stylesheet
