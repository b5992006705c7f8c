/-
What the aliases come to at first. An alias takes over the value of the constant that it names, so a value comes
to an alias along the chain of aliases that begins there, from the end of the chain. A run of the aliases makes no
other values (`Fed`), and where no alias moves any more every value has come to all chains that it ends
(`Resolved.aliases_chainEnds`). A chain that comes back to itself, leads out of the table or ends at a constant that
waits brings none.
-/
import Stylesheet.Proofs.Resolution.Steps

namespace Stylesheet

open States (Extends)

/-! ## Chains -/

namespace Table

/-- The constant of this name is a single value that refers to the other name and to nothing else. -/
def AliasOf (table : Table) (name target : String) : Prop :=
  ∃ c, table.constants.find? name = some c ∧ c.isComposite = false ∧ aliasTarget? c.rawValue.toList = some target

/-- From one name aliases lead to another, by no name twice. -/
def LeadsTo (table : Table) (name last : String) : Prop :=
  ∃ rest, (name :: rest).Nodup ∧ (name :: rest).IsChain table.AliasOf ∧ rest.getLast? = some last

variable {table : Table} {name target other : String}

theorem AliasOf.unique (h : table.AliasOf name target) (h' : table.AliasOf name other) : target = other := by
  obtain ⟨c, hfind, -, ht⟩ := h
  obtain ⟨d, hfind', -, ht'⟩ := h'
  rw [hfind] at hfind'
  cases hfind'
  exact Option.some.inj (ht.symm.trans ht')

/-- No alias has its value at first. -/
theorem AliasOf.not_resolves (h : table.AliasOf name target) : ¬ (States.initial table).Resolves name := by
  obtain ⟨c, hfind, hcomp, ht⟩ := h
  obtain ⟨href, -, -⟩ := formula_of_aliasTarget? ht
  rintro ⟨value, hvalue⟩
  rw [States.find?_initial, hfind, Option.map_some, States.initialOf_of_isReference hcomp href] at hvalue
  cases hvalue

end Table

/-! ## Runs -/

variable {table : Table} {s t : States} {name target : String} {value : Settled} {path : List String}

/-- All names of the chain have the value, which the last of them had at first. -/
structure Carries (table : Table) (s : States) (value : Settled) (path : List String) : Prop where
  nodup : path.Nodup
  isChain : path.IsChain table.AliasOf
  fromEnd : ∃ last, path.getLast? = some last ∧ (States.initial table).find? last = some (.resolved value)
  carried : ∀ name ∈ path, s.find? name = some (.resolved value)

theorem Carries.extends (h : Carries table s value path) (hext : Extends s t) : Carries table t value path :=
  { h with carried := fun name hname => hext.resolved (h.carried name hname) }

/-- The chain grows at its beginning by an alias that gets the value. -/
theorem Carries.cons (h : Carries table s value (target :: path)) (hext : Extends s t)
    (halias : table.AliasOf name target)
    (hold : ¬ s.Resolves name) (hnew : t.find? name = some (.resolved value)) :
    Carries table t value (name :: target :: path) where
  nodup := List.nodup_cons.2 ⟨fun hmem => hold ⟨value, h.carried name hmem⟩, h.nodup⟩
  isChain := h.isChain.cons_cons halias
  fromEnd := by
    obtain ⟨last, hlast, hvalue⟩ := h.fromEnd
    exact ⟨last, by rw [List.getLast?_cons_cons, hlast], hvalue⟩
  carried := List.forall_mem_cons.2 ⟨hnew, (h.extends hext).carried⟩

/-- Every value has come along a chain, and what has none is as it was at first. -/
structure Fed (table : Table) (s : States) : Prop where
  names : s.names = (States.initial table).names
  kept : ∀ {name}, ¬ s.Resolves name → s.find? name = (States.initial table).find? name
  carries : ∀ {name value}, s.find? name = some (.resolved value) → ∃ path, Carries table s value (name :: path)

theorem fed_initial (table : Table) : Fed table (States.initial table) where
  names := rfl
  kept _ := rfl
  carries {name value} h := ⟨[], by simp, .singleton name, ⟨name, rfl, h⟩, by simpa using h⟩

theorem Fed.moves (h : Fed table s) (hm : Stage.aliases.Moves table.constants.values s t) : Fed table t := by
  have hext := Stage.extends_of_moves hm
  obtain ⟨hc, hf, hs⟩ := hm
  rename_i c old new
  have hold : ¬ s.Resolves c.name := by
    rw [← States.isResolved_iff hf, Stage.isResolved_eq_false_of_step hs]
    exact Bool.false_ne_true
  obtain ⟨hcomp, target, value, ht, htarget, rfl⟩ := aliasStep_some hs
  constructor
  case names =>
    have hmem : c.name ∈ s.names := (NameMap.mem_names_iff s c.name).2 ((NameMap.contains_iff s c.name).2 ⟨old, hf⟩)
    rw [NameMap.names_insert, if_pos hmem, h.names]
  case kept =>
    intro name hname
    by_cases hn : name = c.name
    · exact absurd ⟨value, hn ▸ NameMap.find?_insert_self ..⟩ hname
    · rw [NameMap.find?_insert_of_ne _ hn]
      exact h.kept fun hr => hname (hext.resolves hr)
  case carries =>
    intro name v hv
    by_cases hn : name = c.name
    · -- the value is the target's, which has come along a chain itself
      subst hn
      rw [NameMap.find?_insert_self] at hv
      cases hv
      obtain ⟨path, hpath⟩ := h.carries htarget
      exact ⟨_, hpath.cons hext ⟨c, table.find?_of_mem hc, hcomp, ht⟩ hold (NameMap.find?_insert_self ..)⟩
    · rw [NameMap.find?_insert_of_ne _ hn] at hv
      obtain ⟨path, hpath⟩ := h.carries hv
      exact ⟨path, hpath.extends hext⟩

theorem Fed.runs (h : Fed table s) (hrun : Stage.aliases.Runs table.constants.values s t) : Fed table t := by
  induction hrun with
  | refl => exact h
  | tail _ hm ih => exact ih.moves hm

/-- A value that was not there at first has come by way of another name. -/
theorem Fed.carries_target (h : Fed table s) (hvalue : s.find? name = some (.resolved value))
    (hinitial : ¬ (States.initial table).Resolves name) :
    ∃ target path, Carries table s value (name :: target :: path) := by
  obtain ⟨path, hpath⟩ := h.carries hvalue
  cases path with
  | nil =>
    obtain ⟨last, hlast, hfirst⟩ := hpath.fromEnd
    obtain rfl : name = last := by simpa using hlast
    exact absurd ⟨value, hfirst⟩ hinitial
  | cons target path => exact ⟨target, path, hpath⟩

theorem Fed.leadsTo (h : Fed table s) (hvalue : s.find? name = some (.resolved value))
    (hinitial : ¬ (States.initial table).Resolves name) :
    ∃ last, table.LeadsTo name last ∧ (States.initial table).find? last = some (.resolved value) := by
  obtain ⟨target, path, hnodup, hchain, ⟨last, hlast, hfirst⟩, -⟩ := h.carries_target hvalue hinitial
  rw [List.getLast?_cons_cons] at hlast
  exact ⟨last, ⟨target :: path, hnodup, hchain, hlast⟩, hfirst⟩

/-! ## Where no alias moves -/

/-- An alias has the value of its target. -/
theorem Fed.resolved_of_target (h : Fed table s) (hend : Stage.aliases.Stable table.constants.values s)
    (halias : table.AliasOf name target) (htarget : s.find? target = some (.resolved value)) :
    s.find? name = some (.resolved value) := by
  have hinitial := halias.not_resolves
  obtain ⟨c, hfind, hcomp, ht⟩ := id halias
  obtain ⟨hc, rfl⟩ := (table.find?_constants_iff name c).1 hfind
  have hk : s.contains c.name = true := by
    rw [← NameMap.mem_names_iff, h.names, NameMap.mem_names_iff, States.contains_initial, NameMap.contains_iff]
    exact ⟨c, hfind⟩
  obtain ⟨v, hv⟩ := hend.resolves_of_target hc hk hcomp ht ⟨value, htarget⟩
  -- its value has come by way of the target
  obtain ⟨next, path, -, hchain, -, hcarried⟩ := h.carries_target hv hinitial
  obtain rfl := (List.isChain_cons_cons.1 hchain).1.unique halias
  have hnext := hcarried next (by simp)
  rw [htarget] at hnext
  rw [hv, hnext]

theorem Fed.resolved_of_isChain (h : Fed table s) (hend : Stage.aliases.Stable table.constants.values s)
    {last : String} (hlast : s.find? last = some (.resolved value)) (hchain : (name :: path).IsChain table.AliasOf)
    (hpath : (name :: path).getLast? = some last) : s.find? name = some (.resolved value) := by
  induction path generalizing name with
  | nil =>
    obtain rfl : name = last := by simpa using hpath
    exact hlast
  | cons next path ih =>
    obtain ⟨halias, hrest⟩ := List.isChain_cons_cons.1 hchain
    rw [List.getLast?_cons_cons] at hpath
    exact h.resolved_of_target hend halias (ih hrest hpath)

/-- The value of the end of a chain has come to its beginning. -/
theorem Fed.resolved_of_leadsTo (h : Fed table s) (hext : Extends (States.initial table) s)
    (hend : Stage.aliases.Stable table.constants.values s) {last : String} (hlead : table.LeadsTo name last)
    (hlast : (States.initial table).find? last = some (.resolved value)) : s.find? name = some (.resolved value) := by
  obtain ⟨rest, -, hchain, hrest⟩ := hlead
  refine h.resolved_of_isChain hend (hext.resolved hlast) hchain ?_
  cases rest with
  | nil => cases hrest
  | cons next rest => rw [List.getLast?_cons_cons, hrest]

/-! ## The theorem -/

namespace Resolved

/-- Going through the aliases until none changes comes to an end, whatever the table. Then an alias is resolved
if and only if aliases lead from it to a constant that was resolved at first, by no constant twice. It has the
text, number and unit of that constant, and all else is as it was. -/
theorem aliases_chainEnds (table : Table) :
    ∃ t passes, Stage.aliases.untilStable table.constants.values (States.initial table) = .ok (t, passes) ∧
      (∀ name target, table.AliasOf name target →
        (t.Resolves name ↔ ∃ last, table.LeadsTo name last ∧ (States.initial table).Resolves last)) ∧
      (∀ name last value, table.LeadsTo name last → (States.initial table).find? last = some (.resolved value) →
        t.find? name = some (.resolved value)) ∧
      (∀ name, (∀ last, table.LeadsTo name last → ¬ (States.initial table).Resolves last) →
        t.find? name = (States.initial table).find? name) ∧
      t.names = (States.initial table).names := by
  cases hrun : Stage.aliases.untilStable table.constants.values (States.initial table) with
  | error e =>
    obtain ⟨u, -, c, -, old, -, hfails⟩ := Stage.fails_of_untilStable hrun
    exact absurd hfails (aliasStep_ne_error e)
  | ok p =>
    obtain ⟨t, passes⟩ := p
    obtain ⟨hruns, hend⟩ := Stage.runs_of_untilStable hrun
    have hext := Stage.extends_of_runs hruns
    have hfed := (fed_initial table).runs hruns
    refine ⟨t, passes, rfl, fun name target halias => ?_, fun name last value hlead hlast => ?_,
      fun name hnone => ?_, hfed.names⟩
    · constructor
      · rintro ⟨value, hvalue⟩
        obtain ⟨last, hlead, hlast⟩ := hfed.leadsTo hvalue halias.not_resolves
        exact ⟨last, hlead, value, hlast⟩
      · rintro ⟨last, hlead, value, hlast⟩
        exact ⟨value, hfed.resolved_of_leadsTo hext hend hlead hlast⟩
    · exact hfed.resolved_of_leadsTo hext hend hlead hlast
    · by_cases hresolves : t.Resolves name
      · obtain ⟨value, hvalue⟩ := hresolves
        by_cases hinitial : (States.initial table).Resolves name
        · obtain ⟨first, hfirst⟩ := hinitial
          rw [hfirst, hext.resolved hfirst]
        · obtain ⟨last, hlead, hlast⟩ := hfed.leadsTo hvalue hinitial
          exact absurd ⟨value, hlast⟩ (hnone last hlead)
      · exact hfed.kept hresolves

/-- Declared in whatever order, an alias of an alias has the number at the end of its chain, and two aliases of each
other have none. -/
theorem aliases_chainEnds_cycle :
    let table := Table.ofDeclarations {}
      [("wide", "@mid", none), ("left", "@right", none), ("gap", "4px", none), ("mid", "@gap", none),
        ("right", "@left", none)]
    ∃ t passes, Stage.aliases.untilStable table.constants.values (States.initial table) = .ok (t, passes) ∧
      t.find? "wide" = some (.resolved ⟨"4px", some (.ofInt 4), some "px"⟩) ∧ ¬ t.Resolves "left" ∧
      t.find? "left" = some (.pending "@right") := by
  intro table
  have hwide : table.AliasOf "wide" "mid" := ⟨.define {} "wide" "@mid" none (.scalar .null), rfl, by decide, by decide⟩
  have hmid : table.AliasOf "mid" "gap" := ⟨.define {} "mid" "@gap" none (.scalar .null), rfl, by decide, by decide⟩
  have hleft : table.AliasOf "left" "right" :=
    ⟨.define {} "left" "@right" none (.scalar .null), rfl, by decide, by decide⟩
  have hright : table.AliasOf "right" "left" :=
    ⟨.define {} "right" "@left" none (.scalar .null), rfl, by decide, by decide⟩
  -- from one constant of the cycle there is no way but to the other, and from there none that comes by no name twice
  have hnone (last : String) (hlead : table.LeadsTo "left" last) : ¬ (States.initial table).Resolves last := by
    obtain ⟨rest, hnodup, hchain, hlast⟩ := hlead
    match rest with
    | [] => cases hlast
    | [next] =>
      obtain rfl := (List.isChain_cons_cons.1 hchain).1.unique hleft
      cases hlast
      exact hright.not_resolves
    | next :: other :: rest =>
      obtain ⟨hnext, hrest⟩ := List.isChain_cons_cons.1 hchain
      obtain rfl := hnext.unique hleft
      obtain rfl := (List.isChain_cons_cons.1 hrest).1.unique hright
      simp at hnodup
  obtain ⟨t, passes, hrun, hresolves, hvalue, hkept, -⟩ := aliases_chainEnds table
  refine ⟨t, passes, hrun, ?_, ?_, (hkept "left" hnone).trans rfl⟩
  · refine hvalue "wide" "gap" _ ⟨["mid", "gap"], by decide, ?_, rfl⟩ (by decide +kernel)
    exact .cons_cons hwide (.cons_cons hmid (.singleton "gap"))
  · rw [hresolves "left" "right" hleft]
    rintro ⟨last, hlead, hlast⟩
    exact hnone last hlead hlast

end Resolved

end Stylesheet
