/-
A constant resolves alike in all tables that agree on what its references lead to. A step reads only the
names that its constant mentions (`Stage.Local`). So a run over the constants of a table, seen on a set of
names that holds what it mentions, is a run over the constants of these names: the moves of all others
leave no trace. Two tables that agree on such a set have the same constants there, up to where they were
declared, and so the same end (`Stage.same_of_runs`).
-/
import Stylesheet.Proofs.Resolution.Acyclic
import Stylesheet.Proofs.Resolution.Order

namespace Stylesheet

open Formula (names evaluate)
open Relation (ReflTransGen)

/-! ## Some names of a map -/

namespace NameMap

variable {α : Type}

/-- The entries of some names. -/
def restrict (m : NameMap α) (p : String → Bool) : NameMap α :=
  ⟨m.entries.filter fun entry => p entry.1, m.nodup.sublist ((List.filter_sublist).map _)⟩

theorem find?_restrict (m : NameMap α) (p : String → Bool) (name : String) :
    (m.restrict p).find? name = if p name then m.find? name else none := by
  ext value
  rw [find?_eq_some_iff, restrict, List.mem_filter, ← find?_eq_some_iff]
  split
  · rename_i hp
    exact and_iff_left hp
  · rename_i hp
    exact iff_of_false (fun h => hp h.2) (by rintro ⟨⟩)

theorem filter_insertEntry (p : String → Bool) (name : String) (value : α) (entries : List (String × α)) :
    (insertEntry name value entries).filter (fun entry => p entry.1) =
      if p name then insertEntry name value (entries.filter fun entry => p entry.1)
      else entries.filter fun entry => p entry.1 := by
  induction entries with
  | nil => cases hp : p name <;> simp [insertEntry, hp]
  | cons entry rest ih =>
    by_cases hn : entry.1 = name
    · cases hp : p name <;> simp [insertEntry, hn, hp]
    · cases hp : p name <;> cases hq : p entry.1 <;> simp [insertEntry, hn, hp, hq] at ih ⊢ <;> exact ih

theorem restrict_insert (m : NameMap α) (p : String → Bool) (name : String) (value : α) :
    (m.insert name value).restrict p = if p name then (m.restrict p).insert name value else m.restrict p := by
  have hentries := filter_insertEntry p name value m.entries
  split
  · rename_i hp
    rw [if_pos hp] at hentries
    simp only [restrict, insert, hentries]
  · rename_i hp
    rw [if_neg hp] at hentries
    simp only [restrict, insert, hentries]

end NameMap

/-! ## What a step reads -/

variable {limits : Formula.Limits} {stage : Stage} {cs ds : List Constant} {s t : States} {c : Constant}
  {old : Resolution} {p : String → Bool}

namespace States

theorem unknownName?_congr {f : String} (h : ∀ name ∈ names f, s.find? name = t.find? name) :
    unknownName? s f = unknownName? t f := by
  unfold unknownName? NameMap.contains
  exact List.find?_congr fun name hn => by rw [h name hn]

theorem waitingFor_congr {f : String} (h : ∀ name ∈ names f, s.find? name = t.find? name) :
    s.waitingFor f = t.waitingFor f := by
  unfold waitingFor
  exact List.filter_congr fun name hn => by rw [h name hn]

theorem readyFor_congr (h : ∀ name ∈ c.mentions, s.find? name = t.find? name) : s.ReadyFor c ↔ t.ReadyFor c := by
  unfold ReadyFor Resolves NameMap.contains
  exact forall₂_congr fun name hn => by rw [h name hn]

end States

/-- A step depends on the names that its constant mentions, and not on where that was declared. -/
structure Stage.Local (stage : Stage) : Prop where
  congr : ∀ {s t c old}, s.Identifiers → t.Identifiers → (∀ name ∈ c.mentions, s.find? name = t.find? name) →
    stage.step s c old = stage.step t c old
  bare : stage.IgnoresSources

theorem aliases_local : Stage.aliases.Local := by
  constructor
  case congr =>
    intro s t c old _ _ h
    show aliasStep s c old = aliasStep t c old
    by_cases hkind : c.isComposite = true ∨ aliasTarget? c.rawValue.toList = none
    · rw [aliasStep_of_not_alias hkind, aliasStep_of_not_alias hkind]
    · rw [not_or, Bool.not_eq_true] at hkind
      obtain ⟨target, ht⟩ := Option.ne_none_iff_exists'.1 hkind.2
      obtain ⟨href, -, hnames⟩ := formula_of_aliasTarget? ht
      rw [Constant.mentions_of_isReference hkind.1 href, hnames] at h
      unfold aliasStep
      rw [ht, Option.bind_some, Option.bind_some, h target (List.mem_singleton_self _)]
  case bare => exact Stage.aliases_ignoresSources

theorem formulas_local (limits : Formula.Limits) : (Stage.formulas limits).Local := by
  constructor
  case congr =>
    intro s t c old _ _ h
    show formulaStep limits s c old = formulaStep limits t c old
    by_cases hkind : c.isComposite = true ∨ c.isReference = false
    · rw [formulaStep_of_not_single hkind, formulaStep_of_not_single hkind]
    · rw [not_or, Bool.not_eq_true, Bool.not_eq_false] at hkind
      obtain ⟨hc, hr⟩ := hkind
      rw [Constant.mentions_of_isReference hc hr] at h
      cases old with
      | resolved value => rfl
      | failed rawValue formula => rfl
      | pending rawValue =>
        rw [formulaStep_eq hc hr, formulaStep_eq hc hr, States.unknownName?_congr h, States.waitingFor_congr h,
          States.evaluate_numbers_congr limits h]
        unfold formulaOutcome
        rw [States.inferUnit_congr h]
  case bare => exact Stage.formulas_ignoresSources limits

theorem lists_local (limits : Formula.Limits) : (Stage.lists limits).Local := by
  constructor
  case congr =>
    intro s t c old hs ht h
    show listStep limits s c old = listStep limits t c old
    by_cases hc : c.isComposite = true
    · by_cases hold : old.isResolved = true
      · simp [listStep, hold]
      · rw [Bool.not_eq_true] at hold
        have htexts : c.words.mapM (wordText limits s c) = c.words.mapM (wordText limits t c) := by
          refine mapM_wordText_congr hc fun f hf => States.literal_congr hs ht fun name hn => ?_
          exact h name (List.mem_flatMap.2 ⟨f, hf, hn⟩)
        have hwaits : (c.references.any fun word => !(s.waitingFor (String.ofList word.tail)).isEmpty) =
            c.references.any fun word => !(t.waitingFor (String.ofList word.tail)).isEmpty := by
          rw [Bool.eq_iff_iff, any_waitingFor_iff hc, any_waitingFor_iff hc, States.readyFor_congr h]
        rw [listStep_eq hold hc, listStep_eq hold hc, hwaits, htexts]
    · rw [Bool.not_eq_true] at hc
      rw [listStep_of_not_isComposite hc, listStep_of_not_isComposite hc]
  case bare => exact Stage.lists_ignoresSources limits

/-! ## Runs seen on some names -/

/-- The constants of some names, wherever they were declared. -/
def seenOn (p : String → Bool) (cs : List Constant) : List Constant := (cs.filter fun c => p c.name).map Constant.bare

/-- The constants of these names mention no others. -/
def Closed (p : String → Bool) (cs : List Constant) : Prop :=
  ∀ c ∈ cs, p c.name = true → ∀ name ∈ c.mentions, p name = true

theorem bare_mem_seenOn (hc : c ∈ cs) (hp : p c.name = true) : c.bare ∈ seenOn p cs :=
  List.mem_map_of_mem (List.mem_filter.2 ⟨hc, hp⟩)

theorem States.Identifiers.restrict (h : s.Identifiers) (p : String → Bool) : States.Identifiers (s.restrict p) := by
  intro name hn
  refine h name ?_
  unfold NameMap.contains at hn ⊢
  rw [NameMap.find?_restrict] at hn
  split at hn
  · exact hn
  · cases hn

namespace Stage

/-- A step of a constant among the names is the same step there. -/
theorem Local.step_restrict (hl : stage.Local) (hi : s.Identifiers) (hclosed : Closed p cs) (hc : c ∈ cs)
    (hp : p c.name = true) (old : Resolution) : stage.step (s.restrict p) c.bare old = stage.step s c old := by
  rw [hl.bare]
  refine hl.congr (hi.restrict p) hi fun name hn => ?_
  rw [NameMap.find?_restrict, if_pos (hclosed c hc hp name hn)]

/-- A move of a constant among the names is a move there, and any other leaves no trace. -/
theorem Local.runs_restrict (hl : stage.Local) (hi : s.Identifiers) (hclosed : Closed p cs) (h : stage.Runs cs s t) :
    stage.Runs (seenOn p cs) (s.restrict p) (t.restrict p) := by
  induction h with
  | refl => exact .refl
  | @tail u _ hrun hm ih =>
    have hiu := (extends_of_runs hrun).identifiers hi
    obtain ⟨hc, hf, hs⟩ := hm
    rename_i c old new
    rw [NameMap.restrict_insert]
    split
    · rename_i hp
      have hfound : (u.restrict p).find? c.bare.name = some old := by
        rw [NameMap.find?_restrict]
        exact (if_pos hp).trans hf
      have hmove : stage.Moves (seenOn p cs) (u.restrict p) ((u.restrict p).insert c.bare.name new) :=
        .intro (bare_mem_seenOn hc hp) hfound ((hl.step_restrict hiu hclosed hc hp old).trans hs)
      exact ih.tail hmove
    · exact ih

theorem Local.stable_restrict (hl : stage.Local) (hi : s.Identifiers) (hclosed : Closed p cs) (h : stage.Stable cs s) :
    stage.Stable (seenOn p cs) (s.restrict p) := by
  intro d hd old hold
  obtain ⟨c, hc, rfl⟩ := List.mem_map.1 hd
  obtain ⟨hc, hp⟩ := List.mem_filter.1 hc
  rw [NameMap.find?_restrict, if_pos (show p c.bare.name = true from hp)] at hold
  rw [hl.step_restrict hi hclosed hc hp]
  exact h c hc old hold

end Stage

variable {s₀ s₁ s₂ s₃ s₄ t₀ t₁ t₂ t₃ t₄ : States}

theorem StageRuns.restrict (h : StageRuns limits cs s₀ s₁ s₂ s₃ s₄) (hi : s₀.Identifiers) (hclosed : Closed p cs) :
    StageRuns limits (seenOn p cs) (s₀.restrict p) (s₁.restrict p) (s₂.restrict p) (s₃.restrict p) (s₄.restrict p) := by
  obtain ⟨hi₁, hi₂, hi₃, hi₄⟩ := h.identifiers hi
  exact {
    aliases := aliases_local.runs_restrict hi hclosed h.aliases
    aliasesEnd := aliases_local.stable_restrict hi₁ hclosed h.aliasesEnd
    formulas := (formulas_local limits).runs_restrict hi₁ hclosed h.formulas
    formulasEnd := (formulas_local limits).stable_restrict hi₂ hclosed h.formulasEnd
    lists := (lists_local limits).runs_restrict hi₂ hclosed h.lists
    listsEnd := (lists_local limits).stable_restrict hi₃ hclosed h.listsEnd
    listAliases := aliases_local.runs_restrict hi₃ hclosed h.listAliases
    listAliasesEnd := aliases_local.stable_restrict hi₄ hclosed h.listAliasesEnd }

/-- All stages end alike over the same constants. -/
theorem StageRuns.same (h : StageRuns limits cs s₀ s₁ s₂ s₃ s₄) (h' : StageRuns limits ds t₀ t₁ t₂ t₃ t₄)
    (hd : Distinct cs) (hmem : ∀ c, c ∈ cs ↔ c ∈ ds) (hi : s₀.Identifiers) (hsame : s₀.Same t₀) : s₄.Same t₄ := by
  obtain ⟨-, hi₂, -, -⟩ := h.identifiers hi
  have h₁ := Stage.same_of_runs aliases_lawful hd hmem (Stage.aliases_persistsFrom _ _) hsame h.aliases h.aliasesEnd
    h'.aliases h'.aliasesEnd
  have h₂ := Stage.same_of_runs (formulas_lawful limits) hd hmem (Stage.formulas_persistsFrom _ _ _)
      h₁ h.formulas h.formulasEnd
    h'.formulas h'.formulasEnd
  have h₃ := Stage.same_of_runs (lists_lawful limits) hd hmem ((lists_lawful limits).persistsFrom hi₂)
      h₂ h.lists h.listsEnd
    h'.lists h'.listsEnd
  exact Stage.same_of_runs aliases_lawful hd hmem (Stage.aliases_persistsFrom _ _) h₃ h.listAliases h.listAliasesEnd
    h'.listAliases h'.listAliasesEnd

/-! ## Tables that agree on some names -/

namespace Table

variable {table other : Table} {name : String}

/-- The tables hold the same constants under these names. -/
def AgreeOn (p : String → Bool) (table other : Table) : Prop :=
  ∀ name, p name = true →
    (table.constants.find? name).map Constant.bare = (other.constants.find? name).map Constant.bare

theorem AgreeOn.symm (h : AgreeOn p table other) : AgreeOn p other table := fun name hp => (h name hp).symm

theorem AgreeOn.exists_bare (h : AgreeOn p table other) (hc : c ∈ table.constants.values) (hp : p c.name = true) :
    ∃ d ∈ other.constants.values, d.name = c.name ∧ d.bare = c.bare := by
  have hfind := h c.name hp
  rw [table.find?_of_mem hc, Option.map_some] at hfind
  obtain ⟨d, hd, hbare⟩ := Option.map_eq_some_iff.1 hfind.symm
  obtain ⟨hd, hname⟩ := (other.find?_constants_iff c.name d).1 hd
  exact ⟨d, hd, hname, hbare⟩

theorem AgreeOn.seenOn_subset (h : AgreeOn p table other) (hc : c ∈ seenOn p table.constants.values) :
    c ∈ seenOn p other.constants.values := by
  obtain ⟨c, hmem, rfl⟩ := List.mem_map.1 hc
  obtain ⟨hmem, hp⟩ := List.mem_filter.1 hmem
  obtain ⟨d, hd, hname, hbare⟩ := h.exists_bare hmem hp
  rw [← hbare]
  exact bare_mem_seenOn hd (hname ▸ hp)

theorem AgreeOn.closed (h : AgreeOn p table other) (hclosed : Closed p table.constants.values) :
    Closed p other.constants.values := by
  intro c hc hp
  obtain ⟨d, hd, hname, hbare⟩ := h.symm.exists_bare hc hp
  show ∀ name ∈ c.bare.mentions, p name = true
  rw [← hbare]
  exact hclosed d hd (hname ▸ hp)

theorem AgreeOn.initial_same (h : AgreeOn p table other) :
    States.Same ((States.initial table).restrict p) ((States.initial other).restrict p) := by
  have hbare (o : Option Constant) : o.map States.initialOf = (o.map Constant.bare).map States.initialOf := by
    rw [Option.map_map]
    rfl
  intro name
  rw [NameMap.find?_restrict, NameMap.find?_restrict]
  split
  · rename_i hp
    rw [States.find?_initial, States.find?_initial, hbare, h name hp, ← hbare]
  · rfl

/-- References do not lead out of names whose constants mention no others. -/
theorem mem_of_reaches {within : List String}
    (hclosed : ∀ c ∈ table.constants.values, c.name ∈ within → ∀ d ∈ c.mentions, d ∈ within) (hname : name ∈ within)
    {target : String} (h : ReflTransGen table.RefersTo name target) : target ∈ within := by
  induction h with
  | refl => exact hname
  | tail _ hstep ih =>
    obtain ⟨c, hfind, hm⟩ := hstep
    obtain ⟨hc, rfl⟩ := (table.find?_constants_iff _ c).1 hfind
    exact hclosed c hc ih _ hm

theorem distinct_seenOn (table : Table) (p : String → Bool) : Distinct (seenOn p table.constants.values) := by
  rintro _ hc _ hd hname
  obtain ⟨c, hc', rfl⟩ := List.mem_map.1 hc
  obtain ⟨d, hd', rfl⟩ := List.mem_map.1 hd
  rw [table.distinct c (List.mem_filter.1 hc').1 d (List.mem_filter.1 hd').1 hname]

end Table

namespace Resolved

/-- A constant is resolved alike in two tables, whatever else they hold, if they hold the same constants
under all names that its references lead to. -/
theorem ofTable_local {table other : Table} {settings : Settings} {r r' : Resolved} {name : String}
    (hnames : ∀ n ∈ table.constants.names, Formula.isName n.toList = true)
    (hnames' : ∀ n ∈ other.constants.names, Formula.isName n.toList = true)
    (hagree : ∀ target, ReflTransGen table.RefersTo name target →
      (table.constants.find? target).map Constant.bare = (other.constants.find? target).map Constant.bare)
    (h : ofTable table settings = .ok r) (h' : ofTable other settings = .ok r') : r.find? name = r'.find? name := by
  classical
  obtain ⟨s₁, s₂, s₃, hruns⟩ := stageRuns_of_ofTable h
  obtain ⟨t₁, t₂, t₃, hruns'⟩ := stageRuns_of_ofTable h'
  let p : String → Bool := fun target => decide (ReflTransGen table.RefersTo name target)
  have hpfor (target : String) : p target = true ↔ ReflTransGen table.RefersTo name target := decide_eq_true_iff
  have htables : Table.AgreeOn p table other := fun target hp => hagree target ((hpfor target).1 hp)
  have hclosed : Closed p table.constants.values := by
    intro c hc hp target hm
    rw [hpfor] at hp ⊢
    exact hp.tail ⟨c, table.find?_of_mem hc, hm⟩
  have hseen := (hruns.restrict (initial_identifiers hnames) hclosed).same
    (hruns'.restrict (initial_identifiers hnames') (htables.closed hclosed)) (table.distinct_seenOn p)
    (fun c => ⟨htables.seenOn_subset, htables.symm.seenOn_subset⟩) ((initial_identifiers hnames).restrict p)
    htables.initial_same name
  rwa [NameMap.find?_restrict, NameMap.find?_restrict, if_pos ((hpfor name).2 .refl), if_pos ((hpfor name).2 .refl)]
    at hseen

/-- A constant is resolved alike next to a cycle and next to other constants, and in another order. -/
theorem ofTable_local_neighbours :
    let settings : Settings := { strict := false }
    let table := Table.ofDeclarations settings [("wide", "@gap*2", none), ("gap", "3px", none), ("loop", "@loop", none)]
    let other := Table.ofDeclarations settings
      [("gap", "3px", none), ("pad", "@gap 1px", some "Insets"), ("wide", "@gap*2", none)]
    ∃ r r', ofTable table settings = .ok r ∧ ofTable other settings = .ok r' ∧ r.unresolved = ["loop"] ∧
      r.find? "wide" = r'.find? "wide" := by
  intro settings table other
  obtain ⟨r, hr, hu⟩ : ∃ r, ofTable table settings = .ok r ∧ r.unresolved = ["loop"] :=
    exists_ok_of_toOption (by decide +kernel)
  obtain ⟨r', hr', -⟩ : ∃ r', ofTable other settings = .ok r' ∧ r'.unresolved = [] :=
    exists_ok_of_toOption (by decide +kernel)
  have hagree : ∀ target ∈ ["wide", "gap"],
      (table.constants.find? target).map Constant.bare = (other.constants.find? target).map Constant.bare := by
    simp only [List.forall_mem_cons, List.not_mem_nil, false_imp_iff, implies_true, and_true]
    exact ⟨rfl, rfl⟩
  refine ⟨r, r', hr, hr', hu, ofTable_local (by decide +kernel) (by decide +kernel) (fun target h => ?_) hr hr'⟩
  exact hagree target (table.mem_of_reaches (by decide +kernel) (List.mem_cons_self ..) h)

end Resolved

end Stylesheet
