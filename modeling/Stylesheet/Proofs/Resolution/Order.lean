/-
The order of constants does not matter. Take the state `e` in which one run of a lawful stage ended.
Any other run of the stage from the same start, over the same constants in whatever order, stays
between start and `e`: a constant is as it was, or as it is in `e` (`Between`). So it cannot fail,
and by symmetry it ends as `e` does. The four stages in turn give the theorem for tables.
-/
import Stylesheet.Proofs.Resolution.Steps

namespace Stylesheet

open Relation (ReflTransGen)
open States (Extends)

/-! ## States up to order -/

/-- The same resolution under every name. -/
def States.Same (s t : States) : Prop := ∀ name, s.find? name = t.find? name

theorem States.Same.symm {s t : States} (h : s.Same t) : t.Same s := fun name => (h name).symm

theorem States.Same.identifiers {s t : States} (h : s.Same t) (hs : s.Identifiers) : t.Identifiers := by
  intro name hc
  unfold NameMap.contains at hc
  rw [← h name] at hc
  exact hs name hc

theorem States.Same.extends_left {s t u : States} (h : s.Same t) (hu : Extends s u) : Extends t u := by
  refine ⟨fun name => ?_, fun hv => hu.resolved (by rw [h]; exact hv)⟩
  rw [hu.contains]
  unfold NameMap.contains; rw [h]

/-! ## One stage -/

namespace Stage

variable {stage : Stage} {cs ds : List Constant} {s s' t u e e' : States}

/-- `t` may be reached from `s` by the stage: it extends `s`, and what the stage has no step for is as in `s`. -/
structure Follows (stage : Stage) (cs : List Constant) (s t : States) : Prop where
  above : Extends s t
  kept : ∀ name, (∀ c ∈ cs, c.name = name → ∀ u old, stage.step u c old = .ok none) → t.find? name = s.find? name

theorem follows_of_runs (h : stage.Runs cs s t) : stage.Follows cs s t :=
  ⟨extends_of_runs h, fun _ hno => find?_of_runs h hno⟩

theorem Follows.same (h : stage.Follows cs s t) (hsame : s.Same s') : stage.Follows cs s' t :=
  ⟨hsame.extends_left h.above, fun name hno => (h.kept name hno).trans (hsame name)⟩

theorem Follows.isResolved (h : stage.Follows cs s t) {name : String} {r : Resolution} (hf : t.find? name = some r)
    (hs : s.Resolves name) : r.isResolved = true :=
  (States.isResolved_iff hf).2 (h.above.resolves hs)

/-- From `s` on, a move or failure that is possible stays so, with its outcome. A constant that has its value
in `s` has it later on. -/
def PersistsFrom (stage : Stage) (cs : List Constant) (s : States) : Prop :=
  ∀ ⦃t u c old⦄, c ∈ cs → (s.Resolves c.name → old.isResolved = true) → stage.Follows cs s t → stage.Follows cs s u →
    Extends t u → stage.step t c old ≠ .ok none → stage.step u c old = stage.step t c old

theorem Lawful.persistsFrom (hl : stage.Lawful) (hi : s.Identifiers) : stage.PersistsFrom cs s :=
  fun _ _ _ _ _ _ hst _ htu h => hl.persists (hst.above.identifiers hi) htu h

theorem aliases_persistsFrom (cs : List Constant) (s : States) : aliases.PersistsFrom cs s :=
  fun _ _ _ _ _ _ _ _ htu h => aliasStep_eq_of_extends htu h

theorem formulas_persistsFrom (limits : Formula.Limits) (cs : List Constant) (s : States) :
    (formulas limits).PersistsFrom cs s :=
  fun _ _ _ _ _ _ _ _ htu h => formulaStep_eq_of_extends htu h

theorem PersistsFrom.same (hp : stage.PersistsFrom cs s) (hmem : ∀ c, c ∈ cs ↔ c ∈ ds) (hsame : s.Same s') :
    stage.PersistsFrom ds s' := by
  have hfollows {t : States} (h : stage.Follows ds s' t) : stage.Follows cs s t := by
    obtain ⟨habove, hkept⟩ := h.same hsame.symm
    exact ⟨habove, fun name hno => hkept name fun c hc => hno c ((hmem c).2 hc)⟩
  intro t u c old hc hold ht hu htu h
  refine hp ((hmem c).2 hc) ?_ (hfollows ht) (hfollows hu) htu h
  rintro ⟨value, hv⟩
  exact hold ⟨value, by rw [← hsame, hv]⟩

/-- What changed in a run changed by a step that is still possible at its end. -/
theorem justified_of_runs (hl : stage.Lawful) (hd : Distinct cs) (hp : stage.PersistsFrom cs s)
    (h : stage.Runs cs s e) :
    ∀ c ∈ cs, e.find? c.name = s.find? c.name ∨ ∃ old new, s.find? c.name = some old ∧
      e.find? c.name = some new ∧ stage.step e c old = .ok (some new) := by
  induction h with
  | refl => exact fun c _ => .inl rfl
  | @tail t u hrun hmove ih =>
    have ht := follows_of_runs hrun
    have hu := follows_of_runs (hrun.tail hmove)
    have hext := extends_of_moves hmove
    obtain ⟨hdm, hf, hs⟩ := hmove
    rename_i d old new
    intro c hc
    by_cases hn : c.name = d.name
    -- a second move of one constant is ruled out
    · have hcd := hd c hc d hdm hn
      subst hcd
      rcases ih c hc with hsame | ⟨old', new', -, hnew', hstep'⟩
      · refine .inr ⟨old, new, by rw [← hsame, hf], NameMap.find?_insert_self .., ?_⟩
        rw [hp hc (ht.isResolved hf) ht hu hext (by rw [hs]; intro h; cases h), hs]
      · rw [hf] at hnew'; cases hnew'
        rw [hl.settles hstep' t] at hs; cases hs
    · rw [NameMap.find?_insert_of_ne _ hn]
      rcases ih c hc with hsame | ⟨old', new', hold', hnew', hstep'⟩
      · exact .inl hsame
      · refine .inr ⟨old', new', hold', hnew', ?_⟩
        rw [hp hc (States.isResolved_iff hold').2 ht hu hext (by rw [hstep']; intro h; cases h), hstep']

/-- The state `t` lies between `s` and `e`: every constant is as in one of them. -/
structure Between (s e t : States) : Prop where
  below : Extends t e
  either : ∀ name, t.find? name = s.find? name ∨ t.find? name = e.find? name

/-- From a state between the start and the end of a run, steps lead only towards that end. -/
theorem step_of_between (hl : stage.Lawful) (hd : Distinct cs) (hp : stage.PersistsFrom cs s) (hrun : stage.Runs cs s e)
    (hend : stage.Stable cs e) (ht : stage.Follows cs s t) (hb : Between s e t) {c : Constant}
    (hc : c ∈ cs) {old : Resolution}
    (hf : t.find? c.name = some old) :
    stage.step t c old = .ok none ∨
      ∃ new, stage.step t c old = .ok (some new) ∧ e.find? c.name = some new := by
  by_cases hn : stage.step t c old = .ok none
  · exact .inl hn
  · have hstep := hp hc (ht.isResolved hf) ht (follows_of_runs hrun) hb.below hn
    have hne : e.find? c.name ≠ some old := by
      intro he
      rw [hend c hc old he] at hstep
      exact hn hstep.symm
    rcases hb.either c.name with hs | he
    · rw [hf] at hs
      rcases justified_of_runs hl hd hp hrun c hc with h | ⟨old', new, hold', hnew, hsome⟩
      · exact absurd (h.trans hs.symm) hne
      · rw [hold'] at hs; cases hs
        exact .inr ⟨new, by rw [← hstep, hsome], hnew⟩
    · exact absurd (he.symm.trans hf) hne

theorem between_of_runs (hl : stage.Lawful) (hd : Distinct cs) (hp : stage.PersistsFrom cs s) (hrun : stage.Runs cs s e)
    (hend : stage.Stable cs e) (hsame : s.Same s') (h : stage.Runs cs s' t) : Between s e t := by
  induction h with
  | refl => exact ⟨hsame.extends_left (extends_of_runs hrun), fun name => .inl (hsame name).symm⟩
  | tail hbefore hmove ih =>
    obtain ⟨hc, hf, hs⟩ := hmove
    rename_i c old new
    have ht := (follows_of_runs hbefore).same hsame.symm
    rcases step_of_between hl hd hp hrun hend ht ih hc hf with h | ⟨new', h, he⟩
    · rw [hs] at h; cases h
    · rw [hs] at h; cases h
      -- the constant that moved is as in `e` now, the others are as before
      refine ⟨⟨?_, ?_⟩, ?_⟩
      · intro name
        rw [ih.below.contains, (States.extends_insert hf (isResolved_eq_false_of_step hs) new).contains]
      · intro name value hv
        rw [NameMap.find?_insert] at hv
        split at hv
        · rename_i hn; subst hn; rw [he]; exact hv
        · exact ih.below.resolved hv
      · intro name
        rw [NameMap.find?_insert]
        split
        · rename_i hn; subst hn; exact .inr he.symm
        · exact ih.either name

theorem runs_mono (hsub : ∀ c ∈ ds, c ∈ cs) (h : stage.Runs ds s t) : stage.Runs cs s t := by
  refine ReflTransGen.mono (fun s t hm => ?_) _ _ h
  obtain ⟨hc, hf, hs⟩ := hm
  exact .intro (hsub _ hc) hf hs

/-- Both runs fail, or both end, in the same states up to order. -/
def SameOutcome (x y : Except ResolutionError (States × Nat)) : Prop :=
  (∃ e₁ e₂, x = .error e₁ ∧ y = .error e₂) ∨
    ∃ s m t n, x = .ok (s, m) ∧ y = .ok (t, n) ∧ s.Same t

theorem not_error_of_runs (hl : stage.Lawful) (hd : Distinct cs) (hp : stage.PersistsFrom cs s)
    (hrun : stage.Runs cs s e)
    (hend : stage.Stable cs e) (hsame : s.Same s') (hsub : ∀ c ∈ ds, c ∈ cs) (err : ResolutionError) :
    stage.untilStable ds s' ≠ .error err := by
  intro h
  obtain ⟨t, hrun', c, hc, old, hf, hstep⟩ := fails_of_untilStable h
  have hb := between_of_runs hl hd hp hrun hend hsame (runs_mono hsub hrun')
  have ht := (follows_of_runs (runs_mono hsub hrun')).same hsame.symm
  rcases step_of_between hl hd hp hrun hend ht hb (hsub c hc) hf with h | ⟨new, h, -⟩ <;>
    rw [hstep] at h <;> cases h

/-- Two runs of a lawful stage that are over end in the same states. -/
theorem same_of_runs (hl : stage.Lawful) (hd : Distinct cs) (hmem : ∀ c, c ∈ cs ↔ c ∈ ds) (hp : stage.PersistsFrom cs s)
    (hsame : s.Same s') (hrun : stage.Runs cs s e) (hend : stage.Stable cs e) (hrun' : stage.Runs ds s' e')
    (hend' : stage.Stable ds e') : e.Same e' := by
  have hd' : Distinct ds := fun c hc d hd' h => hd c ((hmem c).2 hc) d ((hmem d).2 hd') h
  have hb := between_of_runs hl hd hp hrun hend hsame (runs_mono (fun c hc => (hmem c).2 hc) hrun')
  have hb' := between_of_runs hl hd' (hp.same hmem hsame) hrun' hend' hsame.symm
    (runs_mono (fun c hc => (hmem c).1 hc) hrun)
  intro name
  rcases hb.either name with h | h
  · rcases hb'.either name with h' | h'
    · rw [h, h', hsame name]
    · exact h'
  · exact h.symm

/-- A lawful stage has the same outcome over the same constants in any order. -/
theorem untilStable_same (hl : stage.Lawful) (hd : Distinct cs) (hmem : ∀ c, c ∈ cs ↔ c ∈ ds)
    (hp : stage.PersistsFrom cs s) (hsame : s.Same s') :
    SameOutcome (stage.untilStable cs s) (stage.untilStable ds s') := by
  cases h1 : stage.untilStable cs s with
  | error e₁ =>
    cases h2 : stage.untilStable ds s' with
    | error e₂ => exact .inl ⟨e₁, e₂, rfl, rfl⟩
    | ok p =>
      have hd' : Distinct ds := fun c hc d hd' h => hd c ((hmem c).2 hc) d ((hmem d).2 hd') h
      obtain ⟨hrun, hend⟩ := runs_of_untilStable h2
      exact absurd h1 (not_error_of_runs hl hd' (hp.same hmem hsame) hrun hend hsame.symm
        (fun c hc => (hmem c).1 hc) e₁)
  | ok p =>
    obtain ⟨e, m⟩ := p
    obtain ⟨hrun, hend⟩ := runs_of_untilStable h1
    cases h2 : stage.untilStable ds s' with
    | error e₂ =>
      exact absurd h2 (not_error_of_runs hl hd hp hrun hend hsame (fun c hc => (hmem c).2 hc) e₂)
    | ok p =>
      obtain ⟨e', n⟩ := p
      obtain ⟨hrun', hend'⟩ := runs_of_untilStable h2
      exact .inr ⟨e, m, e', n, rfl, rfl, same_of_runs hl hd hmem hp hsame hrun hend hrun' hend'⟩

/-- Two runs with the same outcome may be carried on alike. -/
theorem SameOutcome.bind {x y : Except ResolutionError (States × Nat)} (h : SameOutcome x y)
    {f g : States × Nat → Except ResolutionError (States × Nat)}
    (hfg : ∀ s m t n, x = .ok (s, m) → s.Same t → SameOutcome (f (s, m)) (g (t, n))) :
    SameOutcome (x >>= f) (y >>= g) := by
  rcases h with ⟨e₁, e₂, rfl, rfl⟩ | ⟨s, m, t, n, rfl, rfl, hst⟩
  · exact .inl ⟨e₁, e₂, rfl, rfl⟩
  · exact hfg s m t n rfl hst

end Stage

/-! ## All stages -/

/-- The stages neither add names nor drop any. -/
theorem StageRuns.identifiers {limits : Formula.Limits} {cs : List Constant} {s₀ s₁ s₂ s₃ s₄ : States}
    (h : StageRuns limits cs s₀ s₁ s₂ s₃ s₄) (hi : s₀.Identifiers) :
    s₁.Identifiers ∧ s₂.Identifiers ∧ s₃.Identifiers ∧ s₄.Identifiers := by
  have hi₁ := (Stage.extends_of_runs h.aliases).identifiers hi
  have hi₂ := (Stage.extends_of_runs h.formulas).identifiers hi₁
  have hi₃ := (Stage.extends_of_runs h.lists).identifiers hi₂
  exact ⟨hi₁, hi₂, hi₃, (Stage.extends_of_runs h.listAliases).identifiers hi₃⟩

namespace Resolved

open Stage (SameOutcome)

/-- The list stage starts in this state, when the stages start in `s`. -/
def ListsStart (limits : Formula.Limits) (cs : List Constant) (s t : States) : Prop :=
  ∃ u m n, Stage.aliases.untilStable cs s = .ok (u, m) ∧ (Stage.formulas limits).untilStable cs u = .ok (t, n)

/-- Only of the list stage has to be known that what can happen stays possible. -/
theorem runStages_same_of_persistsFrom (limits : Formula.Limits) {cs ds : List Constant} {s s' : States}
    (hd : Distinct cs) (hmem : ∀ c, c ∈ cs ↔ c ∈ ds)
    (hlists : ∀ t, ListsStart limits cs s t → (Stage.lists limits).PersistsFrom cs t) (hsame : s.Same s') :
    SameOutcome (runStages limits cs s) (runStages limits ds s') := by
  unfold runStages
  refine (Stage.untilStable_same aliases_lawful hd hmem (Stage.aliases_persistsFrom _ _) hsame).bind
    fun s₁ m₁ t₁ _ h1 hs1 => ?_
  refine (Stage.untilStable_same (formulas_lawful limits) hd hmem (Stage.formulas_persistsFrom _ _ _) hs1).bind
    fun s₂ m₂ t₂ _ h2 hs2 => ?_
  have hp := hlists s₂ ⟨s₁, m₁, m₂, h1, h2⟩
  refine (Stage.untilStable_same (lists_lawful limits) hd hmem hp hs2).bind fun s₃ _ t₃ _ _ hs3 => ?_
  refine (Stage.untilStable_same aliases_lawful hd hmem (Stage.aliases_persistsFrom _ _) hs3).bind
    fun s₄ _ t₄ _ _ hs4 => ?_
  exact .inr ⟨s₄, _, t₄, _, rfl, rfl, hs4⟩

theorem extends_of_listsStart {limits : Formula.Limits} {cs : List Constant} {s t : States}
    (h : ListsStart limits cs s t) : Extends s t := by
  obtain ⟨u, m, n, h1, h2⟩ := h
  exact (Stage.extends_of_runs (Stage.runs_of_untilStable h1).1).trans
    (Stage.extends_of_runs (Stage.runs_of_untilStable h2).1)

theorem runStages_same (limits : Formula.Limits) {cs ds : List Constant} {s s' : States} (hd : Distinct cs)
    (hmem : ∀ c, c ∈ cs ↔ c ∈ ds) (hi : s.Identifiers) (hsame : s.Same s') :
    SameOutcome (runStages limits cs s) (runStages limits ds s') :=
  runStages_same_of_persistsFrom limits hd hmem
    (fun _ ht => (lists_lawful limits).persistsFrom ((extends_of_listsStart ht).identifiers hi)) hsame

theorem initial_same {table other : Table} (hperm : table.constants.values.Perm other.constants.values) :
    (States.initial table).Same (States.initial other) := by
  intro name
  unfold States.initial
  rw [NameMap.find?_map, NameMap.find?_map]
  congr 1
  ext c
  rw [table.find?_constants_iff, other.find?_constants_iff, hperm.mem_iff]

theorem initial_identifiers {table : Table}
    (hnames : ∀ name ∈ table.constants.names, Formula.isName name.toList = true) :
    (States.initial table).Identifiers := by
  intro name hc
  rw [← NameMap.mem_names_iff, States.initial, NameMap.names_map] at hc
  exact hnames name hc

theorem entries_perm {s t : States} (h : s.Same t) : s.entries.Perm t.entries := by
  rw [List.perm_ext_iff_of_nodup s.nodup.of_map t.nodup.of_map]
  rintro ⟨name, r⟩
  rw [← NameMap.find?_eq_some_iff, ← NameMap.find?_eq_some_iff, h name]

theorem ofTable_of_lenient {table : Table} {settings : Settings} (hstrict : settings.strict = false) :
    ofTable table settings = (runStages settings.limits table.constants.values (States.initial table)).map
      fun (states, passes) => { settings, states, passes } := by
  unfold ofTable conclude
  rw [hstrict]
  cases runStages settings.limits table.constants.values (States.initial table) with
  | error e => rfl
  | ok p =>
    obtain ⟨states, passes⟩ := p
    simp only [bind, Except.bind]
    cases unresolvedNames states <;> rfl

/-- Two tables that hold the same constants in different orders, declared wherever, all with names that formulas
can mention, both fail under lenient settings or both resolve. Then every name has the same resolution in both, and
the same names are unresolved. -/
theorem ofTable_perm {table other : Table} {settings : Settings} (hstrict : settings.strict = false)
    (hperm : (table.constants.values.map Constant.bare).Perm (other.constants.values.map Constant.bare))
    (hnames : ∀ name ∈ table.constants.names, Formula.isName name.toList = true) :
    (∃ e₁ e₂, ofTable table settings = .error e₁ ∧ ofTable other settings = .error e₂) ∨
    ∃ r₁ r₂, ofTable table settings = .ok r₁ ∧ ofTable other settings = .ok r₂ ∧
      (∀ name, r₁.find? name = r₂.find? name) ∧ r₁.unresolved.Perm r₂.unresolved := by
  -- where the constants were declared is taken from both tables first
  rw [← ofTable_bare table, ← ofTable_bare other, ofTable_of_lenient hstrict, ofTable_of_lenient hstrict]
  rw [← table.values_bare, ← other.values_bare] at hperm
  rw [← table.names_bare] at hnames
  rcases runStages_same settings.limits table.bare.distinct (fun c => hperm.mem_iff) (initial_identifiers hnames)
    (initial_same hperm) with ⟨e₁, e₂, h1, h2⟩ | ⟨s, m, t, n, h1, h2, hst⟩
  · rw [h1, h2]
    exact .inl ⟨e₁, e₂, rfl, rfl⟩
  · rw [h1, h2]
    exact .inr ⟨_, _, rfl, rfl, hst, ((entries_perm hst).filter _).map _⟩

/-- A chain of references resolves alike when it is declared backwards, each constant at another place. -/
theorem ofTable_perm_chain :
    let settings : Settings := { strict := false }
    let chain := [("wide", "@step*2", none), ("step", "@gap+1", none), ("gap", "3px", none)]
    (Table.ofItems settings chain).constants.values.map (·.source) =
      (Table.ofItems settings chain.reverse).constants.values.map (·.source) ∧
    ∃ r₁ r₂, ofTable (.ofItems settings chain) settings = .ok r₁ ∧
      ofTable (.ofItems settings chain.reverse) settings = .ok r₂ ∧
      (∀ name, r₁.find? name = r₂.find? name) ∧ r₁.unresolved.Perm r₂.unresolved := by
  intro settings chain
  have hvalues : (Table.ofItems settings chain.reverse).constants.values.map Constant.bare =
      ((Table.ofItems settings chain).constants.values.map Constant.bare).reverse := rfl
  obtain ⟨r, hr, -⟩ : ∃ r, ofTable (.ofItems settings chain) settings = .ok r ∧ r.unresolved = [] :=
    exists_ok_of_toOption (by decide +kernel)
  refine ⟨rfl, (ofTable_perm rfl (hvalues ▸ (List.reverse_perm _).symm) (by decide +kernel)).resolve_left ?_⟩
  rintro ⟨e, -, he, -⟩
  rw [hr] at he
  cases he

end Resolved

end Stylesheet
