/-
Lists whose words name a constant as a whole. Such a word is looked up as a whole, but the list waits for the
names in it. The two agree on a name that formulas can mention, which is the only name in itself. In `@my-pad`
there is no name `my-pad`: a list with this word does not wait for the constant, and if that is a list as well,
the one declared first decides what becomes of the other (`Resolved.lists_wait_for_words`,
`Resolved.lists_out_of_order`).
-/
import Stylesheet.Proofs.Resolution.Order

namespace Stylesheet

open States (Extends)

variable {limits : Formula.Limits} {cs : List Constant} {s t : States} {c : Constant}

/-! ## Waiting for words -/

/-- A list moves or fails exactly when all names in its words are resolved. -/
theorem listStep_ne_none_iff {old : Resolution} (hold : old.isResolved = false) (hc : c.isComposite = true) :
    listStep limits s c old ≠ .ok none ↔ s.ReadyFor c := by
  constructor
  · intro h
    exact (readyFor_of_listStep h).2.2
  · intro hs h
    exact not_readyFor_of_listStep_none hold hc h hs

/-- A word that formulas can mention as a whole is one of the names that a list waits for. -/
theorem States.ReadyFor.resolves (h : s.ReadyFor c) {f : String} (hf : f ∈ c.formulas)
    (hname : Formula.isName f.toList = true) (hk : s.contains f = true) : s.Resolves f := by
  refine States.readyFor_iff.1 h f hf f ?_ hk
  rw [Formula.names_of_isName hname]
  exact List.mem_singleton_self f

/-! ## Lists that name lists -/

/-- A list that has no value yet, and that a word of such a list names as a whole, has a name that formulas
can mention. -/
def States.ListsMentionable (s : States) (cs : List Constant) : Prop :=
  ∀ c ∈ cs, ∀ d ∈ cs, c.isComposite = true → d.isComposite = true → ¬ s.Resolves c.name → ¬ s.Resolves d.name →
    d.name ∈ c.formulas → Formula.isName d.name.toList = true

theorem States.Extends.listsMentionable (h : Extends s t) (hs : s.ListsMentionable cs) : t.ListsMentionable cs :=
  fun c hc d hd hcomp hdcomp hcw hdw => hs c hc d hd hcomp hdcomp (fun hr => hcw (h.resolves hr)) fun hr =>
    hdw (h.resolves hr)

theorem States.ListsMentionable.bare (h : s.ListsMentionable cs) : s.ListsMentionable (cs.map Constant.bare) := by
  intro c' hc' d' hd'
  obtain ⟨c, hc, rfl⟩ := List.mem_map.1 hc'
  obtain ⟨d, hd, rfl⟩ := List.mem_map.1 hd'
  exact h c hc d hd

/-- Then what a word names as a whole does not change once the list is ready: it is resolved, or no list. -/
theorem Stage.lists_persistsFrom (hs : s.ListsMentionable cs) : (Stage.lists limits).PersistsFrom cs s := by
  intro t u c old hc hold ht hu htu h
  obtain ⟨hunresolved, hcomp, hready⟩ := readyFor_of_listStep h
  have hwaits : ¬ s.Resolves c.name := by
    intro hr
    rw [hold hr] at hunresolved
    cases hunresolved
  refine listStep_eq_of_extends htu h fun f hf => ?_
  refine States.literal_congr_of_self ?_ (htu.find?_eq_of_ready (States.readyFor_iff.1 hready f hf))
  by_cases hlist : ∃ d ∈ cs, d.isComposite = true ∧ d.name = f
  · obtain ⟨d, hd, hdcomp, rfl⟩ := hlist
    refine htu.find?_eq fun hk => ?_
    by_cases hr : s.Resolves d.name
    · exact ht.above.resolves hr
    · exact hready.resolves hf (hs c hc d hd hcomp hdcomp hwaits hr hf) hk
  -- the stage leaves alone what is no list
  · have hkept : ∀ d ∈ cs, d.name = f → ∀ v old, (Stage.lists limits).step v d old = .ok none := by
      intro d hd hdf v old
      refine listStep_of_not_isComposite ?_
      by_contra hdcomp
      exact hlist ⟨d, hd, by simpa using hdcomp, hdf⟩
    rw [ht.kept f hkept, hu.kept f hkept]

/-- A pass that changes nothing is the only one. -/
theorem Stage.untilStable_of_pass {stage : Stage} (h : (stage.pass cs s).toOption.map (·.2) = some false) :
    stage.untilStable cs s = .ok (s, 1) := by
  obtain ⟨⟨t, changed⟩, hpass, hchanged⟩ := exists_ok_of_toOption h
  obtain rfl : changed = false := hchanged
  obtain ⟨-, hend⟩ := runs_of_pass (fun _ hc => hc) hpass
  obtain ⟨rfl, -⟩ := hend rfl
  rw [untilStable_eq, hpass]

/-! ## Tables -/

namespace Resolved

open Stage (SameOutcome)

/-- Whether constants without value are an error or not, the same states give the same result. -/
theorem ofTable_of_sameOutcome {table other : Table} {settings : Settings}
    (h : SameOutcome (runStages settings.limits table.constants.values (States.initial table))
      (runStages settings.limits other.constants.values (States.initial other))) :
    (∃ e₁ e₂, ofTable table settings = .error e₁ ∧ ofTable other settings = .error e₂) ∨
      ∃ r₁ r₂, ofTable table settings = .ok r₁ ∧ ofTable other settings = .ok r₂ ∧
      ∀ name, r₁.find? name = r₂.find? name := by
  unfold ofTable conclude
  rcases h with ⟨e₁, e₂, h1, h2⟩ | ⟨s, m, t, n, h1, h2, hst⟩
  · rw [h1, h2]
    exact .inl ⟨e₁, e₂, rfl, rfl⟩
  · rw [h1, h2]
    have hnames : (unresolvedNames s).Perm (unresolvedNames t) := ((entries_perm hst).filter _).map _
    simp only [bind, Except.bind]
    cases hs : unresolvedNames s with
    | nil =>
      rw [hs] at hnames
      rw [hnames.symm.eq_nil]
      exact .inr ⟨_, _, rfl, rfl, hst⟩
    | cons first others =>
      cases ht : unresolvedNames t with
      | nil =>
        rw [hs, ht] at hnames
        cases hnames.eq_nil
      | cons first' others' =>
        cases settings.strict with
        | true => exact .inl ⟨_, _, rfl, rfl⟩
        | false => exact .inr ⟨_, _, rfl, rfl, hst⟩

/-- Whatever run the list stage makes, a list is gone about exactly when all names in its words are resolved.
A constant that one of its words names as a whole has its value then, if formulas can mention it or it had
its value when the stage began. And if the lists that waiting lists name as a whole are ones that formulas can
mention, or have their values from the start, the order of the table does not matter: both orders fail, or both
resolve, every constant alike. -/
theorem lists_wait_for_words (table : Table) (settings : Settings) :
    (∀ s t c old, ListsStart settings.limits table.constants.values (States.initial table) s →
      (Stage.lists settings.limits).Runs table.constants.values s t → c ∈ table.constants.values →
      t.find? c.name = some old → old.isResolved = false → c.isComposite = true →
      ((Stage.lists settings.limits).step t c old ≠ .ok none ↔
        ∀ f ∈ c.formulas, ∀ name ∈ Formula.names f, table.constants.contains name = true → t.Resolves name) ∧
      ((Stage.lists settings.limits).step t c old ≠ .ok none →
        ∀ f ∈ c.formulas, table.constants.contains f = true → Formula.isName f.toList = true ∨ s.Resolves f →
          t.Resolves f)) ∧
    ∀ other : Table, (table.constants.values.map Constant.bare).Perm (other.constants.values.map Constant.bare) →
      (States.initial table).ListsMentionable table.constants.values →
      (∃ e₁ e₂, ofTable table settings = .error e₁ ∧ ofTable other settings = .error e₂) ∨
        ∃ r₁ r₂, ofTable table settings = .ok r₁ ∧ ofTable other settings = .ok r₂ ∧
          ∀ name, r₁.find? name = r₂.find? name := by
  constructor
  · intro s t c old hstart hrun hc hf hold hcomp
    have hext := (extends_of_listsStart hstart).trans (Stage.extends_of_runs hrun)
    have hcontains (name : String) : t.contains name = table.constants.contains name := by
      rw [hext.contains]
      unfold NameMap.contains
      rw [States.find?_initial, Option.isSome_map]
    refine ⟨?_, fun hstep f hformula hk hknown => ?_⟩
    · rw [Stage.step_lists, listStep_ne_none_iff hold hcomp, States.readyFor_iff]
      unfold States.Ready
      simp only [hcontains]
    · rcases hknown with hname | hres
      · exact ((listStep_ne_none_iff hold hcomp).1 hstep).resolves hformula hname ((hcontains f).trans hk)
      · exact (Stage.extends_of_runs hrun).resolves hres
  · intro other hperm hlists
    rw [← table.values_bare, ← other.values_bare] at hperm
    rw [← ofTable_bare table, ← ofTable_bare other]
    refine ofTable_of_sameOutcome (runStages_same_of_persistsFrom settings.limits table.bare.distinct
      (fun c => hperm.mem_iff) (fun s hs => ?_) (initial_same hperm))
    have hlists : (States.initial table.bare).ListsMentionable table.bare.constants.values := by
      rw [table.values_bare, initial_bare]
      exact hlists.bare
    exact Stage.lists_persistsFrom ((extends_of_listsStart hs).listsMentionable hlists)

/-- A list in a list that is declared behind it, and a text whose name no formula can mention. -/
theorem lists_wait_for_words_nested :
    let items := [("frame", "@pad @main-color", some "Border"), ("pad", "@gap 2px", some "Insets"),
      ("main-color", "red", none), ("gap", "4px", none)]
    let table := Table.ofItems {} items
    let s := States.initial table
    let t : States := s.insert "pad" (.resolved ⟨"4px 2px", none, none⟩)
    (ListsStart {} table.constants.values s s ∧ (Stage.lists {}).Runs table.constants.values s t ∧
      t.Resolves "pad" ∧ t.Resolves "main-color") ∧
    ∃ r₁ r₂, ofTable table {} = .ok r₁ ∧ ofTable (.ofItems {} items.reverse) {} = .ok r₂ ∧
      (∀ name, r₁.find? name = r₂.find? name) ∧ r₁.value? "frame" = some "4px 2px red" := by
  intro items table s t
  obtain ⟨hwaits, horder⟩ := lists_wait_for_words table {}
  have hstart : ListsStart {} table.constants.values s s :=
    ⟨s, 1, 1, Stage.untilStable_of_pass (by decide +kernel), Stage.untilStable_of_pass (by decide +kernel)⟩
  have hmem {c : Constant} (h : table.constants.find? c.name = some c) : c ∈ table.constants.values :=
    ((table.find?_constants_iff c.name c).1 h).1
  have hrun : (Stage.lists {}).Runs table.constants.values s t :=
    .single (.intro (c := .define {} "pad" "@gap 2px" (some "Insets") (.scalar (.int 1)))
      (hmem rfl) rfl (by decide +kernel))
  refine ⟨⟨hstart, hrun, ?_⟩, ?_⟩
  · obtain ⟨-, hwords⟩ := hwaits s t (.define {} "frame" "@pad @main-color" (some "Border") (.scalar (.int 0)))
        (.pending "@pad @main-color")
      hstart hrun (hmem rfl) (by decide +kernel) rfl (by decide +kernel)
    have hstep := hwords (by decide +kernel)
    exact ⟨hstep "pad" (by decide +kernel) (by decide +kernel) (.inl (by decide +kernel)),
      hstep "main-color" (by decide +kernel) (by decide +kernel) (.inr ⟨⟨"red", none, none⟩, by decide +kernel⟩)⟩
  · obtain ⟨r, hr, hframe⟩ : ∃ r, ofTable table {} = .ok r ∧ r.value? "frame" = some "4px 2px red" :=
      exists_ok_of_toOption (by decide +kernel)
    have hvalues : (Table.ofItems {} items.reverse).constants.values.map Constant.bare =
        (table.constants.values.map Constant.bare).reverse := rfl
    have hlists : s.ListsMentionable table.constants.values := by
      have hnames : ∀ d ∈ table.constants.values, d.isComposite = true → Formula.isName d.name.toList = true := by
        decide +kernel
      exact fun _ _ d hd _ hdcomp _ _ _ => hnames d hd hdcomp
    rcases horder _ (hvalues ▸ (List.reverse_perm _).symm) hlists with ⟨e, -, he, -⟩ | ⟨r₁, r₂, h1, h2, hsame⟩
    · rw [hr] at he
      cases he
    · rw [hr] at h1
      cases h1
      exact ⟨r, r₂, hr, h2, hsame, hframe⟩

/-- A list that names one called `my-pad` gets its text if that stands in front of it, and fails otherwise. -/
theorem lists_out_of_order :
    let outer := ("outer", "@my-pad 1px", some "Insets")
    let inner := ("my-pad", "@gap 2px", some "Insets")
    (∃ r, ofTable (.ofDeclarations {} [inner, outer, ("gap", "4px", none)]) {} = .ok r ∧
      r.value? "outer" = some "4px 2px 1px") ∧
    ofTable (.ofDeclarations {} [outer, inner, ("gap", "4px", none)]) {} =
      .error (.word "outer" "@my-pad" "@my-pad 1px" (.strayCharacter 'm' 0 "my-pad")) := by
  intro outer inner
  refine ⟨exists_ok_of_toOption (by decide +kernel), ?_⟩
  have herror : (match ofTable (.ofDeclarations {} [outer, inner, ("gap", "4px", none)]) {} with
      | .ok _ => none
      | .error e => some e) = some (.word "outer" "@my-pad" "@my-pad 1px" (.strayCharacter 'm' 0 "my-pad")) := by
    decide +kernel
  cases h : ofTable (.ofDeclarations {} [outer, inner, ("gap", "4px", none)]) {} with
  | ok r =>
    rw [h] at herror
    cases herror
  | error e =>
    rw [h] at herror
    exact congrArg _ (Option.some.inj herror)

end Resolved

end Stylesheet
