/-
What the steps of the stages read and do. A constant moves only when all constants that its
references mention are resolved; it moves once in a stage; and where it can move or fail, it does so
in the same way in every state that extends this one (`Stage.Lawful`). The last fact needs names that
formulas can mention: a list looks up a whole reference, whatever its name.
-/
import Mathlib.Tactic
import Stylesheet.Proofs.Resolution.Run

namespace Stylesheet

open Formula (names evaluate)
open States (Extends)

/-! ## References -/

namespace Constant

/-- The value without its mark. -/
def formula (c : Constant) : String := String.ofList c.rawValue.toList.tail

/-- The formulas of the references in the value: that of a single value, or one for each reference
of a list. -/
def formulas (c : Constant) : List String :=
  if c.isComposite then c.references.map fun word => String.ofList word.tail
  else if c.isReference then [c.formula] else []

/-- The names in the references of the value. -/
def mentions (c : Constant) : List String := c.formulas.flatMap names

theorem isReference_of_rawValue {c : Constant} {f : String} (h : c.rawValue = "@" ++ f) :
    c.isReference = true ∧ c.formula = f := by
  simp [isReference, formula, Stylesheet.isReference, h]

theorem rawValue_eq_of_isReference {c : Constant} (h : c.isReference = true) :
    c.rawValue.toList = '@' :: c.formula.toList := by
  rw [formula, String.toList_ofList]
  simp only [isReference, Stylesheet.isReference, beq_iff_eq] at h
  cases hl : c.rawValue.toList with
  | nil => rw [hl] at h; cases h
  | cons a rest => rw [hl] at h; cases h; rfl

theorem mentions_of_isReference {c : Constant} (hc : c.isComposite = false) (hr : c.isReference = true) :
    c.mentions = names c.formula := by
  simp [mentions, formulas, hc, hr]

end Constant

theorem aliasTarget?_eq_some_iff {text : List Char} {target : String} :
    aliasTarget? text = some target ↔ text = '@' :: target.toList ∧ Formula.isName target.toList = true := by
  unfold aliasTarget?
  split
  · rename_i rest
    constructor
    · intro h
      split at h
      · rename_i hn; cases h; simpa using hn
      · cases h
    · rintro ⟨h, hn⟩
      cases h
      rw [if_pos hn, String.ofList_toList]
  · rename_i hne
    constructor
    · intro h; cases h
    · rintro ⟨rfl, -⟩; exact absurd rfl (hne _)

/-- An alias is a reference whose formula is the name of its target. -/
theorem formula_of_aliasTarget? {c : Constant} {target : String}
    (h : aliasTarget? c.rawValue.toList = some target) :
    c.isReference = true ∧ c.formula = target ∧ names c.formula = [target] := by
  obtain ⟨hraw, hn⟩ := aliasTarget?_eq_some_iff.1 h
  have hf : c.formula = target := by simp [Constant.formula, hraw]
  refine ⟨by simp [Constant.isReference, isReference, hraw], hf, ?_⟩
  rw [hf, Formula.names_of_isName hn]

/-! ## Initial states -/

theorem States.initialOf_cases (c : Constant) :
    (∃ q, c.quantity? = some q ∧ initialOf c = .resolved ⟨c.rawValue, some q.number, q.unit⟩) ∨
      initialOf c = .resolved ⟨c.rawValue, none, none⟩ ∨ initialOf c = .pending c.rawValue := by
  unfold initialOf
  split
  · rename_i q hq
    exact .inl ⟨q, hq, rfl⟩
  · by_cases h : (if c.isComposite then !c.references.isEmpty else c.isReference) = true
    · rw [if_pos h]; exact .inr (.inr rfl)
    · rw [if_neg h]; exact .inr (.inl rfl)

theorem States.initialOf_of_not_resolved {c : Constant} (h : ∀ value, initialOf c ≠ .resolved value) :
    initialOf c = .pending c.rawValue := by
  rcases initialOf_cases c with ⟨q, -, hv⟩ | hv | hv
  · exact absurd hv (h _)
  · exact absurd hv (h _)
  · exact hv

theorem States.find?_initial (table : Table) (name : String) :
    (initial table).find? name = (table.constants.find? name).map initialOf :=
  NameMap.find?_map ..

theorem States.find?_initial_of_mem {table : Table} {c : Constant} (hc : c ∈ table.constants.values) :
    (initial table).find? c.name = some (initialOf c) := by
  rw [find?_initial, table.find?_of_mem hc, Option.map_some]

theorem States.contains_initial (table : Table) (name : String) :
    (initial table).contains name = table.constants.contains name := by
  unfold NameMap.contains
  rw [find?_initial, Option.isSome_map]

/-- A single reference waits at first. -/
theorem States.initialOf_of_isReference {c : Constant} (hc : c.isComposite = false) (hr : c.isReference = true) :
    initialOf c = .pending c.rawValue := by
  have hread : c.quantity? = none := by
    unfold Constant.quantity? Quantity.read?
    rw [c.rawValue_eq_of_isReference hr]
    have hsplit : Text.Numeral.split? Text.isDigit ('@' :: c.formula.toList) = none := by
      simp [Text.Numeral.split?, show Text.isDigit '@' = false by decide]
    rw [hsplit]
    split <;> rfl
  unfold initialOf
  rw [hread]
  simp [hc, hr]

theorem States.isReference_of_initialOf {c : Constant} (h : initialOf c = .pending c.rawValue)
    (hc : c.isComposite = false) : c.isReference = true := by
  by_contra hr
  unfold initialOf at h
  rw [if_neg (by rw [hc]; simpa using hr)] at h
  split at h <;> cases h

/-! ## What a state tells of a formula -/

namespace States

variable {s t : States} {f : String}

theorem numbers_eq {name : String} (h : s.find? name = t.find? name) : s.numbers name = t.numbers name := by
  unfold numbers; rw [h]

/-- Only what is resolved has a number. -/
theorem exists_of_numbers {name : String} {x : Double} (h : s.numbers name = some x) :
    ∃ value, s.find? name = some (.resolved value) ∧ value.number = some x := by
  obtain ⟨r, hr, hx⟩ := Option.bind_eq_some_iff.1 h
  cases r with
  | resolved value => exact ⟨value, hr, hx⟩
  | pending rawValue | failed rawValue formula => cases hx

theorem Resolves.contains {name : String} (h : s.Resolves name) : s.contains name = true := by
  obtain ⟨value, hvalue⟩ := h
  exact (NameMap.contains_iff ..).2 ⟨_, hvalue⟩

theorem findSome?_congr {α β : Type} {p q : α → Option β} :
    ∀ {l : List α}, (∀ a ∈ l, p a = q a) → l.findSome? p = l.findSome? q
  | [], _ => rfl
  | a :: l, h => by
    rw [List.findSome?_cons, List.findSome?_cons, h a (List.mem_cons_self ..),
      findSome?_congr fun b hb => h b (List.mem_cons_of_mem _ hb)]

theorem inferUnit_congr (h : ∀ name ∈ names f, s.find? name = t.find? name) :
    s.inferUnit f = t.inferUnit f :=
  findSome?_congr fun name hn => by rw [h name hn]

theorem evaluate_numbers_congr (limits : Formula.Limits) (h : ∀ name ∈ names f, s.find? name = t.find? name) :
    evaluate limits s.numbers f = evaluate limits t.numbers f :=
  Formula.evaluate_congr fun name hn => numbers_eq (h name hn)

/-- No name of the formula waits: those that the state holds are resolved. -/
def Ready (s : States) (f : String) : Prop := ∀ name ∈ names f, s.contains name = true → s.Resolves name

theorem isResolved_iff {name : String} {r : Resolution} (h : s.find? name = some r) :
    r.isResolved = true ↔ s.Resolves name := by
  unfold Resolves
  rw [h]
  cases r <;> simp [Resolution.isResolved]

theorem waitingFor_isEmpty_iff : (s.waitingFor f).isEmpty = true ↔ s.Ready f := by
  unfold waitingFor Ready
  rw [List.isEmpty_iff, List.filter_eq_nil_iff]
  refine forall₂_congr fun name _ => ?_
  unfold NameMap.contains
  cases hf : s.find? name with
  | none => simp
  | some r => simpa using isResolved_iff hf

theorem waitingFor_isEmpty_eq_false_iff : (s.waitingFor f).isEmpty = false ↔ ¬ s.Ready f := by
  rw [← Bool.not_eq_true, waitingFor_isEmpty_iff]

theorem unknownName?_eq_none_iff : unknownName? s f = none ↔ ∀ name ∈ names f, s.contains name = true := by
  simp [unknownName?, List.find?_eq_none]

/-- What is resolved has the same number whether unresolved constants count or not. -/
theorem knownNumbers_eq {name : String} (h : s.contains name = true → s.Resolves name) :
    s.knownNumbers name = s.numbers name := by
  unfold knownNumbers numbers
  cases hc : s.contains name with
  | true =>
    obtain ⟨value, hv⟩ := h hc
    simp [hv, Resolution.number?]
  | false =>
    simp only [NameMap.contains, Option.isSome_eq_false_iff, Option.isNone_iff_eq_none] at hc
    simp [hc]

theorem evaluate_knownNumbers (limits : Formula.Limits) (h : s.Ready f) :
    evaluate limits s.knownNumbers f = evaluate limits s.numbers f :=
  Formula.evaluate_congr fun name hn => knownNumbers_eq (h name hn)

/-- A formula with a name that waits is not a number yet. -/
theorem evaluate_of_not_ready (limits : Formula.Limits) (h : ¬ s.Ready f) :
    evaluate limits s.knownNumbers f = .ok .nan := by
  unfold Ready at h
  push Not at h
  obtain ⟨name, hn, hc, hr⟩ := h
  refine Formula.evaluate_of_unknown limits hn ?_
  obtain ⟨r, hf⟩ := (NameMap.contains_iff s name).1 hc
  unfold knownNumbers
  rw [hf]
  cases r with
  | resolved value => exact absurd ⟨value, hf⟩ hr
  | pending rawValue => rfl
  | failed rawValue formula => rfl

/-- No constant that the references of `c` mention waits. -/
def ReadyFor (s : States) (c : Constant) : Prop :=
  ∀ name ∈ c.mentions, s.contains name = true → s.Resolves name

theorem readyFor_iff {c : Constant} : s.ReadyFor c ↔ ∀ f ∈ c.formulas, s.Ready f := by
  unfold ReadyFor Ready Constant.mentions
  constructor
  · intro h f hf name hn
    exact h name (List.mem_flatMap.2 ⟨f, hf, hn⟩)
  · intro h name hn
    obtain ⟨f, hf, hn⟩ := List.mem_flatMap.1 hn
    exact h f hf name hn

theorem readyFor_of_isReference {c : Constant} (hc : c.isComposite = false) (hr : c.isReference = true) :
    s.ReadyFor c ↔ s.Ready c.formula := by
  rw [readyFor_iff]
  simp [Constant.formulas, hc, hr]

theorem readyFor_of_isComposite {c : Constant} (hc : c.isComposite = true) :
    s.ReadyFor c ↔ ∀ word ∈ c.references, s.Ready (String.ofList word.tail) := by
  rw [readyFor_iff]
  simp [Constant.formulas, hc]

theorem Extends.ready (h : Extends s t) (hs : s.Ready f) : t.Ready f := by
  intro name hn hc
  rw [h.contains] at hc
  exact h.resolves (hs name hn hc)

theorem Extends.find?_eq_of_ready (h : Extends s t) (hs : s.Ready f) :
    ∀ name ∈ names f, t.find? name = s.find? name := by
  intro name hn
  exact h.find?_eq (hs name hn)

end States

/-! ## Aliases -/

@[simp] theorem Stage.step_aliases : Stage.aliases.step = aliasStep := rfl

@[simp] theorem Stage.step_formulas (limits : Formula.Limits) : (Stage.formulas limits).step = formulaStep limits := rfl

@[simp] theorem Stage.step_lists (limits : Formula.Limits) : (Stage.lists limits).step = listStep limits := rfl

variable {limits : Formula.Limits} {s t : States} {c : Constant} {old new : Resolution}

theorem aliasStep_some (h : aliasStep s c old = .ok (some new)) :
    c.isComposite = false ∧ ∃ target value, aliasTarget? c.rawValue.toList = some target ∧
      s.find? target = some (.resolved value) ∧ new = .resolved value := by
  unfold aliasStep at h
  split at h
  · cases h
  · rename_i hn
    simp only [Bool.or_eq_true, not_or, Bool.not_eq_true] at hn
    split at h
    · rename_i value hv
      cases h
      obtain ⟨target, ht, hf⟩ := Option.bind_eq_some_iff.1 hv
      exact ⟨hn.2, target, value, ht, hf, rfl⟩
    · cases h

theorem aliasStep_of_resolved {target : String} {value : Settled} (hold : old.isResolved = false)
    (hc : c.isComposite = false) (ht : aliasTarget? c.rawValue.toList = some target)
    (hf : s.find? target = some (.resolved value)) : aliasStep s c old = .ok (some (.resolved value)) := by
  unfold aliasStep
  rw [hold, hc, ht]
  simp [hf]

theorem aliasStep_ne_error (e : ResolutionError) : aliasStep s c old ≠ .error e := by
  unfold aliasStep
  split
  · intro h; cases h
  · split <;> intro h <;> cases h

/-- Only aliases take alias steps. -/
theorem aliasStep_of_not_alias (h : c.isComposite = true ∨ aliasTarget? c.rawValue.toList = none) :
    aliasStep s c old = .ok none := by
  cases hs : aliasStep s c old with
  | error e => exact absurd hs (aliasStep_ne_error e)
  | ok o =>
    cases o with
    | none => rfl
    | some new =>
      obtain ⟨hc, target, value, ht, -⟩ := aliasStep_some hs
      rcases h with h | h
      · rw [hc] at h; cases h
      · rw [ht] at h; cases h

/-! ## Formulas -/

/-- What a formula all of whose names are resolved makes of a constant. -/
def formulaOutcome (s : States) (rawValue formula : String) (x : Double) : Resolution :=
  if x.isNaN then .failed rawValue formula
  else .resolved ⟨Quantity.write ⟨x, s.inferUnit formula⟩, some x, s.inferUnit formula⟩

/-- Waiting may as well be decided before the formula is evaluated. -/
theorem formulaStep_eq {rawValue : String} (hc : c.isComposite = false) (hr : c.isReference = true) :
    formulaStep limits s c (.pending rawValue) =
      match unknownName? s c.formula with
      | some name => .error (.unknownConstant name c.name c.rawValue)
      | none =>
        if (s.waitingFor c.formula).isEmpty then
          match evaluate limits s.numbers c.formula with
          | .error cause => .error (.ofFormula (.formula c.name c.formula) cause)
          | .ok x => .ok (some (formulaOutcome s rawValue c.formula x))
        else .ok none := by
  have hf : String.ofList c.rawValue.toList.tail = c.formula := rfl
  unfold formulaStep formulaStepOn
  simp only [hc, hr, Bool.not_true, Bool.or_self, Bool.false_eq_true, if_false, hf]
  cases unknownName? s c.formula with
  | some name => rfl
  | none =>
    dsimp only
    cases hw : (s.waitingFor c.formula).isEmpty with
    | true =>
      rw [States.evaluate_knownNumbers limits (States.waitingFor_isEmpty_iff.1 hw)]
      cases evaluate limits s.numbers c.formula with
      | error cause => rfl
      | ok x => cases hx : x.isNaN <;> simp [formulaOutcome, hx]
    | false =>
      rw [States.evaluate_of_not_ready limits (States.waitingFor_isEmpty_eq_false_iff.1 hw)]
      rfl

theorem formulaStep_of_not_single (h : c.isComposite = true ∨ c.isReference = false) :
    formulaStep limits s c old = .ok none := by
  unfold formulaStep formulaStepOn
  cases old with
  | resolved value => rfl
  | failed rawValue formula => rfl
  | pending rawValue =>
    dsimp only
    rw [if_pos (by simpa using h)]

/-- A formula step is taken or fails only where no name waits. -/
theorem ready_of_formulaStep (h : formulaStep limits s c old ≠ .ok none) :
    ∃ rawValue, old = .pending rawValue ∧ c.isComposite = false ∧ c.isReference = true ∧
      (unknownName? s c.formula = none → s.Ready c.formula) := by
  cases old with
  | resolved value => exact absurd rfl h
  | failed rawValue formula => exact absurd rfl h
  | pending rawValue =>
    have hc : c.isComposite = false := by
      by_contra hc
      exact h (formulaStep_of_not_single (.inl (by simpa using hc)))
    have hr : c.isReference = true := by
      by_contra hr
      exact h (formulaStep_of_not_single (.inr (by simpa using hr)))
    refine ⟨rawValue, rfl, hc, hr, fun hu => ?_⟩
    rw [formulaStep_eq hc hr, hu] at h
    by_contra hn
    rw [← States.waitingFor_isEmpty_eq_false_iff] at hn
    simp [hn] at h

theorem formulaStep_some (h : formulaStep limits s c old = .ok (some new)) :
    ∃ rawValue x, old = .pending rawValue ∧ c.isComposite = false ∧ c.isReference = true ∧
      (∀ name ∈ names c.formula, s.Resolves name) ∧ evaluate limits s.numbers c.formula = .ok x ∧
      new = formulaOutcome s rawValue c.formula x := by
  obtain ⟨rawValue, rfl, hc, hr, hready⟩ := ready_of_formulaStep (by rw [h]; intro hn; cases hn)
  rw [formulaStep_eq hc hr] at h
  cases hu : unknownName? s c.formula with
  | some name => rw [hu] at h; cases h
  | none =>
    have hs := hready hu
    rw [hu, States.waitingFor_isEmpty_iff.2 hs] at h
    simp only [if_true] at h
    cases hx : evaluate limits s.numbers c.formula with
    | error cause => rw [hx] at h; cases h
    | ok x =>
      rw [hx] at h
      cases h
      exact ⟨rawValue, x, rfl, hc, hr,
        fun name hn => hs name hn (States.unknownName?_eq_none_iff.1 hu name hn), rfl, rfl⟩

/-- A reference that stays as it is waits for one of its names. -/
theorem not_ready_of_formulaStep_none {rawValue : String} (hc : c.isComposite = false)
    (hr : c.isReference = true) (h : formulaStep limits s c (.pending rawValue) = .ok none) :
    ¬ s.Ready c.formula := by
  intro hs
  rw [formulaStep_eq hc hr, States.waitingFor_isEmpty_iff.2 hs] at h
  cases hu : unknownName? s c.formula with
  | some name => rw [hu] at h; cases h
  | none =>
    rw [hu] at h
    simp only [if_true] at h
    cases hx : evaluate limits s.numbers c.formula <;> rw [hx] at h <;> cases h

/-! ## Lists -/

/-- Every name of the state can stand in a formula. -/
def States.Identifiers (s : States) : Prop := ∀ name, s.contains name = true → Formula.isName name.toList = true

theorem States.Extends.identifiers (h : Extends s t) (hs : s.Identifiers) : t.Identifiers := by
  intro name hc
  rw [h.contains] at hc
  exact hs name hc

/-- The text of a reference depends on what it names, as a whole and in part. -/
theorem States.literal_congr_of_self {f : String} (hself : s.find? f = t.find? f)
    (h : ∀ name ∈ names f, s.find? name = t.find? name) : s.literal limits f = t.literal limits f := by
  unfold States.literal
  rw [hself, States.evaluate_numbers_congr limits h, States.inferUnit_congr h]

theorem States.literal_congr (hs : s.Identifiers) (ht : t.Identifiers) {f : String}
    (h : ∀ name ∈ names f, s.find? name = t.find? name) : s.literal limits f = t.literal limits f := by
  -- the whole reference is looked up as well: it is its only name, or no name at all
  refine literal_congr_of_self ?_ h
  by_cases hf : Formula.isName f.toList = true
  · exact h f (by rw [Formula.names_of_isName hf]; exact List.mem_singleton_self f)
  · have hnone {u : States} (hu : u.Identifiers) : u.find? f = none := by
      by_contra hc
      exact hf (hu f (Option.isSome_iff_ne_none.2 hc))
    rw [hnone hs, hnone ht]

theorem States.Extends.literal_eq (h : Extends s t) (hi : s.Identifiers) {f : String} (hs : s.Ready f) :
    t.literal limits f = s.literal limits f :=
  States.literal_congr (h.identifiers hi) hi (h.find?_eq_of_ready hs)

theorem mem_formulas_of_mem_words (hc : c.isComposite = true) {word : List Char} (hw : word ∈ c.words)
    (hr : isReference word = true) : String.ofList word.tail ∈ c.formulas := by
  rw [Constant.formulas, if_pos hc]
  exact List.mem_map_of_mem (List.mem_filter.2 ⟨hw, hr⟩)

/-- The texts of a list depend on those of its references. -/
theorem mapM_wordText_congr (hc : c.isComposite = true)
    (h : ∀ f ∈ c.formulas, s.literal limits f = t.literal limits f) :
    c.words.mapM (wordText limits s c) = c.words.mapM (wordText limits t c) := by
  refine mapM_congr fun word hw => ?_
  unfold wordText
  split
  · rename_i hr
    rw [h _ (mem_formulas_of_mem_words hc hw hr)]
  · rfl

theorem mapM_wordText_eq (h : Extends s t) (hi : s.Identifiers) (hc : c.isComposite = true)
    (hs : s.ReadyFor c) : c.words.mapM (wordText limits t c) = c.words.mapM (wordText limits s c) :=
  mapM_wordText_congr hc fun f hf => h.literal_eq hi (States.readyFor_iff.1 hs f hf)

theorem any_waitingFor_iff (hc : c.isComposite = true) :
    (c.references.any fun word => !(s.waitingFor (String.ofList word.tail)).isEmpty) = true ↔ ¬ s.ReadyFor c := by
  rw [States.readyFor_of_isComposite hc, List.any_eq_true]
  push Not
  refine exists_congr fun word => and_congr_right fun _ => ?_
  rw [Bool.not_eq_true', States.waitingFor_isEmpty_eq_false_iff]

/-- A list that is not resolved is as soon as no name in it waits. -/
theorem listStep_eq (hold : old.isResolved = false) (hc : c.isComposite = true) :
    listStep limits s c old =
      if (c.references.any fun word => !(s.waitingFor (String.ofList word.tail)).isEmpty) then .ok none
      else match c.words.mapM (wordText limits s c) with
        | .ok texts => .ok (some (.resolved ⟨" ".intercalate texts, none, none⟩))
        | .error e => .error e := by
  unfold listStep
  exact if_neg (by rw [hold, hc]; decide)

theorem listStep_of_not_isComposite (hc : c.isComposite = false) : listStep limits s c old = .ok none := by
  unfold listStep
  rw [hc]
  simp

/-- A list step is taken or fails only where no name waits. -/
theorem readyFor_of_listStep (h : listStep limits s c old ≠ .ok none) :
    old.isResolved = false ∧ c.isComposite = true ∧ s.ReadyFor c := by
  have hold : old.isResolved = false := by
    by_contra hold
    exact h (by unfold listStep; simp [hold])
  have hc : c.isComposite = true := by
    by_contra hc
    exact h (by unfold listStep; simp [hc])
  refine ⟨hold, hc, ?_⟩
  by_contra hn
  rw [listStep_eq hold hc, if_pos ((any_waitingFor_iff hc).2 hn)] at h
  exact h rfl

theorem listStep_of_readyFor (hold : old.isResolved = false) (hc : c.isComposite = true) (hs : s.ReadyFor c) :
    listStep limits s c old = match c.words.mapM (wordText limits s c) with
      | .ok texts => .ok (some (.resolved ⟨" ".intercalate texts, none, none⟩))
      | .error e => .error e := by
  rw [listStep_eq hold hc, if_neg fun h => (any_waitingFor_iff hc).1 h hs]

theorem listStep_some (h : listStep limits s c old = .ok (some new)) :
    c.isComposite = true ∧ s.ReadyFor c ∧ ∃ texts, c.words.mapM (wordText limits s c) = .ok texts ∧
      new = .resolved ⟨" ".intercalate texts, none, none⟩ := by
  obtain ⟨hold, hc, hs⟩ := readyFor_of_listStep (by rw [h]; intro hn; cases hn)
  rw [listStep_of_readyFor hold hc hs] at h
  cases hm : c.words.mapM (wordText limits s c) with
  | error e => rw [hm] at h; cases h
  | ok texts => rw [hm] at h; cases h; exact ⟨hc, hs, texts, rfl, rfl⟩

/-- A list that stays as it is waits for one of the names in it. -/
theorem not_readyFor_of_listStep_none (hold : old.isResolved = false) (hc : c.isComposite = true)
    (h : listStep limits s c old = .ok none) : ¬ s.ReadyFor c := by
  intro hs
  rw [listStep_of_readyFor hold hc hs] at h
  cases hm : c.words.mapM (wordText limits s c) <;> rw [hm] at h <;> cases h

/-! ## Stable states -/

namespace Stage.Stable

variable {cs : List Constant}

/-- Where no formula moves, a single reference waits for one of its names, or failed. -/
theorem resolves_of_ready (h : (Stage.formulas limits).Stable cs s) (hmem : c ∈ cs)
    (hk : s.contains c.name = true) (hc : c.isComposite = false) (hr : c.isReference = true) (hs : s.Ready c.formula)
    (hfailed : ∀ rawValue formula, s.find? c.name ≠ some (.failed rawValue formula)) : s.Resolves c.name := by
  obtain ⟨r, hfound⟩ := (NameMap.contains_iff s c.name).1 hk
  cases r with
  | resolved value => exact ⟨value, hfound⟩
  | pending rawValue => exact absurd hs (not_ready_of_formulaStep_none hc hr (h c hmem _ hfound))
  | failed rawValue formula => exact absurd hfound (hfailed rawValue formula)

/-- Where no list moves, a list waits for one of the names in it. -/
theorem resolves_of_readyFor (h : (Stage.lists limits).Stable cs s) (hmem : c ∈ cs)
    (hk : s.contains c.name = true) (hc : c.isComposite = true) (hs : s.ReadyFor c) : s.Resolves c.name := by
  obtain ⟨r, hfound⟩ := (NameMap.contains_iff s c.name).1 hk
  rw [← States.isResolved_iff hfound]
  by_contra hold
  exact not_readyFor_of_listStep_none (by simpa using hold) hc (h c hmem r hfound) hs

/-- Where no alias moves, an alias waits for its target. -/
theorem resolves_of_target (h : Stage.aliases.Stable cs s) (hmem : c ∈ cs) (hk : s.contains c.name = true)
    (hc : c.isComposite = false) {target : String} (ht : aliasTarget? c.rawValue.toList = some target)
    (hs : s.Resolves target) : s.Resolves c.name := by
  obtain ⟨r, hfound⟩ := (NameMap.contains_iff s c.name).1 hk
  obtain ⟨value, hv⟩ := hs
  rw [← States.isResolved_iff hfound]
  by_contra hold
  have hstay := h c hmem r hfound
  rw [Stage.step_aliases, aliasStep_of_resolved (by simpa using hold) hc ht hv] at hstay
  cases hstay

end Stage.Stable

/-! ## Steps that stay possible -/

theorem aliasStep_eq_of_extends (hst : Extends s t) (h : aliasStep s c old ≠ .ok none) :
    aliasStep t c old = aliasStep s c old := by
  cases hs : aliasStep s c old with
  | error e => exact absurd hs (aliasStep_ne_error e)
  | ok o =>
    cases o with
    | none => exact absurd hs h
    | some new =>
      obtain ⟨hc, target, value, ht, hf, rfl⟩ := aliasStep_some hs
      exact aliasStep_of_resolved (Stage.aliases.isResolved_eq_false_of_step hs) hc ht (hst.resolved hf)

theorem formulaStep_eq_of_extends (hst : Extends s t) (h : formulaStep limits s c old ≠ .ok none) :
    formulaStep limits t c old = formulaStep limits s c old := by
  obtain ⟨rawValue, rfl, hc, hr, hready⟩ := ready_of_formulaStep h
  -- which names are known does not change, nor the values of those that were ready
  have hu : unknownName? t c.formula = unknownName? s c.formula := by
    unfold unknownName?; simp only [hst.contains]
  rw [formulaStep_eq hc hr, formulaStep_eq hc hr, hu]
  cases hun : unknownName? s c.formula with
  | some name => rfl
  | none =>
    have hs := hready hun
    have hnames := hst.find?_eq_of_ready hs
    rw [States.waitingFor_isEmpty_iff.2 hs, States.waitingFor_isEmpty_iff.2 (hst.ready hs),
      States.evaluate_numbers_congr limits hnames]
    unfold formulaOutcome
    rw [States.inferUnit_congr hnames]

theorem listStep_eq_of_extends (hst : Extends s t) (h : listStep limits s c old ≠ .ok none)
    (hwords : ∀ f ∈ c.formulas, t.literal limits f = s.literal limits f) :
    listStep limits t c old = listStep limits s c old := by
  obtain ⟨hold, hc, hs⟩ := readyFor_of_listStep h
  have ht : t.ReadyFor c := by
    intro name hn hk
    exact hst.resolves (hs name hn (by rwa [← hst.contains]))
  rw [listStep_of_readyFor hold hc ht, listStep_of_readyFor hold hc hs, mapM_wordText_congr hc hwords]

/-! ## Lawful stages -/

/-- What makes the order of moves irrelevant: a move waits for all that the constant mentions, is the
only one of the constant in the stage, and stays possible with its outcome, as a failure does. -/
structure Stage.Lawful (stage : Stage) : Prop where
  waits : ∀ {s c old new}, stage.step s c old = .ok (some new) → s.ReadyFor c
  settles : ∀ {s c old new}, stage.step s c old = .ok (some new) → ∀ t, stage.step t c new = .ok none
  persists : ∀ {s t c old}, s.Identifiers → Extends s t → stage.step s c old ≠ .ok none →
    stage.step t c old = stage.step s c old

theorem aliases_lawful : Stage.aliases.Lawful := by
  constructor
  case waits =>
    intro s c old new h
    obtain ⟨hc, target, value, ht, hf, -⟩ := aliasStep_some h
    obtain ⟨hr, -, hn⟩ := formula_of_aliasTarget? ht
    rw [States.readyFor_of_isReference hc hr]
    -- an alias has no name but its target
    intro name hname _
    rw [hn, List.mem_singleton] at hname
    subst hname
    exact ⟨value, hf⟩
  case settles =>
    intro s c old new h t
    obtain ⟨-, target, value, -, -, rfl⟩ := aliasStep_some h
    simp [aliasStep, Resolution.isResolved]
  case persists =>
    intro s t c old _ hst h
    exact aliasStep_eq_of_extends hst h

theorem formulas_lawful (limits : Formula.Limits) : (Stage.formulas limits).Lawful := by
  constructor
  case waits =>
    intro s c old new h
    obtain ⟨rawValue, x, -, hc, hr, hn, -⟩ := formulaStep_some h
    rw [States.readyFor_of_isReference hc hr]
    intro name hname _
    exact hn name hname
  case settles =>
    intro s c old new h t
    obtain ⟨rawValue, x, -, -, -, -, -, rfl⟩ := formulaStep_some h
    rw [Stage.step_formulas, formulaOutcome]
    split <;> rfl
  case persists =>
    intro s t c old _ hst h
    exact formulaStep_eq_of_extends hst h

theorem lists_lawful (limits : Formula.Limits) : (Stage.lists limits).Lawful := by
  constructor
  case waits =>
    intro s c old new h
    exact (listStep_some h).2.1
  case settles =>
    intro s c old new h t
    obtain ⟨-, -, texts, -, rfl⟩ := listStep_some h
    simp [listStep, Resolution.isResolved]
  case persists =>
    intro s t c old hi hst h
    obtain ⟨-, -, hs⟩ := readyFor_of_listStep h
    exact listStep_eq_of_extends hst h fun f hf => hst.literal_eq hi (States.readyFor_iff.1 hs f hf)

end Stylesheet
