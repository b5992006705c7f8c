/-
Numbers and lists. Of a list type, a value with a space in it is not read as a number with a unit; but it is a
list of several words as soon as any blank divides it. So a value of such a type is either a number or a list
where spaces are what divides it (`Constant.number_or_list`), and one that a tabulator divides is both: its
number has the rest of the list as its unit (`Constant.number_and_list`).
-/
import Stylesheet.Proofs.Resolution.Steps
import Stylesheet.Proofs.Text.Words

namespace Stylesheet

namespace Constant

variable {c : Constant}

/-- A value is a number with a unit if it reads as one, and has no space in it where its type is one of lists. -/
theorem quantity?_eq_some_iff {q : Quantity} :
    c.quantity? = some q ↔ Quantity.read? c.rawValue = some q ∧ (c.isList = true → ' ' ∉ c.rawValue.toList) := by
  -- a space alone, which is not excluded, reads as no number
  have hshort (hspace : ' ' ∈ c.rawValue.toList) (hlength : c.rawValue.toList.length ≤ 1) :
      Quantity.read? c.rawValue = none := by
    obtain ⟨d, hd⟩ := List.length_eq_one_iff.1 (hlength.antisymm (List.length_pos_of_mem hspace))
    rw [hd, List.mem_singleton] at hspace
    subst hspace
    rw [Quantity.read?, hd]
    decide
  unfold quantity? mayBeQuantity
  constructor
  · intro h
    split at h
    · rename_i hmay
      refine ⟨h, fun hlist hspace => ?_⟩
      have hlength : c.rawValue.toList.length ≤ 1 := by simpa [hlist, hspace] using hmay
      rw [hshort hspace hlength] at h
      cases h
    · cases h
  · rintro ⟨hread, hspace⟩
    rw [if_pos ?_, hread]
    cases hlist : c.isList with
    | false => rfl
    | true => simp [hspace hlist]

theorem isComposite_iff : c.isComposite = true ↔ c.isList = true ∧ Text.Divided c.rawValue.toList := by
  rw [isComposite, Bool.and_eq_true, decide_eq_true_iff]
  exact and_congr_right fun _ => Text.one_lt_length_words_iff

/-- Being a number and being a list exclude each other if and only if spaces are what divides the value, or it
reads as no number. -/
theorem quantity?_iff_not_isComposite :
    (∀ q, c.quantity? = some q ↔ c.isComposite = false ∧ Quantity.read? c.rawValue = some q) ↔
      (c.isList = true → (Quantity.read? c.rawValue).isSome = true →
        (' ' ∈ c.rawValue.toList ↔ Text.Divided c.rawValue.toList)) := by
  simp only [quantity?_eq_some_iff, ← Bool.not_eq_true, isComposite_iff]
  constructor
  · intro h hlist hread
    obtain ⟨q, hq⟩ := Option.isSome_iff_exists.1 hread
    have hiff := h q
    rw [hq] at hiff
    simpa [hlist, not_iff_not] using hiff
  · intro h q
    rw [and_comm]
    refine and_congr_left fun hq => ?_
    by_cases hlist : c.isList = true
    · rw [h hlist (by rw [hq]; rfl)]
      simp [hlist]
    · simp [hlist]

end Constant

/-! ## Lists in a table -/

namespace Resolution

/-- There is neither a number nor a unit. -/
def IsText (r : Resolution) : Prop := r.number? = none ∧ r.unit? = none

end Resolution

section

variable {limits : Formula.Limits} {cs : List Constant} {s t : States} {c : Constant}

/-- The list stage makes texts. -/
theorem Stage.isText_of_lists (hrun : (Stage.lists limits).Runs cs s t) {name : String} {old : Resolution}
    (hold : s.find? name = some old) (htext : old.IsText) : ∃ new, t.find? name = some new ∧ new.IsText := by
  induction hrun with
  | refl => exact ⟨old, hold, htext⟩
  | tail _ hm ih =>
    obtain ⟨-, -, hs⟩ := hm
    rename_i d old new
    obtain ⟨-, -, texts, -, rfl⟩ := listStep_some hs
    rw [NameMap.find?_insert]
    split
    · exact ⟨_, rfl, rfl, rfl⟩
    · exact ih

/-- A list that is no number at first never becomes one. -/
theorem Resolved.isText_of_isComposite {table : Table} {settings : Settings} {r : Resolved}
    (h : ofTable table settings = .ok r) (hc : c ∈ table.constants.values) (hcomp : c.isComposite = true)
    (htext : (States.initialOf c).IsText) : ∃ state, r.find? c.name = some state ∧ state.IsText := by
  obtain ⟨s₁, s₂, s₃, hruns⟩ := stageRuns_of_ofTable h
  have hself {d : Constant} (hd : d ∈ table.constants.values) (hname : d.name = c.name) : d = c :=
    table.distinct d hd c hc hname
  have haliases {u v : States} (hrun : Stage.aliases.Runs table.constants.values u v) :
      v.find? c.name = u.find? c.name := by
    refine Stage.find?_of_runs hrun fun d hd hname w old => ?_
    rw [hself hd hname]
    exact aliasStep_of_not_alias (.inl hcomp)
  have hformulas : s₂.find? c.name = s₁.find? c.name := by
    refine Stage.find?_of_runs hruns.formulas fun d hd hname w old => ?_
    rw [hself hd hname]
    exact formulaStep_of_not_single (.inl hcomp)
  have hfirst : s₂.find? c.name = some (States.initialOf c) := by
    rw [hformulas, haliases hruns.aliases, States.find?_initial_of_mem hc]
  obtain ⟨state, hstate, hend⟩ := Stage.isText_of_lists hruns.lists hfirst htext
  refine ⟨state, ?_, hend⟩
  rw [find?, haliases hruns.listAliases, hstate]

end

theorem States.initialOf_of_references {c : Constant} (hcomp : c.isComposite = true) (href : c.references ≠ []) :
    initialOf c = .pending c.rawValue ↔ ' ' ∈ c.rawValue.toList ∨ Quantity.read? c.rawValue = none := by
  have hlist : c.isList = true := (Constant.isComposite_iff.1 hcomp).1
  have hpending : initialOf c = .pending c.rawValue ↔ c.quantity? = none := by
    unfold initialOf
    cases c.quantity? with
    | some q => simp
    | none => simp [hcomp, href]
  rw [hpending, Option.eq_none_iff_forall_ne_some]
  simp only [ne_eq, Constant.quantity?_eq_some_iff, hlist, forall_const]
  constructor
  · intro h
    by_contra hn
    obtain ⟨hspace, hread⟩ := not_or.1 hn
    obtain ⟨q, hq⟩ := Option.ne_none_iff_exists'.1 hread
    exact h q ⟨hq, hspace⟩
  · rintro (hspace | hread) q ⟨hq, hno⟩
    · exact hno hspace
    · rw [hread] at hq
      cases hq

/-- A constant has the number and unit that its value reads as, and has them exactly if it is no list of several words:
of a value this is true if and only if its type is not one of lists, or it reads as no number, or there is a space in it
just where a blank divides it. In every table a list with references waits at first exactly if there is a space in it or
it reads as no number, and if it waits, it has neither number nor unit in any result. -/
theorem Constant.number_or_list (settings : Settings) :
    (∀ name value type source, let c := Constant.define settings name value type source
      (∀ q, c.quantity? = some q ↔ c.isComposite = false ∧ Quantity.read? value = some q) ↔
        (settings.isListType type = true → (Quantity.read? value).isSome = true →
          (' ' ∈ value.toList ↔ Text.Divided value.toList))) ∧
    ∀ (table : Table) (c : Constant), c ∈ table.constants.values → c.isComposite = true → c.references ≠ [] →
      ((States.initial table).find? c.name = some (.pending c.rawValue) ↔
        ' ' ∈ c.rawValue.toList ∨ Quantity.read? c.rawValue = none) ∧
      ((States.initial table).find? c.name = some (.pending c.rawValue) →
        ∀ r, Resolved.ofTable table settings = .ok r →
          ∃ state, r.find? c.name = some state ∧ state.number? = none ∧ state.unit? = none) := by
  constructor
  · intro name value type source c
    exact quantity?_iff_not_isComposite
  · intro table c hc hcomp href
    rw [States.find?_initial_of_mem hc, Option.some_inj]
    refine ⟨States.initialOf_of_references hcomp href, fun hpending r hr => ?_⟩
    exact Resolved.isText_of_isComposite hr hc hcomp (by rw [hpending]; exact ⟨rfl, rfl⟩)

/-- Spaces divide a list, which then is no number, and one that starts with a numeral waits for its references. -/
theorem Constant.number_or_list_spaces :
    let declarations := [("pad", "2px @gap", some "Insets"), ("gap", "4px", none)]
    let table := Table.ofDeclarations {} declarations
    (Constant.define {} "pad" "2px @gap" (some "Insets") .null).quantity? = none ∧
    (States.initial table).find? "pad" = some (.pending "2px @gap") ∧
    ∃ r state, Resolved.ofTable table {} = .ok r ∧ r.find? "pad" = some state ∧ state.text = "2px 4px" ∧
      state.number? = none ∧ state.unit? = none := by
  intro declarations table
  obtain ⟨hdefine, htable⟩ := number_or_list {}
  have hspaces : ' ' ∈ "2px @gap".toList ↔ Text.Divided "2px @gap".toList := by
    rw [← Text.one_lt_length_words_iff]
    decide +kernel
  refine ⟨?_, ?_⟩
  · have hnumber := (hdefine "pad" "2px @gap" (some "Insets") .null).2 fun _ _ => hspaces
    rw [Option.eq_none_iff_forall_ne_some]
    intro q hq
    exact absurd ((hnumber q).1 hq).1 (by decide +kernel)
  · let pad := Constant.define {} "pad" "2px @gap" (some "Insets") (.scalar .null)
    have hmem : pad ∈ table.constants.values := ((table.find?_constants_iff "pad" pad).1 rfl).1
    obtain ⟨hstart, hend⟩ := htable table pad hmem (by decide +kernel) (by decide +kernel)
    have hpending := hstart.2 (.inl (by decide +kernel))
    obtain ⟨r, hr, htext⟩ : ∃ r, Resolved.ofTable table {} = .ok r ∧ r.value? "pad" = some "2px 4px" :=
      exists_ok_of_toOption (by decide +kernel)
    obtain ⟨state, hstate, hnone⟩ := hend hpending r hr
    refine ⟨hpending, r, state, hr, hstate, ?_, hnone⟩
    rw [Resolved.value?, show r.find? "pad" = some state from hstate] at htext
    exact Option.some.inj htext

/-- A list that a tabulator divides is a number as well, and its second word a unit that is never resolved. -/
theorem Constant.number_and_list :
    let pad := Constant.define {} "pad" "2px\t@gap" (some "Insets") .null
    let q : Quantity := ⟨.ofInt 2, some "px\t@gap"⟩
    pad.isComposite = true ∧ pad.references = ["@gap".toList] ∧ Quantity.read? "2px\t@gap" = some q ∧
      pad.quantity? = some q ∧ States.initialOf pad = .resolved ⟨"2px\t@gap", some q.number, q.unit⟩ := by
  decide +kernel

end Stylesheet
