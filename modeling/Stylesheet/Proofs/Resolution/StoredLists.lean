/-
Stored lists and substitution in the result. A list is settled in view of a state that has all it mentions,
and later states keep that. So the text stored for it is what substitution makes of its value at the end
(`Resolved.substitute_rawValue`), although that splits the value anew and reads the finished states.
-/
import Stylesheet.Proofs.Resolution.Acyclic
import Stylesheet.Proofs.Resolution.Order
import Stylesheet.Proofs.Text.Words

namespace Stylesheet

open Document (Data)

/-! ## Tables that are filled by definitions -/

namespace Table

/-- Definitions made the table of an empty one. -/
inductive Defined : Table → Prop
  | empty (settings : Settings) : Defined (.empty settings)
  | put {table next : Table} {entry : Entry} {source : Data} {c : Constant} (defined : Defined table)
    (put : (Table.put entry source).on table = (.ok c, next)) : Defined next

theorem isList_of_constantOf {settings : Settings} {entry : Entry} {source : Data} {c : Constant}
    (h : constantOf settings entry source = .ok c) : c.isList = settings.isListType c.type := by
  unfold constantOf at h
  split at h
  · cases h
  · cases h
  · cases h; rfl

theorem constantOf_of_put {table next : Table} {entry : Entry} {source : Data} {c : Constant}
    (h : (put entry source).on table = (.ok c, next)) :
    constantOf table.settings entry source = .ok c ∧ table.add c = next := by
  rw [on_put] at h
  cases hconstant : constantOf table.settings entry source with
  | error e =>
    rw [hconstant] at h
    cases h
  | ok d =>
    rw [hconstant] at h
    cases h
    exact ⟨rfl, rfl⟩

/-- The settings of the table say which of its constants are lists. -/
theorem Defined.isList_eq {table : Table} (h : table.Defined) :
    ∀ c ∈ table.constants.values, c.isList = table.settings.isListType c.type := by
  induction h with
  | empty settings =>
    intro c hc
    cases hc
  | put _ hput ih =>
    obtain ⟨hconstant, rfl⟩ := constantOf_of_put hput
    intro d hd
    rw [constants_add] at hd
    rw [settings_add]
    obtain ⟨entry, hentry, rfl⟩ := List.mem_map.1 hd
    rcases NameMap.eq_or_mem_of_mem_insertEntry hentry with rfl | hentry
    · exact isList_of_constantOf hconstant
    · exact ih _ (List.mem_map_of_mem hentry)

theorem put_of_filled (table : Table) {name value : String} {type : Option String} (source : Data)
    (hname : Text.allBlank name = false) (hvalue : Text.allBlank value = false) (htype : type ≠ some "") :
    (put ⟨some name, type, some value⟩ source).on table =
      (.ok (.define table.settings name value type source),
        table.add (.define table.settings name value type source)) := by
  have hfilter : type.filter (· != "") = type := by
    cases type with
    | none => rfl
    | some t => simpa using htype
  rw [on_put]
  simp [constantOf, filled?, hname, hvalue, hfilter, taking]

/-- Declarations with a name and a value are definitions. -/
theorem defined_ofDeclarations (settings : Settings) {declarations : List (String × String × Option String)}
    (h : ∀ d ∈ declarations, Text.allBlank d.1 = false ∧ Text.allBlank d.2.1 = false ∧ d.2.2 ≠ some "") :
    (ofDeclarations settings declarations).Defined ∧ (ofDeclarations settings declarations).settings = settings := by
  induction declarations using List.reverseRecOn with
  | nil => exact ⟨.empty settings, rfl⟩
  | append_singleton declarations d ih =>
    obtain ⟨hdefined, hsettings⟩ := ih fun d hd => h d (List.mem_append_left _ hd)
    obtain ⟨hname, hvalue, htype⟩ := h d (List.mem_append_right _ (List.mem_singleton_self d))
    have happend : ofDeclarations settings (declarations ++ [d]) =
        (ofDeclarations settings declarations).add (.define settings d.1 d.2.1 d.2.2 (.scalar .null)) := by
      rw [ofDeclarations, List.foldl_append]
      rfl
    have hput := (ofDeclarations settings declarations).put_of_filled (.scalar .null) hname hvalue htype
    rw [hsettings] at hput
    rw [happend]
    exact ⟨hdefined.put hput, (settings_add ..).trans hsettings⟩

end Table

/-! ## Words of the value, at the end -/

namespace Resolved

/-- A word of a list has the same text in the result as among the steps; there is nothing to trim of it. -/
theorem literal_of_wordText {r : Resolved} {c : Constant} {word : List Char} {text : String} (hw : word ∈ c.words)
    (h : wordText r.settings.limits r.states c word = .ok text) :
    (if isReference word then r.literal word else .ok (String.ofList word)) = .ok text := by
  unfold wordText at h
  split at h
  · rename_i href
    rw [if_pos href, literal, Text.trim_of_not_blank (Text.isBlank_eq_false_of_mem_words hw)]
    cases htext : r.states.literal r.settings.limits (String.ofList word.tail) with
    | ok value =>
      rw [htext] at h
      cases h
      rfl
    | error cause =>
      rw [htext] at h
      cases h
  · rename_i href
    rw [if_neg href, h]

/-- A value of a list type without references is its own substitution. -/
theorem substitute_of_no_references {r : Resolved} {c : Constant} (hlist : r.settings.isListType c.type = true)
    (hrefs : c.references = []) : r.substitute c.rawValue c.type = .ok c.rawValue := by
  have hany : (Text.words c.rawValue.toList).any isReference = false := by
    rw [List.any_eq_false]
    exact List.filter_eq_nil_iff.1 hrefs
  simp [substitute, hlist, hany]

/-- A value of a list type is substituted word by word. -/
theorem substitute_of_references {r : Resolved} {c : Constant} {texts : List String}
    (hlist : r.settings.isListType c.type = true) (hrefs : c.references ≠ [])
    (htexts : c.words.mapM (wordText r.settings.limits r.states c) = .ok texts) :
    r.substitute c.rawValue c.type = .ok (" ".intercalate texts) := by
  have hany : (Text.words c.rawValue.toList).any isReference = true := by
    obtain ⟨word, hword⟩ := List.exists_mem_of_ne_nil _ hrefs
    obtain ⟨hword, href⟩ := List.mem_filter.1 hword
    exact List.any_eq_true.2 ⟨word, hword, href⟩
  have hmap := mapM_ok_mono (fun word hw text h => literal_of_wordText hw h) htexts
  rw [substitute, if_pos hlist]
  dsimp only
  rw [if_pos hany, show Text.words c.rawValue.toList = c.words from rfl, hmap]
  rfl

end Resolved

/-! ## Stored texts -/

/-- A list that waited at first and is resolved has the texts of its words, as they are at the end. -/
theorem texts_of_stageRuns {table : Table} {limits : Formula.Limits} {s₁ s₂ s₃ s₄ : States} {c : Constant}
    (hruns : StageRuns limits table.constants.values (States.initial table) s₁ s₂ s₃ s₄)
    (hi : (States.initial table).Identifiers) (hc : c ∈ table.constants.values) (hcomp : c.isComposite = true)
    (hpend : States.initialOf c = .pending c.rawValue) (hr : s₄.Resolves c.name) :
    ∃ texts, c.words.mapM (wordText limits s₄ c) = .ok texts ∧
      s₄.find? c.name = some (.resolved ⟨" ".intercalate texts, none, none⟩) := by
  obtain ⟨-, hi₂, hi₃, -⟩ := hruns.identifiers hi
  obtain ⟨hbefore, hafter⟩ := find?_of_isComposite hruns hc hcomp
  rw [hpend] at hbefore
  obtain ⟨value, hv⟩ := hr
  rw [hafter] at hv ⊢
  -- the step that settled the list is still possible when all lists are done
  rcases Stage.justified_of_runs (lists_lawful limits) table.distinct ((lists_lawful limits).persistsFrom hi₂)
    hruns.lists c hc with
    hsame | ⟨old, new, hold, hnew, hstep⟩
  · rw [hsame, hbefore] at hv
    cases hv
  · obtain ⟨-, hready, texts, htexts, rfl⟩ := listStep_some hstep
    refine ⟨texts, ?_, hnew⟩
    rw [mapM_wordText_eq (Stage.extends_of_runs hruns.listAliases) hi₃ hcomp hready, htexts]

namespace Resolved

/-- The text of a resolved list is what substitution in the result makes of its value. -/
theorem substitute_rawValue {table : Table} {r : Resolved} {c : Constant} (hdefined : table.Defined)
    (hnames : ∀ name ∈ table.constants.names, Formula.isName name.toList = true)
    (h : ofTable table table.settings = .ok r) (hc : c ∈ table.constants.values) (hcomp : c.isComposite = true)
    (hquantity : c.quantity? = none) (hr : r.states.Resolves c.name) :
    ∃ text, r.value? c.name = some text ∧ r.substitute c.rawValue c.type = .ok text := by
  obtain ⟨s₁, s₂, s₃, hruns⟩ := stageRuns_of_ofTable h
  have hsettings := (runStages_of_ofTable h).2
  have hlist : r.settings.isListType c.type = true := by
    rw [hsettings, ← hdefined.isList_eq c hc]
    exact (Bool.and_eq_true_iff.1 hcomp).1
  unfold value? find?
  by_cases hrefs : c.references = []
  -- a list without references is its raw value from the start
  · refine ⟨c.rawValue, ?_, substitute_of_no_references hlist hrefs⟩
    have hinit : States.initialOf c = .resolved ⟨c.rawValue, none, none⟩ := by
      simp [States.initialOf, hquantity, hcomp, hrefs]
    have hfound := (find?_of_isComposite hruns hc hcomp).1
    rw [hinit] at hfound
    have hext := (Stage.extends_of_runs hruns.lists).trans (Stage.extends_of_runs hruns.listAliases)
    rw [hext.resolved hfound]
    rfl
  · have hpend : States.initialOf c = .pending c.rawValue := by
      simp [States.initialOf, hquantity, hcomp, hrefs]
    obtain ⟨texts, htexts, hfound⟩ := texts_of_stageRuns hruns (initial_identifiers hnames) hc hcomp hpend hr
    refine ⟨" ".intercalate texts, ?_, substitute_of_references hlist hrefs (by rw [hsettings]; exact htexts)⟩
    rw [hfound]
    rfl

/-- A list in a list, with a formula and blanks between its words. -/
theorem substitute_rawValue_nested :
    let settings : Settings := { strict := false }
    let table := Table.ofDeclarations settings
      [("outer", "@inner  @gap*2 1px", some "Insets"), ("inner", "@gap 2px", some "Insets"), ("gap", "4px", none)]
    ∃ r, ofTable table settings = .ok r ∧ r.value? "outer" = some "4px 2px 8px 1px" ∧
      r.substitute "@inner  @gap*2 1px" (some "Insets") = .ok "4px 2px 8px 1px" := by
  intro settings table
  obtain ⟨r, hr, houter⟩ : ∃ r, ofTable table settings = .ok r ∧
      r.find? "outer" = some (.resolved ⟨"4px 2px 8px 1px", none, none⟩) :=
    exists_ok_of_toOption (by decide +kernel)
  have hmem : Constant.define settings "outer" "@inner  @gap*2 1px" (some "Insets")
      (.scalar .null) ∈ table.constants.values :=
    ((table.find?_constants_iff "outer" _).1 rfl).1
  have hvalue : r.value? "outer" = some "4px 2px 8px 1px" := by
    rw [value?, houter]
    rfl
  obtain ⟨text, htext, hsubst⟩ := substitute_rawValue (Table.defined_ofDeclarations settings (by decide +kernel)).1
    (by decide +kernel) hr hmem (by decide +kernel) (by decide +kernel) ⟨_, houter⟩
  obtain rfl : "4px 2px 8px 1px" = text := Option.some.inj (hvalue.symm.trans htext)
  exact ⟨r, hr, hvalue, hsubst⟩

end Resolved

end Stylesheet
