/-
What a result answers when its table goes on changing. The states are a copy, so that nothing said of a
constant by its name depends on the table any more; but the extents go through the table as it is now. They
are the same as before if and only if every constant of the type has been resolved, and the constants that are
extents are of the type if they were (`Resolved.answers_after`).
-/
import Stylesheet.Proofs.Constant.Replay
import Stylesheet.Proofs.Resolution.Steps

namespace Stylesheet

/-! ## Names that are added -/

namespace Table

/-- A table that constants are added to keeps its names in their places. -/
theorem exists_names_addAll (table : Table) (cs : List Constant) :
    ∃ new, (table.addAll cs).constants.names = table.constants.names ++ new := by
  induction cs using List.reverseRecOn with
  | nil => exact ⟨[], (List.append_nil _).symm⟩
  | append_singleton cs c ih =>
    obtain ⟨new, hnew⟩ := ih
    have hinsert : (table.addAll (cs ++ [c])).constants.names =
        if c.name ∈ (table.addAll cs).constants.names then (table.addAll cs).constants.names
        else (table.addAll cs).constants.names ++ [c.name] := by
      rw [addAll_append, constants_add]
      exact NameMap.names_insert ..
    rw [hinsert, hnew]
    split
    · exact ⟨new, rfl⟩
    · exact ⟨new ++ [c.name], List.append_assoc ..⟩

theorem exists_names_after (table : Table) (calls : List Call) :
    ∃ new, (table.after calls).constants.names = table.constants.names ++ new := by
  rw [after_eq_addAll]
  exact table.exists_names_addAll _

/-- The constant of this name is of the type of extents. -/
def declaresExtent (table : Table) (name : String) : Bool :=
  (table.constants.find? name).any (·.type == some Extent.typeName)

theorem declaresExtent_of_mem {table : Table} {c : Constant} (hc : c ∈ table.constants.values) :
    table.declaresExtent c.name = (c.type == some Extent.typeName) := by
  rw [declaresExtent, table.find?_of_mem hc, Option.any_some]

theorem exists_of_declaresExtent {table : Table} {name : String} (h : table.declaresExtent name = true) :
    ∃ c ∈ table.constants.values, c.name = name ∧ (c.type == some Extent.typeName) = true := by
  obtain ⟨c, hfind, htype⟩ := (Option.any_eq_true ..).1 h
  obtain ⟨hc, hname⟩ := (table.find?_constants_iff name c).1 hfind
  exact ⟨c, hc, hname, htype⟩

theorem mem_names_of_declaresExtent {table : Table} {name : String} (h : table.declaresExtent name = true) :
    name ∈ table.constants.names := by
  obtain ⟨c, hc, rfl, -⟩ := exists_of_declaresExtent h
  rw [← map_name_values]
  exact List.mem_map_of_mem hc

end Table

namespace Resolved

/-! ## Answers -/

/-- All that a result answers while the table is this one. -/
structure Answers where
  find? : String → Option Resolution
  value? : String → Option String
  constants : List (String × Resolution)
  numbers : List (String × Double)
  unresolved : List String
  passes : Nat
  /-- Where there is no value, nothing is replaced. -/
  substitute : Option String → Option String → Except ResolutionError (Option String)
  extents : Except String (List (String × Extent))

def answers (r : Resolved) (table : Table) : Answers where
  find? := r.find?
  value? := r.value?
  constants := r.states.entries
  numbers := r.numbers
  unresolved := r.unresolved
  passes := r.passes
  substitute value type := value.mapM (r.substitute · type)
  extents := r.extents table

/-! ## Extents -/

/-- The extent that the result holds under a name. -/
def extentNamed? (r : Resolved) (name : String) : Option Extent := (r.find? name).bind extentOf?

/-- The extent of a name, if the table has it among the constants of the type. -/
def declared? (r : Resolved) (table : Table) (name : String) : Option (String × Extent) :=
  if table.declaresExtent name then (r.extentNamed? name).map (name, ·) else none

variable {r : Resolved} {table : Table}

/-- The extents of a table all of whose constants of the type are in the result. -/
theorem extents_eq_ok (h : ∀ name, table.declaresExtent name = true → r.states.contains name = true) :
    r.extents table = .ok (table.constants.names.filterMap (r.declared? table)) := by
  rw [extents, mapM_congr (g := fun c => pure ((r.extentNamed? c.name).map (c.name, ·)))]
  · rw [List.mapM_pure, ← Table.map_name_values]
    show Except.ok _ = Except.ok _
    rw [List.filterMap_map, List.filterMap_filter, List.filterMap_map]
    refine congrArg Except.ok (List.filterMap_congr fun c hc => ?_)
    show _ = r.declared? table c.name
    rw [declared?, table.declaresExtent_of_mem hc]
    rfl
  · intro c hc
    obtain ⟨hmem, htype⟩ := List.mem_filter.1 hc
    obtain ⟨state, hstate⟩ := (NameMap.contains_iff ..).1 (h c.name ((table.declaresExtent_of_mem hmem).trans htype))
    have hfind : r.find? c.name = some state := hstate
    rw [extentNamed?, hfind]
    rfl

/-- Where the extents are listed, all constants of the type are in the result. -/
theorem contains_of_extents_eq_ok {es : List (String × Extent)} (h : r.extents table = .ok es) {name : String}
    (hname : table.declaresExtent name = true) : r.states.contains name = true := by
  obtain ⟨found, hfound, -⟩ := except_bind_ok h
  obtain ⟨c, hc, rfl, htype⟩ := Table.exists_of_declaresExtent hname
  obtain ⟨state, hstate, -⟩ := exists_of_mem_mapM_ok hfound (List.mem_filter.2 ⟨hc, htype⟩)
  show (r.find? c.name).isSome = true
  cases hfind : r.find? c.name with
  | some state => rfl
  | none => rw [hfind] at hstate; cases hstate

theorem mem_declared_iff {name : String} {e : Extent} :
    (name, e) ∈ table.constants.names.filterMap (r.declared? table) ↔
      table.declaresExtent name = true ∧ r.extentNamed? name = some e := by
  rw [List.mem_filterMap]
  constructor
  · rintro ⟨other, -, h⟩
    unfold declared? at h
    split at h
    · rename_i hdeclares
      obtain ⟨e', he', heq⟩ := Option.map_eq_some_iff.1 h
      cases heq
      exact ⟨hdeclares, he'⟩
    · cases h
  · rintro ⟨hdeclares, he⟩
    exact ⟨name, Table.mem_names_of_declaresExtent hdeclares, by rw [declared?, if_pos hdeclares, he]; rfl⟩

/-! ## After other definitions -/

theorem contains_states_iff {settings : Settings} (h : ofTable table settings = .ok r) (name : String) :
    r.states.contains name = true ↔ name ∈ table.constants.names := by
  obtain ⟨s₁, s₂, s₃, hruns⟩ := stageRuns_of_ofTable h
  have hextends : States.Extends (States.initial table) r.states :=
    (Stage.extends_of_runs hruns.aliases).trans <| (Stage.extends_of_runs hruns.formulas).trans <|
      (Stage.extends_of_runs hruns.lists).trans (Stage.extends_of_runs hruns.listAliases)
  rw [hextends.contains, ← NameMap.mem_names_iff, States.initial, NameMap.names_map]

theorem mem_names_of_extentNamed? {settings : Settings} (h : ofTable table settings = .ok r) {name : String}
    (hname : (r.extentNamed? name).isSome = true) : name ∈ table.constants.names := by
  obtain ⟨e, he⟩ := Option.isSome_iff_exists.1 hname
  obtain ⟨state, hstate, -⟩ := Option.bind_eq_some_iff.1 he
  exact (contains_states_iff h name).1 ((NameMap.contains_iff ..).2 ⟨state, hstate⟩)

/-- While a result is kept, its table may go on changing. All but the extents stays the same, whatever is
defined; and so do the extents, if and only if each constant of the table that is of their type was there when
it was resolved, and what the result holds as an extent is of the type if it was. -/
theorem answers_after {settings : Settings} (h : ofTable table settings = .ok r) (calls : List Call) :
    { r.answers (table.after calls) with extents := r.extents table } = r.answers table ∧
    (r.answers (table.after calls) = r.answers table ↔
      ∀ name, ((table.after calls).declaresExtent name = true → name ∈ table.constants.names) ∧
        ((r.extentNamed? name).isSome = true →
          (table.after calls).declaresExtent name = table.declaresExtent name)) := by
  refine ⟨rfl, ?_⟩
  have hbefore : r.extents table = .ok (table.constants.names.filterMap (r.declared? table)) :=
    extents_eq_ok fun name hname => (contains_states_iff h name).2 (Table.mem_names_of_declaresExtent hname)
  have hanswers : r.answers (table.after calls) = r.answers table ↔
      r.extents (table.after calls) = r.extents table := by
    simp [answers]
  rw [hanswers, hbefore]
  constructor
  · intro hafter name
    refine ⟨fun hname => (contains_states_iff h name).1 (contains_of_extents_eq_ok hafter hname), fun hextent => ?_⟩
    obtain ⟨e, he⟩ := Option.isSome_iff_exists.1 hextent
    have hlist : r.extents (table.after calls) =
        .ok ((table.after calls).constants.names.filterMap (r.declared? (table.after calls))) :=
      extents_eq_ok fun _ => contains_of_extents_eq_ok hafter
    rw [hafter] at hlist
    have hmem : (table.after calls).declaresExtent name = true ∧ r.extentNamed? name = some e ↔
        table.declaresExtent name = true ∧ r.extentNamed? name = some e := by
      rw [← mem_declared_iff, ← mem_declared_iff, Except.ok.inj hlist]
    simpa [he] using hmem
  · intro hsame
    rw [extents_eq_ok fun name hname => (contains_states_iff h name).2 ((hsame name).1 hname)]
    obtain ⟨new, hnew⟩ := table.exists_names_after calls
    have hnone : new.filterMap (r.declared? (table.after calls)) = [] := by
      refine List.filterMap_eq_nil_iff.2 fun name hname => if_neg fun hdeclares => ?_
      have hnodup : (table.constants.names ++ new).Nodup := hnew ▸ (table.after calls).constants.nodup
      exact (List.nodup_append.1 hnodup).2.2 name ((hsame name).1 hdeclares) name hname rfl
    rw [hnew, List.filterMap_append, hnone, List.append_nil]
    refine congrArg Except.ok (List.filterMap_congr fun name _ => ?_)
    unfold declared?
    cases he : r.extentNamed? name with
    | none => simp
    | some e => rw [(hsame name).2 (by rw [he]; rfl)]

/-- Numbers and plain texts that are defined later, and an extent that is redefined, change no answer. -/
theorem answers_after_redefinition :
    let table := Table.ofDeclarations {} [("gap", "4px", some "Extent")]
    let calls : List Call := [.define "gap" "7em" (some "Extent") .null, .define "wide" "1px" none .null,
      .define " " "1px" (some "Extent") .null]
    ∃ r, ofTable table {} = .ok r ∧ r.extents table = .ok [("gap", ⟨4, .pixel⟩)] ∧
      r.answers (table.after calls) = r.answers table := by
  intro table calls
  obtain ⟨r, hr, hextents⟩ : ∃ r, ofTable table {} = .ok r ∧ r.extents table = .ok [("gap", ⟨4, .pixel⟩)] :=
    exists_ok_of_toOption (by decide +kernel)
  refine ⟨r, hr, hextents, (answers_after hr calls).2.2 fun name => ⟨fun hname => ?_, fun hname => ?_⟩⟩
  · have hvalues : (table.after calls).constants.values =
        [.define {} "gap" "7em" (some "Extent") .null, .define {} "wide" "1px" none .null] := by
      rw [Table.after_eq_addAll]
      rfl
    obtain ⟨c, hc, rfl, htype⟩ := Table.exists_of_declaresExtent hname
    rw [hvalues] at hc
    simp only [List.mem_cons, List.not_mem_nil, or_false] at hc
    rcases hc with rfl | rfl
    · decide +kernel
    · exact absurd htype (by decide)
  · have hnames : table.constants.names = ["gap"] := rfl
    have hmem := mem_names_of_extentNamed? hr hname
    rw [hnames, List.mem_singleton] at hmem
    subst hmem
    decide +kernel

/-- An extent that is defined after its table was resolved leaves the result without extents. -/
theorem answers_after_new_extent :
    let table := Table.ofDeclarations {} [("gap", "4px", some "Extent")]
    let calls : List Call := [.define "wide" "1px" (some "Extent") .null]
    ∃ r, ofTable table {} = .ok r ∧ r.extents table = .ok [("gap", ⟨4, .pixel⟩)] ∧
      r.extents (table.after calls) = .error "wide" ∧ r.answers (table.after calls) ≠ r.answers table := by
  intro table calls
  obtain ⟨r, hr, hboth⟩ : ∃ r, ofTable table {} = .ok r ∧
      (r.extents table, r.extents (table.after calls)) = (.ok [("gap", ⟨4, .pixel⟩)], .error "wide") :=
    exists_ok_of_toOption (by decide +kernel)
  obtain ⟨hbefore, hafter⟩ := Prod.mk.inj hboth
  refine ⟨r, hr, hbefore, hafter, fun h => ?_⟩
  have hextents : r.extents (table.after calls) = r.extents table := congrArg Answers.extents h
  rw [hbefore, hafter] at hextents
  cases hextents

end Resolved

end Stylesheet
