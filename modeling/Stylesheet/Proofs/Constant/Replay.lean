/-
Tables that are filled by calls. Whether a call is refused, and which constant it defines, does not depend on
what the table holds, and a refused call changes nothing. So a table is the replay of the definitions that
were accepted: look-up finds the last of a name, the names stand in the order of their first definitions, and
the numbers in the order of their last.
-/
import Mathlib.Data.List.Dedup
import Mathlib.Data.List.Induction
import Stylesheet.Constant.Call
import Stylesheet.Proofs.Except

namespace Stylesheet

/-! ## Calls -/

namespace Call

/-- The constant that a call defines under these settings. -/
def constant (settings : Settings) (call : Call) : Except CallError Constant :=
  match call.entry with
  | .ok entry => (Table.constantOf settings entry call.source).mapError .definition
  | .error faults => .error (.invalid faults)

/-- The constants that some calls define, in order; those that are refused define none. -/
def defined (settings : Settings) (calls : List Call) : List Constant :=
  calls.filterMap fun call => (call.constant settings).toOption

/-- A call adds the constant that it defines. One that is refused is so before its first change. -/
theorem on_make (call : Call) (table : Table) : call.make.on table = table.taking (call.constant table.settings) := by
  unfold make constant
  cases call.entry with
  | error faults => exact Procedure.on_throw _ table
  | ok entry =>
    dsimp only
    rw [Procedure.on_mapError, Table.on_put]
    cases Table.constantOf table.settings entry call.source <;> rfl

/-- Whether a call is refused, and what it defines, depends on the table only in its settings. -/
theorem on_make_fst (call : Call) (table : Table) : (call.make.on table).1 = call.constant table.settings := by
  rw [on_make]
  cases call.constant table.settings <;> rfl

theorem on_make_snd_of_error {call : Call} {table : Table} {e : CallError} (h : (call.make.on table).1 = .error e) :
    (call.make.on table).2 = table := by
  rw [on_make_fst] at h
  rw [on_make, h]
  rfl

end Call

namespace Table

/-- The table with some constants added, one after the other. -/
def addAll (table : Table) (cs : List Constant) : Table := cs.foldl add table

theorem addAll_append (table : Table) (cs : List Constant) (c : Constant) :
    table.addAll (cs ++ [c]) = (table.addAll cs).add c := by
  rw [addAll, List.foldl_append]
  rfl

@[simp] theorem settings_addAll (table : Table) (cs : List Constant) : (table.addAll cs).settings = table.settings := by
  induction cs generalizing table with
  | nil => rfl
  | cons c cs ih => exact (ih (table.add c)).trans (settings_add table c)

/-- Calls are the replay of what they define. -/
theorem after_eq_addAll (table : Table) (calls : List Call) :
    table.after calls = table.addAll (Call.defined table.settings calls) := by
  induction calls generalizing table with
  | nil => rfl
  | cons call calls ih =>
    show (table.next call).after calls = _
    rw [next, Call.on_make, Call.defined, List.filterMap_cons]
    cases call.constant table.settings with
    | error e => exact ih table
    | ok c =>
      show (table.add c).after calls = (table.add c).addAll _
      rw [ih, settings_add]
      rfl

/-! ## The replay of definitions -/

/-- The last constant of a name. -/
def lastNamed (cs : List Constant) (name : String) : Option Constant := cs.reverse.find? (·.name == name)

theorem lastNamed_append (cs : List Constant) (c : Constant) (name : String) :
    lastNamed (cs ++ [c]) name = if name = c.name then some c else lastNamed cs name := by
  rw [lastNamed, List.reverse_append, List.reverse_singleton, List.singleton_append, List.find?_cons]
  by_cases h : name = c.name
  · simp [h]
  · rw [show (c.name == name) = false by simpa using Ne.symm h, if_neg h]
    rfl

/-- A constant is the last of its name if none behind it has the name. -/
theorem lastNamed_of_not_mem {before after : List Constant} {c : Constant} (h : ∀ d ∈ after, d.name ≠ c.name) :
    lastNamed (before ++ c :: after) c.name = some c := by
  have hnone : after.reverse.find? (·.name == c.name) = none := by
    rw [List.find?_eq_none]
    exact fun d hd => by simpa using h d (List.mem_reverse.1 hd)
  rw [lastNamed, List.reverse_append, List.reverse_cons, List.append_assoc, List.find?_append, hnone, Option.none_or,
    List.singleton_append, List.find?_cons_of_pos (by simp)]

theorem eraseDups_append_singleton (l : List String) (a : String) :
    (l ++ [a]).eraseDups = if a ∈ l then l.eraseDups else l.eraseDups ++ [a] := by
  rw [List.eraseDups_append, List.removeAll, List.filter_singleton]
  by_cases h : a ∈ l
  · simp [h]
  · simp [h, List.eraseDups_cons]

theorem dedup_append_singleton {α : Type} [DecidableEq α] (l : List α) (a : α) :
    (l ++ [a]).dedup = l.dedup.filter (· ≠ a) ++ [a] := by
  induction l with
  | nil => simp
  | cons b l ih =>
    by_cases hb : b ∈ l
    · rw [List.cons_append, List.dedup_cons_of_mem (List.mem_append_left _ hb), List.dedup_cons_of_mem hb, ih]
    · rw [List.dedup_cons_of_notMem hb]
      by_cases hba : b = a
      · subst hba
        rw [List.cons_append, List.dedup_cons_of_mem (by simp), ih]
        simp
      · rw [List.cons_append, List.dedup_cons_of_notMem (by simp [hb, hba]), ih]
        simp [hba]

section Replay

variable (settings : Settings) (cs : List Constant)

/-- Look-up finds the last definition of a name. -/
theorem find?_constants_addAll (name : String) :
    ((empty settings).addAll cs).constants.find? name = lastNamed cs name := by
  induction cs using List.reverseRecOn with
  | nil => rfl
  | append_singleton cs c ih =>
    rw [addAll_append, constants_add, lastNamed_append, ← ih]
    exact NameMap.find?_insert ..

/-- Names stand in the order of their first definitions. -/
theorem names_constants_addAll :
    ((empty settings).addAll cs).constants.names = (cs.map (·.name)).eraseDups := by
  induction cs using List.reverseRecOn with
  | nil => rfl
  | append_singleton cs c ih =>
    have hinsert : ((empty settings).addAll (cs ++ [c])).constants.names =
        if c.name ∈ ((empty settings).addAll cs).constants.names then ((empty settings).addAll cs).constants.names
        else ((empty settings).addAll cs).constants.names ++ [c.name] := by
      rw [addAll_append, constants_add]
      exact NameMap.names_insert ..
    rw [hinsert, ih, List.map_append, List.map_singleton, eraseDups_append_singleton]
    simp only [List.mem_eraseDups]

theorem map_name_values (table : Table) : table.constants.values.map (·.name) = table.constants.names := by
  rw [NameMap.values, NameMap.names, List.map_map]
  exact List.map_congr_left fun entry h => table.named entry h

/-- The number of the last definition of a name, if that is one. -/
def numberNamed (name : String) : Option Double := (lastNamed cs name).bind fun c => c.quantity?.map (·.number)

theorem numberNamed_append (c : Constant) (name : String) :
    numberNamed (cs ++ [c]) name = if name = c.name then c.quantity?.map (·.number) else numberNamed cs name := by
  rw [numberNamed, lastNamed_append]
  split <;> rfl

variable {cs} in
theorem mem_map_name_of_mem_numbers {numbers : NameMap Double} {name : String}
    (h : numbers.entries = (cs.map (·.name)).dedup.filterMap fun name => (numberNamed cs name).map (name, ·))
    (hmem : name ∈ numbers.names) : name ∈ cs.map (·.name) := by
  obtain ⟨entry, hentry, rfl⟩ := List.mem_map.1 hmem
  rw [h] at hentry
  obtain ⟨other, hother, heq⟩ := List.mem_filterMap.1 hentry
  obtain ⟨x, -, rfl⟩ := Option.map_eq_some_iff.1 heq
  exact List.mem_dedup.1 hother

/-- Numbers stand in the order of the last definitions of their names. -/
theorem entries_numbers_addAll :
    ((empty settings).addAll cs).numbers.entries =
      (cs.map (·.name)).dedup.filterMap fun name => (numberNamed cs name).map (name, ·) := by
  induction cs using List.reverseRecOn with
  | nil => rfl
  | append_singleton cs c ih =>
    -- a name that is new has no number yet, so that of the name is gone whether it is forgotten or not
    have hdropped : (if ((empty settings).addAll cs).constants.contains c.name then
        ((empty settings).addAll cs).numbers.erase c.name else ((empty settings).addAll cs).numbers) =
        ((empty settings).addAll cs).numbers.erase c.name := by
      split
      · rfl
      · rename_i hnew
        refine (NameMap.erase_of_not_mem fun hmem => hnew ?_).symm
        rw [← NameMap.mem_names_iff, names_constants_addAll, List.mem_eraseDups]
        exact mem_map_name_of_mem_numbers ih hmem
    -- the other numbers keep their places
    have hothers : (((empty settings).addAll cs).numbers.erase c.name).entries =
        ((cs.map (·.name)).dedup.filter (· ≠ c.name)).filterMap
          fun name => (numberNamed (cs ++ [c]) name).map (name, ·) := by
      show ((empty settings).addAll cs).numbers.entries.filter (·.1 != c.name) = _
      rw [ih, List.filter_filterMap, List.filterMap_filter]
      refine List.filterMap_congr fun name _ => ?_
      rw [numberNamed_append]
      by_cases h : name = c.name
      · cases numberNamed cs name <;> simp [h]
      · cases numberNamed cs name <;> simp [h]
    have habsent : c.name ∉ (((empty settings).addAll cs).numbers.erase c.name).names := by
      rw [NameMap.names_erase]
      simp
    rw [addAll_append, List.map_append, List.map_singleton, dedup_append_singleton, List.filterMap_append, ← hothers,
      List.filterMap_cons, numberNamed_append, if_pos rfl]
    unfold Table.add
    rw [hdropped]
    cases c.quantity? with
    | none => simp
    | some q => exact NameMap.entries_insert_of_not_mem habsent q.number

end Replay

end Table

end Stylesheet
