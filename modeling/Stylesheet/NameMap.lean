/-
Values by name, in the order in which the names were first given. A name given again keeps its
place; a name that was erased and is given again goes to the end.
-/

namespace Stylesheet

structure NameMap (α : Type) where
  entries : List (String × α)
  nodup : (entries.map Prod.fst).Nodup

namespace NameMap

variable {α β : Type}

def empty : NameMap α := ⟨[], .nil⟩

instance : Inhabited (NameMap α) := ⟨empty⟩

def size (m : NameMap α) : Nat := m.entries.length

def names (m : NameMap α) : List String := m.entries.map Prod.fst

def values (m : NameMap α) : List α := m.entries.map Prod.snd

def find? (m : NameMap α) (name : String) : Option α := m.entries.lookup name

def contains (m : NameMap α) (name : String) : Bool := (m.find? name).isSome

/-! ## Insertion -/

def insertEntry (name : String) (value : α) : List (String × α) → List (String × α)
  | [] => [(name, value)]
  | entry :: rest =>
    if entry.1 = name then (name, value) :: rest else entry :: insertEntry name value rest

theorem map_fst_insertEntry (name : String) (value : α) (entries : List (String × α)) :
    (insertEntry name value entries).map Prod.fst =
      if name ∈ entries.map Prod.fst then entries.map Prod.fst
      else entries.map Prod.fst ++ [name] := by
  induction entries with
  | nil => simp [insertEntry]
  | cons entry rest ih =>
    by_cases h : entry.1 = name
    · simp [insertEntry, h]
    · have h' : name ≠ entry.1 := fun e => h e.symm
      simp only [insertEntry, if_neg h, List.map_cons, ih, List.mem_cons, h', false_or]
      split <;> rfl

theorem nodup_insertEntry (name : String) (value : α) {entries : List (String × α)}
    (h : (entries.map Prod.fst).Nodup) :
    ((insertEntry name value entries).map Prod.fst).Nodup := by
  rw [map_fst_insertEntry]
  split
  · exact h
  · rename_i hn
    rw [List.nodup_append]
    refine ⟨h, by simp, ?_⟩
    intro a ha b hb
    rw [List.mem_singleton] at hb
    subst hb
    exact fun e => hn (e ▸ ha)

theorem eq_or_mem_of_mem_insertEntry {name : String} {value : α} {entry : String × α}
    {entries : List (String × α)} (h : entry ∈ insertEntry name value entries) :
    entry = (name, value) ∨ entry ∈ entries := by
  induction entries with
  | nil => exact .inl (List.mem_singleton.1 h)
  | cons head rest ih =>
    simp only [insertEntry] at h
    split at h
    · exact (List.mem_cons.1 h).imp_right (List.mem_cons_of_mem _)
    · rcases List.mem_cons.1 h with rfl | h
      · exact .inr (List.mem_cons_self ..)
      · exact (ih h).imp_right (List.mem_cons_of_mem _)

def insert (m : NameMap α) (name : String) (value : α) : NameMap α :=
  ⟨insertEntry name value m.entries, nodup_insertEntry name value m.nodup⟩

/-! ## Erasure -/

def erase (m : NameMap α) (name : String) : NameMap α :=
  ⟨m.entries.filter (·.1 != name), m.nodup.sublist ((List.filter_sublist).map _)⟩

theorem erase_of_not_mem {m : NameMap α} {name : String} (h : name ∉ m.names) : m.erase name = m := by
  obtain ⟨entries, nodup⟩ := m
  have hkept : entries.filter (·.1 != name) = entries := by
    rw [List.filter_eq_self]
    intro entry hentry
    rw [bne_iff_ne]
    rintro rfl
    exact h (List.mem_map_of_mem hentry)
  simp only [erase, hkept]

/-! ## Mapping -/

def map (f : α → β) (m : NameMap α) : NameMap β :=
  ⟨m.entries.map fun entry => (entry.1, f entry.2), by
    simpa [List.map_map, Function.comp_def] using m.nodup⟩

theorem nodup_filterMap (f : α → Option β) {entries : List (String × α)} (h : (entries.map Prod.fst).Nodup) :
    ((entries.filterMap fun entry => (f entry.2).map (entry.1, ·)).map Prod.fst).Nodup := by
  refine h.sublist ?_
  clear h
  induction entries with
  | nil => exact .slnil
  | cons entry rest ih =>
    rw [List.filterMap_cons]
    cases f entry.2 with
    | none => exact .cons _ ih
    | some value => exact .cons_cons _ ih

/-- The values that a function gives, each under the name of what it is given for. -/
def filterMap (f : α → Option β) (m : NameMap α) : NameMap β :=
  ⟨m.entries.filterMap fun entry => (f entry.2).map (entry.1, ·), nodup_filterMap f m.nodup⟩

/-- Puts the same value under some names. -/
def insertAll (m : NameMap α) (value : α) (names : List String) : NameMap α :=
  names.foldl (fun m name => m.insert name value) m

/-! ## Look-up -/

@[simp] theorem find?_empty (name : String) : (empty : NameMap α).find? name = none := rfl

theorem lookup_cons_ite (name k : String) (v : α) (entries : List (String × α)) :
    List.lookup name ((k, v) :: entries) = if name = k then some v else entries.lookup name := by
  rw [List.lookup_cons]
  by_cases h : name = k
  · simp [h]
  · rw [show (name == k) = false by simpa using h, if_neg h]

theorem lookup_insertEntry (name other : String) (value : α) (entries : List (String × α)) :
    (insertEntry name value entries).lookup other =
      if other = name then some value else entries.lookup other := by
  induction entries with
  | nil => simp [insertEntry, lookup_cons_ite]
  | cons entry rest ih =>
    obtain ⟨k, v⟩ := entry
    by_cases h : k = name
    · subst h
      simp only [insertEntry, if_true, lookup_cons_ite]
      split <;> simp_all
    · simp only [insertEntry, if_neg h, lookup_cons_ite, ih]
      by_cases h' : other = k
      · simp [h', h]
      · simp [h']

@[simp] theorem find?_insert_self (m : NameMap α) (name : String) (value : α) :
    (m.insert name value).find? name = some value := by
  simp [find?, insert, lookup_insertEntry]

theorem find?_insert_of_ne (m : NameMap α) {name other : String} (h : other ≠ name) (value : α) :
    (m.insert name value).find? other = m.find? other := by
  simp [find?, insert, lookup_insertEntry, h]

theorem find?_insert (m : NameMap α) (name other : String) (value : α) :
    (m.insert name value).find? other = if other = name then some value else m.find? other := by
  simp [find?, insert, lookup_insertEntry]

@[simp] theorem find?_map (f : α → β) (m : NameMap α) (name : String) :
    (m.map f).find? name = (m.find? name).map f := by
  simp only [find?, map]
  induction m.entries with
  | nil => rfl
  | cons entry rest ih =>
    obtain ⟨k, v⟩ := entry
    simp only [List.map_cons, lookup_cons_ite, ih]
    split <;> rfl

/-- Values that are left out are not found. -/
theorem lookup_filterMap (g : α → Option β) {entries : List (String × α)}
    (hkeys : (entries.map Prod.fst).Nodup) (name : String) :
    (entries.filterMap fun entry => (g entry.2).map (entry.1, ·)).lookup name = (entries.lookup name).bind g := by
  induction entries with
  | nil => rfl
  | cons entry rest ih =>
    obtain ⟨k, v⟩ := entry
    rw [List.map_cons, List.nodup_cons] at hkeys
    have ih := ih hkeys.2
    rw [lookup_cons_ite, List.filterMap_cons]
    cases hg : g v with
    | some b =>
      simp only [Option.map_some]
      rw [lookup_cons_ite, ih]
      split
      · exact hg.symm
      · rfl
    | none =>
      simp only [Option.map_none]
      rw [ih]
      split
      · rename_i hk
        subst hk
        have hnone : rest.lookup name = none := List.lookup_eq_none_iff.2 fun entry he => by
          simpa using fun e => hkeys.1 (List.mem_map.2 ⟨entry, he, Eq.symm e⟩)
        rw [hnone]
        exact hg.symm
      · rfl

theorem find?_filterMap (f : α → Option β) (m : NameMap α) (name : String) :
    (m.filterMap f).find? name = (m.find? name).bind f :=
  lookup_filterMap f m.nodup name

theorem find?_insertAll (m : NameMap α) (value : α) (names : List String) (name : String) :
    (m.insertAll value names).find? name = if name ∈ names then some value else m.find? name := by
  induction names generalizing m with
  | nil => simp [insertAll]
  | cons other rest ih =>
    show ((m.insert other value).insertAll value rest).find? name = _
    rw [ih, find?_insert]
    by_cases hrest : name ∈ rest
    · simp [hrest]
    · simp [hrest]

/-- Look-up finds the entries and nothing else. -/
theorem find?_eq_some_iff (m : NameMap α) (name : String) (value : α) :
    m.find? name = some value ↔ (name, value) ∈ m.entries := by
  obtain ⟨entries, nodup⟩ := m
  simp only [find?]
  induction entries with
  | nil => simp
  | cons entry rest ih =>
    obtain ⟨k, v⟩ := entry
    rw [List.map_cons, List.nodup_cons] at nodup
    rw [lookup_cons_ite, List.mem_cons]
    split
    · rename_i hk
      subst hk
      have hrest : (name, value) ∉ rest := fun h => nodup.1 (List.mem_map.2 ⟨_, h, rfl⟩)
      simp [hrest, eq_comm]
    · rename_i hk
      simp [ih nodup.2, hk]

theorem contains_iff (m : NameMap α) (name : String) :
    m.contains name = true ↔ ∃ value, m.find? name = some value := by
  rw [contains, Option.isSome_iff_exists]

theorem mem_names_iff (m : NameMap α) (name : String) : name ∈ m.names ↔ m.contains name = true := by
  rw [contains_iff, names, List.mem_map]
  constructor
  · rintro ⟨⟨k, v⟩, h, rfl⟩
    exact ⟨v, (find?_eq_some_iff m k v).2 h⟩
  · rintro ⟨v, h⟩
    exact ⟨_, (find?_eq_some_iff m name v).1 h, rfl⟩

theorem lookup_filter_ne (name other : String) (entries : List (String × α)) :
    (entries.filter (·.1 != name)).lookup other =
      if other = name then none else entries.lookup other := by
  induction entries with
  | nil => simp
  | cons entry rest ih =>
    obtain ⟨k, v⟩ := entry
    by_cases hk : k = name
    · have hdrop : ((k, v) :: rest).filter (·.1 != name) = rest.filter (·.1 != name) := by
        simp [hk]
      rw [hdrop, ih, lookup_cons_ite, hk]
      split <;> rfl
    · simp only [List.filter_cons, bne_iff_ne, ne_eq, hk, not_false_eq_true, if_true,
        lookup_cons_ite, ih]
      by_cases ho : other = k
      · simp [ho, hk]
      · simp [ho]

theorem find?_erase (m : NameMap α) (name other : String) :
    (m.erase name).find? other = if other = name then none else m.find? other :=
  lookup_filter_ne name other m.entries

/-! ## Order -/

theorem names_insert (m : NameMap α) (name : String) (value : α) :
    (m.insert name value).names = if name ∈ m.names then m.names else m.names ++ [name] :=
  map_fst_insertEntry name value m.entries

theorem names_erase (m : NameMap α) (name : String) :
    (m.erase name).names = m.names.filter (· != name) := by
  simp [names, erase, List.filter_map, Function.comp_def]

/-- A name that is not there goes to the end. -/
theorem entries_insert_of_not_mem {m : NameMap α} {name : String} (h : name ∉ m.names) (value : α) :
    (m.insert name value).entries = m.entries ++ [(name, value)] := by
  obtain ⟨entries, nodup⟩ := m
  simp only [names] at h
  simp only [insert]
  clear nodup
  induction entries with
  | nil => rfl
  | cons entry rest ih =>
    rw [List.map_cons, List.mem_cons, not_or] at h
    rw [insertEntry, if_neg (Ne.symm h.1), ih h.2, List.cons_append]

theorem names_map (f : α → β) (m : NameMap α) : (m.map f).names = m.names := by
  simp [names, map, Function.comp_def]

theorem map_insertEntry (f : α → β) (name : String) (value : α) (entries : List (String × α)) :
    (insertEntry name value entries).map (fun entry => (entry.1, f entry.2)) =
      insertEntry name (f value) (entries.map fun entry => (entry.1, f entry.2)) := by
  induction entries with
  | nil => rfl
  | cons entry rest ih =>
    by_cases h : entry.1 = name
    · simp [insertEntry, h]
    · simp [insertEntry, h, ih]

theorem map_insert (f : α → β) (m : NameMap α) (name : String) (value : α) :
    (m.insert name value).map f = (m.map f).insert name (f value) := by
  simp only [map, insert, map_insertEntry]

/-! ## Measures -/

/-- The sum of a measure over all values. -/
def total (measure : α → Nat) (m : NameMap α) : Nat :=
  m.entries.foldr (fun e n => measure e.2 + n) 0

theorem foldr_insertEntry_lt {measure : α → Nat} {name : String} {old new : α}
    (lt : measure new < measure old) {entries : List (String × α)}
    (h : entries.lookup name = some old) :
    (insertEntry name new entries).foldr (fun e n => measure e.2 + n) 0 <
      entries.foldr (fun e n => measure e.2 + n) 0 := by
  induction entries with
  | nil => simp at h
  | cons entry rest ih =>
    obtain ⟨k, v⟩ := entry
    rw [lookup_cons_ite] at h
    by_cases hk : k = name
    · subst hk
      rw [if_pos rfl] at h
      cases h
      simp [insertEntry, lt]
    · rw [if_neg fun e => hk e.symm] at h
      simp [insertEntry, hk, ih h]

/-- Lowering one value lowers the total. -/
theorem total_insert_lt {measure : α → Nat} {m : NameMap α} {name : String} {old new : α}
    (h : m.find? name = some old) (lt : measure new < measure old) :
    (m.insert name new).total measure < m.total measure :=
  foldr_insertEntry_lt lt h

end NameMap

end Stylesheet
