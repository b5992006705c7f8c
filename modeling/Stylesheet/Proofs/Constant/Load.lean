/-
Loading against defining one by one. A document is read as a whole before any constant is defined; yet it is
refused if and only if one of its items would be, put into an empty table in turn, and otherwise gives the
same table (`Table.replay_of_definitions`). The sources tell which item came last under each name.
-/
import Stylesheet.Constant.Load
import Stylesheet.Document.Json
import Stylesheet.Proofs.Constant.Replay

namespace Stylesheet

open Document (Data Format FieldError Reader)

/-! ## Sources -/

def Constant.withSource (c : Constant) (source : Data) : Constant := { c with source }

@[simp] theorem Constant.name_withSource (c : Constant) (source : Data) : (c.withSource source).name = c.name := rfl

@[simp] theorem Constant.source_withSource (c : Constant) (source : Data) : (c.withSource source).source = source := rfl

namespace Table

theorem bare_add (table : Table) (c : Constant) : (table.add c).bare = table.bare.add c.bare := by
  have hcontains : table.bare.constants.contains c.name = table.constants.contains c.name := by
    simp [bare, NameMap.contains]
  unfold add
  rw [Constant.name_bare, hcontains]
  simp only [bare, setConstant, NameMap.map_insert]
  rfl

theorem bare_addAll (table : Table) (cs : List Constant) :
    (table.addAll cs).bare = table.bare.addAll (cs.map Constant.bare) := by
  induction cs generalizing table with
  | nil => rfl
  | cons c cs ih =>
    show ((table.add c).addAll cs).bare = _
    rw [ih, bare_add]
    rfl

/-- The source of the constant that is defined at this place of a document. -/
def indexSource (i : Nat) : Data := .scalar (.int i)

/-- Each constant gets the source of its place. -/
def placed (sources : Nat → Data) (cs : List Constant) : List Constant :=
  cs.zipIdx.map fun p => p.1.withSource (sources p.2)

theorem map_bare_placed (sources : Nat → Data) (cs : List Constant) :
    (placed sources cs).map Constant.bare = cs.map Constant.bare := by
  rw [placed, List.map_map]
  show cs.zipIdx.map (Constant.bare ∘ Prod.fst) = _
  rw [← List.map_map, List.zipIdx_map_fst]

theorem exists_parts_of_placed {sources : Nat → Data} {cs before after : List Constant} {c : Constant}
    (h : placed sources cs = before ++ c :: after) : ∃ ds d ds', cs = ds ++ d :: ds' ∧
      c = d.withSource (sources ds.length) ∧ ds'.map (·.name) = after.map (·.name) := by
  obtain ⟨front, back, hzip, -, hback⟩ := List.map_eq_append_iff.1 h
  obtain ⟨p, rest, rfl, rfl, rfl⟩ := List.map_eq_cons_iff.1 hback
  obtain ⟨ds, back, rfl, -, hcons⟩ := List.zipIdx_eq_append_iff.1 hzip
  obtain ⟨d, ds', rfl, rfl, rfl⟩ := List.zipIdx_eq_cons_iff.1 hcons.symm
  refine ⟨ds, d, ds', rfl, by simp, ?_⟩
  rw [List.map_map]
  show _ = (ds'.zipIdx _).map ((·.name) ∘ Prod.fst)
  rw [← List.map_map, List.zipIdx_map_fst]

theorem exists_placed_append (sources : Nat → Data) (before : List Constant) (c : Constant) (after : List Constant) :
    ∃ source front back, placed sources (before ++ c :: after) = front ++ c.withSource source :: back ∧
      back.map (·.name) = after.map (·.name) := by
  refine ⟨sources before.length, placed sources before,
    (after.zipIdx (before.length + 1)).map fun p => p.1.withSource (sources p.2), ?_, ?_⟩
  · unfold placed
    simp [List.zipIdx_append, List.zipIdx_cons]
  · rw [List.map_map]
    show (after.zipIdx _).map ((·.name) ∘ Prod.fst) = _
    rw [← List.map_map, List.zipIdx_map_fst]

/-- A loop that gives sources to constants is one that defines them without. -/
theorem mapM_zipIdx_withSource {ε α : Type} {f : α → Data → Except ε Constant}
    (hf : ∀ a source, f a source = (f a .null).map (·.withSource source)) (sources : Nat → Data) (l : List α) :
    (l.zipIdx.mapM fun p => f p.1 (sources p.2)) = (l.mapM (f · .null)).map (placed sources) := by
  suffices h : ∀ k, ((l.zipIdx k).mapM fun p => f p.1 (sources p.2)) =
      (l.mapM (f · .null)).map fun cs => (cs.zipIdx k).map fun p => p.1.withSource (sources p.2) from h 0
  induction l with
  | nil => exact fun k => rfl
  | cons a l ih =>
    intro k
    rw [List.zipIdx_cons, List.mapM_cons, ih, List.mapM_cons, hf a (sources k)]
    cases f a .null with
    | error e => rfl
    | ok c => cases l.mapM (f · .null) <;> rfl

theorem constantOf_withSource (settings : Settings) (entry : Entry) (source : Data) :
    constantOf settings entry source = (constantOf settings entry .null).map (·.withSource source) := by
  unfold constantOf
  split <;> rfl

theorem name_of_constantOf {settings : Settings} {entry : Entry} {source : Data} {c : Constant}
    (h : constantOf settings entry source = .ok c) : entry.name = some c.name := by
  unfold constantOf at h
  split at h
  · cases h
  · cases h
  · rename_i name value hname hvalue
    cases h
    unfold filled? at hname
    split at hname
    · split at hname
      · cases hname
      · cases hname; assumption
    · cases hname

/-! ## Loops of definitions -/

section

variable {ε α : Type} {settings : Settings} {define : α → Procedure Table ε Constant} {f : α → Except ε Constant}
  {l : List α} {table : Table}

/-- The definition of an `α` adds the constant that `f` gives for it, or changes nothing. -/
def Defines (settings : Settings) (define : α → Procedure Table ε Constant) (f : α → Except ε Constant) : Prop :=
  ∀ a table, table.settings = settings → (define a).on table = table.taking (f a)

/-- Definitions in turn are refused where one of them is. -/
theorem Defines.on_forM_fst (h : Defines settings define f) (hsettings : table.settings = settings) :
    ((l.forM fun a => discard (define a)).on table).1 = (l.mapM f).map fun _ => () := by
  induction l generalizing table with
  | nil => rfl
  | cons a l ih =>
    rw [List.forM, List.mapM_cons, Procedure.on_bind, Procedure.on_discard, h a table hsettings]
    cases f a with
    | error e => rfl
    | ok c =>
      show ((l.forM fun a => discard (define a)).on (table.add c)).1 = _
      rw [ih ((settings_add table c).trans hsettings)]
      cases l.mapM f <;> rfl

/-- Definitions in turn that are all accepted add what they define. -/
theorem Defines.on_forM_snd (h : Defines settings define f) (hsettings : table.settings = settings) {cs : List Constant}
    (hcs : l.mapM f = .ok cs) : ((l.forM fun a => discard (define a)).on table).2 = table.addAll cs := by
  induction l generalizing table cs with
  | nil =>
    cases hcs
    rfl
  | cons a l ih =>
    obtain ⟨c, rest, ha, hrest, rfl⟩ := mapM_cons_ok hcs
    rw [List.forM, Procedure.on_bind, Procedure.on_discard, h a table hsettings, ha]
    exact ih ((settings_add table c).trans hsettings) hrest

/-- Definitions in turn leave a table exactly if all are accepted. -/
theorem Defines.on_forM_iff (h : Defines settings define f) (hsettings : table.settings = settings) {other : Table} :
    (l.forM fun a => discard (define a)).on table = (.ok (), other) ↔
      ∃ cs, l.mapM f = .ok cs ∧ table.addAll cs = other := by
  rw [Prod.ext_iff, h.on_forM_fst hsettings]
  constructor
  · rintro ⟨hok, rfl⟩
    obtain ⟨cs, hcs, -⟩ := except_map_ok hok
    exact ⟨cs, hcs, (h.on_forM_snd hsettings hcs).symm⟩
  · rintro ⟨cs, hcs, rfl⟩
    exact ⟨by rw [hcs]; rfl, h.on_forM_snd hsettings hcs⟩

end

theorem defines_make (settings : Settings) : Defines settings Call.make (Call.constant settings) := by
  rintro call table rfl
  exact Call.on_make call table

theorem defines_put (settings : Settings) : Defines settings (fun p : Entry × Nat => put p.1 (indexSource p.2))
    fun p => constantOf settings p.1 (indexSource p.2) := by
  rintro p table rfl
  exact on_put p.1 (indexSource p.2) table

/-! ## Loading -/

/-- What an item of a document defines, but for the source. -/
def itemConstant (settings : Settings) (item : Data) : Except CallError Constant :=
  Call.constant settings (.putData item .null)

theorem constant_putData (settings : Settings) (item source : Data) :
    Call.constant settings (.putData item source) = match Entry.read item with
      | .ok entry => (constantOf settings entry source).mapError .definition
      | .error faults => .error (.invalid faults) := rfl

theorem constant_putData_withSource (settings : Settings) (item source : Data) :
    Call.constant settings (.putData item source) = (itemConstant settings item).map (·.withSource source) := by
  rw [itemConstant, constant_putData, constant_putData]
  cases Entry.read item with
  | error faults => rfl
  | ok entry =>
    dsimp only
    rw [constantOf_withSource settings entry source]
    cases constantOf settings entry .null <;> rfl

theorem itemConstant_eq_ok_iff {settings : Settings} {item : Data} {c : Constant} :
    itemConstant settings item = .ok c ↔
      ∃ entry, Entry.read item = .ok entry ∧ constantOf settings entry .null = .ok c := by
  rw [itemConstant, constant_putData]
  cases Entry.read item with
  | error faults => simp
  | ok entry => cases h : constantOf settings entry .null <;> simp [Except.mapError, h]

/-- The document holds these items, as a list or in the mapping of a document. -/
def Lists (data : Data) (items : List Data) : Prop :=
  data = .list items ∨ ∃ entries, data = .mapping entries ∧ Data.field? "constants" entries = some (.list items)

theorem documentEntries_of_lists {data : Data} {items : List Data} (h : Lists data items) :
    documentEntries data = .ok items := by
  rcases h with rfl | ⟨entries, rfl, hfield⟩
  · rfl
  · rw [documentEntries, hfield]
    rfl

section

variable {reader : Reader} {settings : Settings} {text : String} {format : Option Format} {data : Data}
  {items : List Data} {table : Table}

/-- A table is loaded from a document that is read, and whose entries are all defined. -/
theorem load_eq_ok_iff : load reader settings text format = .ok table ↔ ∃ entries cs,
    readEntries reader text format = .ok entries ∧ entries.mapM (constantOf settings · .null) = .ok cs ∧
      (empty settings).addAll (placed indexSource cs) = table := by
  have hput (entries : List Entry) : (putEach entries).on (empty settings) = (.ok (), table) ↔
      ∃ cs, entries.mapM (constantOf settings · .null) = .ok cs ∧
        (empty settings).addAll (placed indexSource cs) = table := by
    rw [show putEach entries = entries.zipIdx.forM fun p => discard (put p.1 (indexSource p.2)) from rfl,
      (defines_put settings).on_forM_iff rfl,
      mapM_zipIdx_withSource fun entry source => constantOf_withSource settings entry source]
    cases entries.mapM (constantOf settings · .null) <;> simp [Except.map]
  unfold load
  cases readEntries reader text format with
  | error e => simp [bind, Except.bind]
  | ok entries =>
    simp only [bind, Except.bind, Except.ok.injEq, exists_and_left, exists_eq_left', ← hput]
    split
    · rename_i heq
      simp [heq]
    · rename_i heq
      simp [heq]

theorem readEntries_eq (hread : reader (format.getD (Format.detect text.toList)) text.toList = .ok data)
    (hitems : Lists data items) : readEntries reader text format = items.mapM fun item => match Entry.read item with
      | .ok entry => .ok entry
      | .error faults => .error (.invalidEntry (format.getD (Format.detect text.toList)) faults) := by
  unfold readEntries readDocument
  dsimp only
  rw [hread]
  show (documentEntries data >>= _) = _
  rw [documentEntries_of_lists hitems]
  rfl

/-- Reading all items and then defining them is the same as reading and defining each. -/
theorem load_eq_ok_iff_items (hread : reader (format.getD (Format.detect text.toList)) text.toList = .ok data)
    (hitems : Lists data items) : load reader settings text format = .ok table ↔
      ∃ cs, items.mapM (itemConstant settings) = .ok cs ∧ (empty settings).addAll (placed indexSource cs) = table := by
  have hboth (cs : List Constant) : items.mapM (itemConstant settings) = .ok cs ↔
      ∃ entries, readEntries reader text format = .ok entries ∧
        entries.mapM (constantOf settings · .null) = .ok cs := by
    rw [readEntries_eq hread hitems]
    refine mapM_ok_iff_of_comp fun item c => ?_
    rw [itemConstant_eq_ok_iff]
    cases Entry.read item <;> simp
  rw [load_eq_ok_iff]
  constructor
  · rintro ⟨entries, cs, hentries, hcs, rfl⟩
    exact ⟨cs, (hboth cs).2 ⟨entries, hentries, hcs⟩, rfl⟩
  · rintro ⟨cs, hcs, rfl⟩
    obtain ⟨entries, hentries, hcs⟩ := (hboth cs).1 hcs
    exact ⟨entries, cs, hentries, hcs, rfl⟩

/-- The calls that put items one by one. -/
def putCalls (sources : Nat → Data) (items : List Data) : List Call :=
  items.zipIdx.map fun p => .putData p.1 (sources p.2)

theorem mapM_constant_putCalls (settings : Settings) (sources : Nat → Data) (items : List Data) :
    (putCalls sources items).mapM (Call.constant settings) =
      (items.mapM (itemConstant settings)).map (placed sources) := by
  rw [putCalls, List.mapM_map]
  exact mapM_zipIdx_withSource (f := fun item source => Call.constant settings (.putData item source))
    (fun item source => constant_putData_withSource settings item source) sources items

theorem makeEach_eq_ok_iff_items {sources : Nat → Data} :
    (Call.makeEach (putCalls sources items)).on (empty settings) = (.ok (), table) ↔
      ∃ cs, items.mapM (itemConstant settings) = .ok cs ∧ (empty settings).addAll (placed sources cs) = table := by
  rw [Call.makeEach, (defines_make settings).on_forM_iff rfl, mapM_constant_putCalls]
  cases items.mapM (itemConstant settings) <;> simp [Except.map]

end

/-! ## Items that define -/

/-- The item is an entry of this name. -/
def Names (item : Data) (name : String) : Prop := ∃ entry, Entry.read item = .ok entry ∧ entry.name = some name

theorem names_of_itemConstant {settings : Settings} {item : Data} {c : Constant}
    (h : itemConstant settings item = .ok c)
    {name : String} : Names item name ↔ c.name = name := by
  obtain ⟨entry, hread, hconstant⟩ := itemConstant_eq_ok_iff.1 h
  have hname := name_of_constantOf hconstant
  constructor
  · rintro ⟨entry', hread', hname'⟩
    rw [hread] at hread'
    cases hread'
    rw [hname] at hname'
    exact Option.some.inj hname'
  · rintro rfl
    exact ⟨entry, hread, hname⟩

/-- The last constant of a name is that of the last item of the name, and has its place as source. -/
theorem exists_last_item {settings : Settings} {items : List Data} {cs : List Constant}
    (h : items.mapM (itemConstant settings) = .ok cs) {name : String} {c : Constant}
    (hlast : lastNamed (placed indexSource cs) name = some c) :
    ∃ before item after, items = before ++ item :: after ∧ Names item name ∧ (∀ later ∈ after, ¬ Names later name) ∧
      c.source = indexSource before.length := by
  obtain ⟨hname, later, earlier, hsplit, hlater⟩ := List.find?_eq_some_iff_append.1 hlast
  have hplaced : placed indexSource cs = earlier.reverse ++ c :: later.reverse := by
    simpa using congrArg List.reverse hsplit
  obtain ⟨ds, d, ds', rfl, rfl, hnames⟩ := exists_parts_of_placed hplaced
  obtain ⟨before, item, after, rfl, hlength, hitem, hafter⟩ := exists_parts_of_mapM_ok h
  refine ⟨before, item, after, rfl, (names_of_itemConstant hitem).2 (by simpa using hname), fun other hother => ?_, ?_⟩
  · obtain ⟨e, he, hmem⟩ := exists_of_mem_mapM_ok hafter hother
    rw [names_of_itemConstant he]
    obtain ⟨e', he', hee'⟩ : ∃ e' ∈ later.reverse, e'.name = e.name := by
      rw [← List.mem_map, ← hnames]
      exact List.mem_map_of_mem hmem
    rw [← hee']
    simpa using hlater e' (List.mem_reverse.1 he')
  · rw [hlength, Constant.source_withSource]

/-! ## The theorem -/

/-- A table is the replay of the calls that were accepted. Look-up gives the last definition of a name; the names
stand in the order of their first definitions, and the numbers in that of their last; what a call gives depends on
the settings only, and one that is refused changes nothing. A document that is read as a list of items is refused
if and only if one of the items is when they are put into an empty table one by one, and otherwise gives the same
table, where the source of a constant is the place of the last item of its name. -/
theorem replay_of_definitions (settings : Settings) :
    (∀ calls : List Call,
      let table := (empty settings).after calls
      let cs := Call.defined settings calls
      (∀ name, table.constants.find? name = lastNamed cs name) ∧
      table.constants.values.map (·.name) = (cs.map (·.name)).eraseDups ∧
      table.numbers.entries = ((cs.map (·.name)).dedup.filterMap fun name => (numberNamed cs name).map (name, ·)) ∧
      ∀ call, (call.make.on table).1 = Call.constant settings call ∧
        ∀ e, (call.make.on table).1 = .error e → (call.make.on table).2 = table) ∧
    ∀ (reader : Reader) (text : String) (format : Option Format) (data : Data) (items : List Data)
      (sources : Nat → Data),
      reader (format.getD (Format.detect text.toList)) text.toList = .ok data → Lists data items →
      let each := (Call.makeEach (putCalls sources items)).on (empty settings)
      ((∃ e, load reader settings text format = .error e) ↔ ∃ e, each.1 = .error e) ∧
      ∀ table, load reader settings text format = .ok table →
        table.bare = each.2.bare ∧
        ∀ name c, table.constants.find? name = some c → ∃ before item after, items = before ++ item :: after ∧
          Names item name ∧ (∀ later ∈ after, ¬ Names later name) ∧ c.source = .scalar (.int before.length) := by
  constructor
  · intro calls table cs
    have htable : table = (empty settings).addAll cs := after_eq_addAll (empty settings) calls
    refine ⟨fun name => ?_, ?_, ?_, fun call => ⟨?_, fun e h => Call.on_make_snd_of_error h⟩⟩
    · rw [htable, find?_constants_addAll]
    · rw [map_name_values, htable, names_constants_addAll]
    · rw [htable, entries_numbers_addAll]
    · rw [Call.on_make_fst, htable, settings_addAll]
      rfl
  · intro reader text format data items sources hread hitems each
    constructor
    · have heach : (∃ a, each.1 = .ok a) ↔ ∃ table, each = (.ok (), table) :=
        ⟨fun ⟨a, h⟩ => ⟨each.2, Prod.ext h rfl⟩, fun ⟨table, h⟩ => ⟨(), by rw [h]⟩⟩
      rw [exists_error_iff, exists_error_iff, heach]
      simp only [each, load_eq_ok_iff_items hread hitems, makeEach_eq_ok_iff_items,
        exists_comm (α := Table), exists_eq_right']
    · intro table hload
      obtain ⟨cs, hcs, rfl⟩ := (load_eq_ok_iff_items hread hitems).1 hload
      have heach : each = (.ok (), (empty settings).addAll (placed sources cs)) :=
        makeEach_eq_ok_iff_items.2 ⟨cs, hcs, rfl⟩
      constructor
      · rw [heach, bare_addAll, bare_addAll, map_bare_placed, map_bare_placed]
      · intro name c hfind
        rw [find?_constants_addAll] at hfind
        exact exists_last_item hcs hfind

/-- A number that is redefined as text and then as a number is the last number, and a call without a name changes
nothing; a document that defines a name twice is one table, and the source of the constant is the second place. -/
theorem replay_of_definitions_redefined :
    let calls : List Call := [.define "gap" "4px" none .null, .define "wide" "2px" none .null,
      .define "gap" "red" none .null, .define "gap" "8px" none .null]
    let table := (empty {}).after calls
    let unnamed : Call := .define " " "1" none .null
    let text := "[\x7b\"n\": \"gap\", \"v\": \"4px\"\x7d, \x7b\"n\": \"gap\", \"v\": \"red\"\x7d]"
    let item (value : String) : Data :=
      .mapping [(.text "n", .scalar (.text "gap")), (.text "v", .scalar (.text value))]
    (∃ c, table.constants.find? "gap" = some c ∧ c.rawValue = "8px") ∧
    table.constants.values.map (·.name) = ["gap", "wide"] ∧
    table.numbers.entries = [("wide", .ofInt 2), ("gap", .ofInt 8)] ∧
    unnamed.make.on table = (.error (.definition (.blankName (some " ") (some "1"))), table) ∧
    Document.Json.reader .json text.toList = .ok (.list [item "4px", item "red"]) ∧
    ∃ loaded, load Document.Json.reader {} text (some .json) = .ok loaded ∧
      loaded.bare = ((Call.makeEach (putCalls (fun _ => .null) [item "4px", item "red"])).on (empty {})).2.bare ∧
      ∃ c, loaded.constants.find? "gap" = some c ∧ c.source = .scalar (.int 1) := by
  intro calls table unnamed text item
  obtain ⟨hcalls, hdocuments⟩ := replay_of_definitions {}
  obtain ⟨hfind, hnames, hnumbers, hmake⟩ := hcalls calls
  obtain ⟨hgives, hrefused⟩ := hmake unnamed
  have hread : Document.Json.reader .json text.toList = .ok (.list [item "4px", item "red"]) := by
    have htokens : Document.Json.tokens? text.toList =
        some [.openList, .openMapping, .scalar (.text "n"), .colon, .scalar (.text "gap"), .comma, .scalar (.text "v"),
          .colon, .scalar (.text "4px"), .closeMapping, .comma, .openMapping, .scalar (.text "n"), .colon,
          .scalar (.text "gap"), .comma, .scalar (.text "v"), .colon, .scalar (.text "red"), .closeMapping,
          .closeList] := by decide +kernel
    rw [Document.Json.reader, Document.Json.read?, htokens]
    rfl
  refine ⟨?_, ?_, ?_, Prod.ext hgives (hrefused _ hgives), hread, ?_⟩
  · rw [hfind]
    exact ⟨_, rfl, rfl⟩
  · rw [hnames]
    decide +kernel
  · rw [hnumbers]
    decide +kernel
  · obtain ⟨-, htable⟩ := hdocuments Document.Json.reader text (some .json) _ _ (fun _ => .null) hread (.inl rfl)
    have hload : load Document.Json.reader {} text (some .json) = .ok ((empty {}).addAll (placed indexSource
        [.define {} "gap" "4px" none .null, .define {} "gap" "red" none .null])) :=
      (load_eq_ok_iff_items hread (.inl rfl)).2 ⟨_, rfl, rfl⟩
    obtain ⟨hsame, -⟩ := htable _ hload
    exact ⟨_, hload, hsame, _, rfl, rfl⟩

end Table

end Stylesheet
