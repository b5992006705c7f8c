/-
Transitions that are read back from their text. A record is the list of its words, and filling an
empty record with words gives the one record with these words, if a delay has something to follow. So
the records that parsing can return are those whose words are read back, and all these are returned
for their own text.
-/
import Mathlib.Tactic
import Stylesheet.Proofs.Transition.Time
import Stylesheet.Transition.Parse

namespace Stylesheet.Transition

open Text

/-- The place of a part in a record. -/
def Slot.rank : Slot → Nat
  | start => 0
  | property => 1
  | time1 => 2
  | easing => 3
  | time2 => 4
  | behavior => 5

/-! ## Commas -/

theorem splitCommas_of_not_mem {s : List Char} (h : ',' ∉ s) : splitCommas s = [s] := by
  induction s with
  | nil => rfl
  | cons c rest ih =>
    rw [List.mem_cons, not_or] at h
    rw [splitCommas, if_neg (Ne.symm h.1), ih h.2]

theorem splitCommas_intercalate {gs : List (List Char)} (hne : gs ≠ []) (h : ∀ g ∈ gs, ',' ∉ g) :
    splitCommas ([','].intercalate gs) = gs := by
  induction gs with
  | nil => exact absurd rfl hne
  | cons g rest ih =>
    have hg := splitCommas_of_not_mem (h g (List.mem_cons_self ..))
    cases rest with
    | nil => rw [List.intercalate_singleton, hg]
    | cons g' rest =>
      rw [List.intercalate_cons_cons, List.append_assoc, List.singleton_append, splitCommas_append_comma, hg,
        ih (by simp) fun e he => h e (List.mem_cons_of_mem _ he)]
      rfl

theorem not_mem_intercalate {c : Char} {separator : List Char} {gs : List (List Char)} (hs : c ∉ separator)
    (h : ∀ g ∈ gs, c ∉ g) : c ∉ separator.intercalate gs := by
  induction gs with
  | nil => exact List.not_mem_nil
  | cons g rest ih =>
    have hg := h g (List.mem_cons_self ..)
    cases rest with
    | nil => rwa [List.intercalate_singleton]
    | cons g' rest =>
      have hrest := ih fun e he => h e (List.mem_cons_of_mem _ he)
      simp [List.intercalate_cons_cons, hg, hs, hrest]

theorem not_mem_of_mem_splitCommas {s g : List Char} (h : g ∈ splitCommas s) : ',' ∉ g := by
  induction s generalizing g with
  | nil =>
    obtain rfl := List.mem_singleton.1 h
    exact List.not_mem_nil
  | cons c rest ih =>
    rw [splitCommas] at h
    split at h
    · rcases List.mem_cons.1 h with rfl | h
      · exact List.not_mem_nil
      · exact ih h
    · rename_i hc
      split at h
      · obtain rfl := List.mem_singleton.1 h
        simpa using Ne.symm hc
      · rename_i group groups hgroups
        rw [hgroups] at ih
        rcases List.mem_cons.1 h with rfl | h
        · rw [List.mem_cons, not_or]
          exact ⟨Ne.symm hc, ih (List.mem_cons_self ..)⟩
        · exact ih (List.mem_cons_of_mem _ h)

/-! ## Words that are read back -/

/-- The name can stand as a property: a word without a comma that is no time and no keyword. -/
structure IsProperty (name : String) : Prop where
  ne_nil : name.toList ≠ []
  not_blank : ∀ c ∈ name.toList, isBlank c = false
  no_comma : ',' ∉ name.toList
  not_time : duration? name.toList = none
  not_easing : Easing.ofText? name = none
  not_behavior : Behavior.ofText? name = none

theorem not_blank_of_digit {c : Char} (h : c.isDigit = true) : isBlank c = false ∧ c ≠ ',' := by
  refine ⟨isBlank_of_isDigit h, ?_⟩
  rintro rfl
  simp at h

namespace Word

def text : Word → String
  | time t => Record.timeText t
  | easing e => e.text
  | behavior b => b.text
  | property name => name

def WellFormed : Word → Prop
  | time t => Exact t
  | easing _ | behavior _ => True
  | property name => IsProperty name

/-- The text holds together between blanks and commas and reads as the word. -/
structure Stable (w : Word) : Prop where
  ne_nil : w.text.toList ≠ []
  not_blank : ∀ c ∈ w.text.toList, isBlank c = false
  no_comma : ',' ∉ w.text.toList
  read : Word.read w.text.toList = .ok w

theorem read_of_duration?_eq_none {word : List Char} (h : duration? word = none) :
    Word.read word = .ok (named (String.ofList word)) := by
  unfold Word.read
  rw [readTime_eq_none.2 h]
  rfl

theorem stable_time {t : Int} (h : Exact t) : Stable (.time t) := by
  obtain ⟨n, rfl⟩ := Int.eq_ofNat_of_zero_le h.1
  have hchars : ∀ c ∈ (Record.timeText n).toList, isBlank c = false ∧ c ≠ ',' := by
    intro c hc
    rw [timeText_natCast, List.mem_append] at hc
    rcases hc with hc | hc
    · exact not_blank_of_digit (Nat.isDigit_of_mem_toDigits (by decide) (by decide) hc)
    · rcases List.mem_pair.1 hc with rfl | rfl <;> decide
  refine ⟨?_, fun c hc => (hchars c hc).1, fun hc => (hchars _ hc).2 rfl, ?_⟩
  · show (Record.timeText n).toList ≠ []
    rw [timeText_natCast]
    simp
  · unfold Word.read
    rw [text, readTime_timeText h]
    rfl

theorem stable_easing (e : Easing) : Stable (.easing e) := by
  have hblank : (Word.easing e).text.toList.all (!isBlank ·) = true := by cases e <;> decide
  refine ⟨?_, by simpa using hblank, ?_, ?_⟩ <;> cases e <;> decide +kernel

theorem stable_behavior (b : Behavior) : Stable (.behavior b) := by
  have hblank : (Word.behavior b).text.toList.all (!isBlank ·) = true := by cases b <;> decide
  refine ⟨?_, by simpa using hblank, ?_, ?_⟩ <;> cases b <;> decide +kernel

theorem stable_property {name : String} (h : IsProperty name) : Stable (.property name) where
  ne_nil := h.ne_nil
  not_blank := h.not_blank
  no_comma := h.no_comma
  read := by
    rw [text, read_of_duration?_eq_none h.not_time, String.ofList_toList, named, h.not_easing, h.not_behavior]

theorem WellFormed.stable {w : Word} (h : w.WellFormed) : w.Stable := by
  cases w with
  | time t => exact stable_time h
  | easing e => exact stable_easing e
  | behavior b => exact stable_behavior b
  | property name => exact stable_property h

/-- What a word without a comma reads as is read back. -/
theorem wellFormed_of_read {word : List Char} {w : Word} (hne : word ≠ []) (hblank : ∀ c ∈ word, isBlank c = false)
    (hcomma : ',' ∉ word) (h : Word.read word = .ok w) : w.WellFormed := by
  obtain ⟨time?, htime, h⟩ := except_bind_ok h
  cases time? with
  | some t =>
    cases h
    exact exact_of_readTime htime
  | none =>
    cases h
    have hduration := readTime_eq_none.1 htime
    unfold named
    split
    · trivial
    · trivial
    · rename_i heasing hbehavior
      refine ⟨?_, ?_, ?_, ?_, heasing, hbehavior⟩ <;> rwa [String.toList_ofList]

end Word

/-! ## The words of a record -/

namespace Record

/-- The parts that are there, in their order, as words. -/
def words (r : Record) : List Word :=
  (r.property.map .property).toList ++ (r.time1.map .time).toList ++ (r.easing.map .easing).toList ++
    (r.time2.map .time).toList ++ (r.behavior.map .behavior).toList

theorem parts_eq_words (r : Record) : r.parts = r.words.map Word.text := by
  simp only [parts, words, List.map_append, ← Option.toList_map, Option.map_map]
  have hname : r.property.map (Word.text ∘ Word.property) = r.property := Option.map_id'
  rw [hname]
  rfl

/-- A delay is told from a duration by what stands before it. -/
def DelayFollows (r : Record) : Prop := r.time2.isSome → r.time1.isSome ∨ r.easing.isSome

/-- Something is set, the property can stand as one, times are doubles, and a delay follows on what tells it
from a duration. -/
structure WellFormed (r : Record) : Prop where
  nonempty : r ≠ {}
  property : ∀ name ∈ r.property, IsProperty name
  time1 : ∀ t ∈ r.time1, Exact t
  time2 : ∀ t ∈ r.time2, Exact t
  delay : r.DelayFollows

theorem words_eq_nil {r : Record} : r.words = [] ↔ r = {} := by
  rcases r with ⟨property, time1, easing, time2, behavior⟩
  simp [words]

theorem wellFormed_iff {r : Record} :
    r.WellFormed ↔ r.words ≠ [] ∧ (∀ w ∈ r.words, w.WellFormed) ∧ r.DelayFollows := by
  have hwords : (∀ w ∈ r.words, w.WellFormed) ↔
      (∀ name ∈ r.property, IsProperty name) ∧ (∀ t ∈ r.time1, Exact t) ∧ ∀ t ∈ r.time2, Exact t := by
    simp only [words, List.mem_append, or_imp, forall_and]
    simp [Word.WellFormed, and_assoc]
  rw [ne_eq, words_eq_nil, hwords]
  exact ⟨fun h => ⟨h.nonempty, ⟨h.property, h.time1, h.time2⟩, h.delay⟩,
    fun ⟨hne, ⟨hp, h1, h2⟩, hd⟩ => ⟨hne, hp, h1, h2, hd⟩⟩

/-! ## Filling a record -/

/-- The part is the last one of the record: nothing stands behind it, and it stands there itself where
it admits a delay. -/
structure EndsAt (r : Record) (slot : Slot) : Prop where
  property : slot.rank < Slot.property.rank → r.property = none
  time1 : slot.rank < Slot.time1.rank → r.time1 = none
  easing : slot.rank < Slot.easing.rank → r.easing = none
  time2 : slot.rank < Slot.time2.rank → r.time2 = none
  behavior : slot.rank < Slot.behavior.rank → r.behavior = none
  admits : slot = .time1 ∨ slot = .easing → r.time1.isSome ∨ r.easing.isSome
  delay : r.DelayFollows

theorem endsAt_start : EndsAt {} .start := by
  constructor <;> simp [DelayFollows]

section Place

variable {r r' : Record} {slot slot' : Slot} {w : Word}

/-- A word is added behind those that are there. -/
theorem EndsAt.words_place (h : r.EndsAt slot) (hp : r.place slot w = some (slot', r')) :
    r'.words = r.words ++ [w] := by
  obtain ⟨property, time1, easing, time2, behavior, -, -⟩ := h
  have hlast : slot ≠ .behavior → r.behavior = none := by
    intro hne
    exact behavior (by cases slot <;> first | decide | exact absurd rfl hne)
  unfold Record.place at hp
  -- each part is filled from slots before it only, so the part itself and those behind it are empty
  split at hp <;> cases hp <;> simp_all [words, Slot.rank]

theorem EndsAt.place (h : r.EndsAt slot) (hp : r.place slot w = some (slot', r')) : r'.EndsAt slot' := by
  obtain ⟨property, time1, easing, time2, behavior, admits, delay⟩ := h
  unfold Record.place at hp
  split at hp <;> cases hp <;> constructor <;> simp_all [Slot.rank, DelayFollows]

theorem fill_cons {source : String} {word : List Char} {rest : List (List Char)} (hr : Word.read word = .ok w)
    (hp : r.place slot w = some (slot', r')) : r.fill source slot (word :: rest) = r'.fill source slot' rest := by
  rw [fill, hr]
  dsimp only
  rw [hp]

end Place

/-- A filled record has the words it was filled with, and no others. -/
theorem EndsAt.fill {r r' : Record} {source : String} {slot : Slot} {texts : List (List Char)} (h : r.EndsAt slot)
    (hf : r.fill source slot texts = .ok r') :
    r'.DelayFollows ∧ ∃ words, texts.mapM Word.read = .ok words ∧ r'.words = r.words ++ words := by
  induction texts generalizing r slot with
  | nil =>
    cases hf
    exact ⟨h.delay, [], rfl, (List.append_nil _).symm⟩
  | cons text rest ih =>
    rw [Record.fill] at hf
    split at hf
    · cases hf
    · rename_i w hread
      split at hf
      · rename_i slot' s hp
        obtain ⟨hdelay, words, hwords, happend⟩ := ih (h.place hp) hf
        refine ⟨hdelay, w :: words, ?_, ?_⟩
        · rw [List.mapM_cons, hread, hwords]
          rfl
        · rw [happend, h.words_place hp, List.append_assoc, List.singleton_append]
      · cases hf

/-- The words of a record, one after the other, fill each its own part. -/
theorem places_words {r : Record} (h : r.DelayFollows) :
    ∃ slot, r.words.foldlM (fun s w => s.2.place s.1 w) (Slot.start, ({} : Record)) = some (slot, r) := by
  obtain ⟨property, time1, easing, time2, behavior⟩ := r
  rcases property with _ | _ <;> rcases time1 with _ | _ <;> rcases easing with _ | _ <;> rcases time2 with _ | _ <;>
    rcases behavior with _ | _ <;> first | exact ⟨_, rfl⟩ | simp [DelayFollows] at h

theorem fill_of_places {r r' : Record} {source : String} {slot slot' : Slot} {words : List Word}
    (hw : ∀ w ∈ words, w.Stable) (h : words.foldlM (fun s w => s.2.place s.1 w) (slot, r) = some (slot', r')) :
    r.fill source slot (words.map fun w => w.text.toList) = .ok r' := by
  induction words generalizing r slot with
  | nil =>
    cases h
    rfl
  | cons w rest ih =>
    rw [List.foldlM_cons] at h
    obtain ⟨⟨slot₁, r₁⟩, hp, h⟩ := Option.bind_eq_some_iff.1 h
    rw [List.map_cons, fill_cons (hw w (List.mem_cons_self ..)).read hp]
    exact ih (fun v hv => hw v (List.mem_cons_of_mem _ hv)) h

theorem fill_words {r : Record} (h : r.WellFormed) (source : String) :
    Record.fill source {} .start (r.words.map fun w => w.text.toList) = .ok r := by
  obtain ⟨-, hw, hdelay⟩ := wellFormed_iff.1 h
  obtain ⟨slot, hplaces⟩ := places_words hdelay
  exact fill_of_places (fun w hm => (hw w hm).stable) hplaces

/-- The words between two commas fill a well-formed record. -/
theorem wellFormed_of_fill {r : Record} {source : String} {texts : List (List Char)} (hne : texts ≠ [])
    (hwords : ∀ text ∈ texts, text ≠ [] ∧ (∀ c ∈ text, isBlank c = false) ∧ ',' ∉ text)
    (h : Record.fill source {} .start texts = .ok r) : r.WellFormed := by
  obtain ⟨hdelay, words, hread, happend⟩ := endsAt_start.fill h
  obtain rfl : r.words = words := happend
  refine wellFormed_iff.2 ⟨?_, ?_, hdelay⟩
  · intro hnil
    exact hne (List.length_eq_zero_iff.1 (by rw [← length_of_mapM_ok hread, hnil, List.length_nil]))
  · intro w hw
    obtain ⟨text, htext, hw⟩ := exists_of_mapM_ok hread hw
    obtain ⟨hne, hblank, hcomma⟩ := hwords text htext
    exact Word.wellFormed_of_read hne hblank hcomma hw

end Record

/-! ## Transitions -/

theorem toList_text (r : Record) : r.text.toList = [' '].intercalate (r.words.map fun w => w.text.toList) := by
  rw [Record.text, Record.parts_eq_words, String.toList_intercalate, List.map_map]
  rfl

theorem words_text {r : Record} (h : r.WellFormed) : Text.words r.text.toList = r.words.map fun w => w.text.toList := by
  rw [toList_text]
  refine Text.words_intercalate (by decide) fun text htext => ?_
  obtain ⟨w, hw, rfl⟩ := List.mem_map.1 htext
  have hstable := ((Record.wellFormed_iff.1 h).2.1 w hw).stable
  exact ⟨hstable.ne_nil, hstable.not_blank⟩

theorem comma_not_mem_text {r : Record} (h : r.WellFormed) : ',' ∉ r.text.toList := by
  rw [toList_text]
  refine not_mem_intercalate (by decide) fun text htext => ?_
  obtain ⟨w, hw, rfl⟩ := List.mem_map.1 htext
  exact ((Record.wellFormed_iff.1 h).2.1 w hw).stable.no_comma

/-- Every record is read back from its words. -/
theorem mapM_readGroup {records : List Record} (h : ∀ r ∈ records, r.WellFormed) (source : String) :
    (records.map fun r => r.words.map fun w => w.text.toList).mapM (readGroup source) = .ok (records.map some) := by
  induction records with
  | nil => rfl
  | cons r rest ih =>
    have hr := h r (List.mem_cons_self ..)
    have hread : readGroup source (r.words.map fun w => w.text.toList) = .ok (some r) := by
      rw [readGroup, if_neg (by simpa using (Record.wellFormed_iff.1 hr).1), Record.fill_words hr]
      rfl
    rw [List.map_cons, List.mapM_cons, hread, ih fun s hs => h s (List.mem_cons_of_mem _ hs)]
    rfl

theorem parse_text {records : List Record} (h : ∀ r ∈ records, r.WellFormed) : parse (text records) = .ok records := by
  by_cases hne : records = []
  · subst hne
    decide
  have hgroups : splitCommas (text records).toList = records.map fun r => r.text.toList := by
    rw [text, String.toList_intercalate, List.map_map]
    refine splitCommas_intercalate (by simpa using hne) fun group hgroup => ?_
    obtain ⟨r, hr, rfl⟩ := List.mem_map.1 hgroup
    exact comma_not_mem_text (h r hr)
  have hwords : (splitCommas (text records).toList).map Text.words =
      records.map fun r => r.words.map fun w => w.text.toList := by
    rw [hgroups, List.map_map]
    exact List.map_congr_left fun r hr => words_text (h r hr)
  rw [parse, hwords, readGroups, mapM_readGroup h]
  show Except.ok _ = _
  rw [List.filterMap_map]
  simp

theorem wellFormed_of_parse {source : String} {records : List Record} (h : parse source = .ok records) :
    ∀ r ∈ records, r.WellFormed := by
  intro r hr
  obtain ⟨filled, hfilled, h⟩ := except_bind_ok h
  cases h
  obtain ⟨r?, hmem, rfl⟩ := List.mem_filterMap.1 hr
  obtain ⟨texts, htexts, hread⟩ := exists_of_mapM_ok hfilled hmem
  obtain ⟨group, hgroup, rfl⟩ := List.mem_map.1 htexts
  rw [readGroup] at hread
  split at hread
  · cases hread
  · rename_i hne
    cases hfill : Record.fill source {} .start (Text.words group) with
    | error e => rw [hfill] at hread; cases hread
    | ok r' =>
      rw [hfill] at hread
      obtain rfl : r' = r := by cases hread; rfl
      refine Record.wellFormed_of_fill (by simpa using hne) (fun text htext => ?_) hfill
      exact ⟨ne_nil_of_mem_words htext, isBlank_eq_false_of_mem_words htext,
        fun hc => not_mem_of_mem_splitCommas hgroup (mem_of_mem_words htext hc)⟩

/-- Exactly the well-formed transitions are read back from their text, and parsing returns no others. -/
theorem parse_text_iff :
    (∀ records, parse (text records) = .ok records ↔ ∀ r ∈ records, r.WellFormed) ∧
      ∀ source records, parse source = .ok records →
        (∀ r ∈ records, r.WellFormed) ∧ parse (text records) = .ok records := by
  refine ⟨fun records => ⟨fun h => wellFormed_of_parse h, fun h => parse_text h⟩, fun source records h => ?_⟩
  have hwell := wellFormed_of_parse h
  exact ⟨hwell, parse_text hwell⟩

/-- A transition with an empty record in its text, and a delay that is read as a duration. -/
theorem parse_text_iff_delay :
    (∃ records, parse "opacity 1.5s ease 50ms,,discrete" = .ok records ∧ (∀ r ∈ records, r.WellFormed) ∧
      parse (text records) = .ok records) ∧
    parse (text [{ time2 := some 50 }]) ≠ .ok [{ time2 := some 50 }] := by
  have hread : parse "opacity 1.5s ease 50ms,,discrete" =
      .ok [⟨some "opacity", some 1500, some .ease, some 50, none⟩, { behavior := some .discrete }] := by
    decide +kernel
  refine ⟨⟨_, hread, parse_text_iff.2 _ _ hread⟩, fun h => ?_⟩
  have hwell := (parse_text_iff.1 _).1 h _ (List.mem_singleton_self _)
  simpa [Record.DelayFollows] using hwell.delay

end Stylesheet.Transition
