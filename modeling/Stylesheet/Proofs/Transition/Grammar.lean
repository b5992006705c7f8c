/-
The grammar of a record. Its words are of four kinds, which form a word of the regular language
`P?T?F?T?B?`: parts may be left out but not moved, so the words of the language are the subsequences of
its five parts. A slot stands for the parts behind it, and a word goes to the first of them that is of its
kind. So a group of words fills a record if and only if their kinds are in the language, and otherwise the
word is reported at which they stop being the beginning of such a word.
-/
import Mathlib.Computability.RegularExpressions
import Mathlib.Tactic
import Stylesheet.Proofs.Transition.RoundTrip

namespace Stylesheet.Transition

open Text
open RegularExpression (char)

/-! ## Kinds of words -/

inductive Kind
  | property
  | time
  | easing
  | behavior
deriving DecidableEq, Repr

def Word.kind : Word → Kind
  | time _ => .time
  | easing _ => .easing
  | behavior _ => .behavior
  | property _ => .property

/-- The kind of a word: a time, a keyword, or else a property. -/
def kindOf (word : List Char) : Kind :=
  if (duration? word).isSome then .time else (Word.named (String.ofList word)).kind

theorem kindOf_of_read {word : List Char} {w : Word} (h : Word.read word = .ok w) : kindOf word = w.kind := by
  obtain ⟨time?, htime, h⟩ := except_bind_ok h
  unfold kindOf
  cases time? with
  | some t =>
    cases h
    obtain ⟨x, hx, -⟩ := readTime_eq_some htime
    rw [hx]
    rfl
  | none =>
    cases h
    rw [readTime_eq_none.1 htime]
    rfl

/-! ## The language of records -/

/-- A part that may be left out. -/
def optional (kind : Kind) : RegularExpression Kind := 1 + char kind

/-- The kinds of the words of a record, in order. -/
def recordKinds : RegularExpression Kind :=
  optional .property * optional .time * optional .easing * optional .time * optional .behavior

/-- The kinds are the beginning of those of a record. -/
def Begins (kinds : List Kind) : Prop := ∃ rest, kinds ++ rest ∈ recordKinds.matches'

/-- The kinds of all parts. -/
def partKinds : List Kind := [.property, .time, .easing, .time, .behavior]

theorem mem_optional_mul {kind : Kind} {language : Language Kind} {parts : List Kind}
    (h : ∀ kinds, kinds ∈ language ↔ kinds.Sublist parts) (kinds : List Kind) :
    kinds ∈ (optional kind).matches' * language ↔ kinds.Sublist (kind :: parts) := by
  rw [Language.mem_mul, List.sublist_cons_iff]
  constructor
  · rintro ⟨part, hpart, rest, hrest, rfl⟩
    rcases hpart with hpart | hpart
    · obtain rfl : part = [] := hpart
      exact .inl ((h rest).1 hrest)
    · obtain rfl : part = [kind] := hpart
      exact .inr ⟨rest, rfl, (h rest).1 hrest⟩
  · rintro (hs | ⟨rest, rfl, hs⟩)
    · exact ⟨[], .inl rfl, kinds, (h kinds).2 hs, rfl⟩
    · exact ⟨[kind], .inr rfl, rest, (h rest).2 hs, rfl⟩

/-- The words of the language are the subsequences of the parts. -/
theorem mem_recordKinds_iff (kinds : List Kind) : kinds ∈ recordKinds.matches' ↔ kinds.Sublist partKinds := by
  have hnil (kinds : List Kind) : kinds ∈ (1 : Language Kind) ↔ kinds.Sublist [] := by
    rw [Language.mem_one, List.sublist_nil]
  have hlanguage : recordKinds.matches' = (optional .property).matches' * ((optional .time).matches' *
      ((optional .easing).matches' * ((optional .time).matches' * ((optional .behavior).matches' * 1)))) := by
    simp only [recordKinds, RegularExpression.matches'_mul, mul_assoc, mul_one]
  rw [hlanguage]
  exact mem_optional_mul (mem_optional_mul (mem_optional_mul (mem_optional_mul (mem_optional_mul hnil)))) kinds

/-- Every beginning of a word of the language is one itself. -/
theorem begins_iff (kinds : List Kind) : Begins kinds ↔ kinds.Sublist partKinds := by
  constructor
  · rintro ⟨rest, h⟩
    exact (List.sublist_append_left ..).trans ((mem_recordKinds_iff _).1 h)
  · intro h
    exact ⟨[], by rwa [List.append_nil, mem_recordKinds_iff]⟩

/-! ## Slots -/

namespace Slot

/-- The kinds of the parts behind the slot. -/
def remaining (slot : Slot) : List Kind := partKinds.drop slot.rank

/-- The slot of a word of this kind behind the slot. -/
def next? : Slot → Kind → Option Slot
  | start, .property => some property
  | start, .time | property, .time => some time1
  | start, .easing | property, .easing | time1, .easing => some easing
  | time1, .time | easing, .time => some time2
  | behavior, .behavior => none
  | _, .behavior => some behavior
  | _, _ => none

theorem cons_sublist_cons_of_ne {α : Type} {a b : α} {l l' : List α} (h : a ≠ b) :
    (a :: l).Sublist (b :: l') ↔ (a :: l).Sublist l' :=
  ⟨fun hs => hs.of_cons_of_ne h, fun hs => hs.cons b⟩

/-- A word goes to the first part of its kind: that leaves the most to those behind it. -/
theorem cons_sublist_remaining {slot : Slot} {kind : Kind} {kinds : List Kind} :
    (kind :: kinds).Sublist slot.remaining ↔ ∃ next, slot.next? kind = some next ∧ kinds.Sublist next.remaining := by
  cases slot <;> cases kind <;> simp [remaining, partKinds, rank, next?, cons_sublist_cons_of_ne]

end Slot

theorem map_fst_place (r : Record) (slot : Slot) (w : Word) : (r.place slot w).map Prod.fst = slot.next? w.kind := by
  cases slot <;> cases w <;> rfl

/-- The words fill the record if their kinds are those of parts behind the slot; otherwise the first word
is misplaced at which they stop being so. -/
theorem fill_cases (source : String) {texts : List (List Char)} (hread : ∀ text ∈ texts, ∃ w, Word.read text = .ok w)
    (r : Record) (slot : Slot) :
    ((texts.map kindOf).Sublist slot.remaining ∧ ∃ r', r.fill source slot texts = .ok r') ∨
      ∃ done text rest expected, texts = done ++ text :: rest ∧ (done.map kindOf).Sublist slot.remaining ∧
        ¬ ((done ++ [text]).map kindOf).Sublist slot.remaining ∧
        r.fill source slot texts = .error (.misplaced (String.ofList text) expected source) := by
  induction texts generalizing r slot with
  | nil => exact .inl ⟨List.nil_sublist _, r, rfl⟩
  | cons text rest ih =>
    obtain ⟨w, hw⟩ := hread text (List.mem_cons_self ..)
    have hkind := kindOf_of_read hw
    have hplace := map_fst_place r slot w
    cases hp : r.place slot w with
    | none =>
      rw [hp, ← hkind] at hplace
      refine .inr ⟨[], text, rest, slot.expected, rfl, List.nil_sublist _, ?_, ?_⟩
      · rw [List.nil_append, List.map_cons, Slot.cons_sublist_remaining, ← hplace]
        rintro ⟨next, ⟨⟩, -⟩
      · rw [Record.fill, hw]
        dsimp only
        rw [hp]
    | some p =>
      obtain ⟨next, r₁⟩ := p
      rw [hp, ← hkind] at hplace
      have hcons (kinds : List Kind) :
          (kindOf text :: kinds).Sublist slot.remaining ↔ kinds.Sublist next.remaining := by
        rw [Slot.cons_sublist_remaining, ← hplace]
        simp
      rw [Record.fill_cons hw hp]
      rcases ih (fun t ht => hread t (List.mem_cons_of_mem _ ht)) r₁ next with
        ⟨hs, hfill⟩ | ⟨done, bad, after, expected, rfl, hdone, hbad, hfill⟩
      · exact .inl ⟨(hcons _).2 hs, hfill⟩
      · exact .inr ⟨text :: done, bad, after, expected, rfl, (hcons _).2 hdone, fun h => hbad ((hcons _).1 h), hfill⟩

/-! ## What a record holds -/

/-- None of the words is a time or an easing. -/
def Untimed (words : List Word) : Prop := ∀ w ∈ words, w.kind ≠ .time ∧ w.kind ≠ .easing

instance (words : List Word) : Decidable (Untimed words) :=
  inferInstanceAs (Decidable (∀ w ∈ words, w.kind ≠ .time ∧ w.kind ≠ .easing))

theorem untimed_append_singleton {words : List Word} {w : Word} :
    Untimed (words ++ [w]) ↔ Untimed words ∧ w.kind ≠ .time ∧ w.kind ≠ .easing := by
  unfold Untimed
  rw [List.forall_mem_append, List.forall_mem_singleton]

/-- The part that a word fills behind others. A time is the duration if it is the first one and stands
before the easing; otherwise it is the delay. -/
def Word.partBehind (before : List Word) : Word → Slot
  | time _ => if Untimed before then .time1 else .time2
  | easing _ => .easing
  | behavior _ => .behavior
  | property _ => .property

namespace Record

/-- The part of a record, as a word. -/
def part? (r : Record) : Slot → Option Word
  | .start => none
  | .property => r.property.map .property
  | .time1 => r.time1.map .time
  | .easing => r.easing.map .easing
  | .time2 => r.time2.map .time
  | .behavior => r.behavior.map .behavior

/-- Each part is the word of the group that belongs there, and nothing if there is none. -/
def Holds (r : Record) (words : List Word) : Prop :=
  ∀ slot w, r.part? slot = some w ↔ ∃ before after, words = before ++ w :: after ∧ w.partBehind before = slot

/-- The record holds the words read so far, the last of them in the slot. -/
structure Filled (r : Record) (words : List Word) (slot : Slot) : Prop where
  ends : r.EndsAt slot
  holds : r.Holds words
  duration : slot ≠ .behavior → (Untimed words ↔ slot.rank < Slot.time1.rank)

variable {r r' : Record} {slot slot' : Slot} {words before after : List Word} {w v : Word}

theorem EndsAt.part?_eq_none (h : r.EndsAt slot) {s : Slot} (hs : slot.rank < s.rank) : r.part? s = none := by
  cases s with
  | start => rfl
  | property => rw [part?, h.property hs]; rfl
  | time1 => rw [part?, h.time1 hs]; rfl
  | easing => rw [part?, h.easing hs]; rfl
  | time2 => rw [part?, h.time2 hs]; rfl
  | behavior => rw [part?, h.behavior hs]; rfl

theorem part?_place (hp : r.place slot w = some (slot', r')) (s : Slot) :
    r'.part? s = if s = slot' then some w else r.part? s := by
  unfold place at hp
  split at hp <;> cases hp <;> cases s <;> rfl

theorem rank_lt_of_place (hp : r.place slot w = some (slot', r')) : slot.rank < slot'.rank := by
  unfold place at hp
  split at hp <;> cases hp <;> first | decide | (cases slot <;> first | decide | contradiction)

theorem append_singleton_eq_iff {α : Type} {l before after : List α} {a b : α} :
    l ++ [a] = before ++ b :: after ↔
      (before = l ∧ b = a ∧ after = []) ∨ ∃ rest, after = rest ++ [a] ∧ l = before ++ b :: rest := by
  constructor
  · intro h
    rcases List.eq_nil_or_concat' after with rfl | ⟨rest, c, rfl⟩
    · obtain ⟨rfl, hb⟩ := List.append_inj' h rfl
      cases hb
      exact .inl ⟨rfl, rfl, rfl⟩
    · rw [← List.cons_append, ← List.append_assoc] at h
      obtain ⟨rfl, hb⟩ := List.append_inj' h rfl
      cases hb
      exact .inr ⟨rest, rfl, rfl⟩
  · rintro (⟨rfl, rfl, rfl⟩ | ⟨rest, rfl, rfl⟩) <;> simp

/-- A word fills the part that it belongs to, given those that stand before it. -/
theorem Filled.partBehind_eq (h : r.Filled words slot) (hp : r.place slot w = some (slot', r')) :
    w.partBehind words = slot' := by
  have hd := h.duration
  unfold place at hp
  split at hp <;> cases hp <;> simp_all [Word.partBehind, Slot.rank]

theorem Filled.place (h : r.Filled words slot) (hp : r.place slot w = some (slot', r')) :
    r'.Filled (words ++ [w]) slot' := by
  have hpart := h.partBehind_eq hp
  constructor
  case ends => exact h.ends.place hp
  case holds =>
    intro s v
    rw [part?_place hp]
    constructor
    · intro hs
      split at hs
      · rename_i hslot
        cases hs
        exact ⟨words, [], rfl, hpart.trans hslot.symm⟩
      · obtain ⟨before, after, rfl, hv⟩ := (h.holds s v).1 hs
        exact ⟨before, after ++ [w], by simp, hv⟩
    · rintro ⟨before, after, hwords, hv⟩
      rcases append_singleton_eq_iff.1 hwords with ⟨rfl, rfl, rfl⟩ | ⟨rest, rfl, hold⟩
      · rw [if_pos (hv.symm.trans hpart)]
      · -- the part was free, so it is another one that the earlier word has
        have hs := (h.holds s v).2 ⟨before, rest, hold, hv⟩
        rw [if_neg, hs]
        rintro rfl
        rw [h.ends.part?_eq_none (rank_lt_of_place hp)] at hs
        cases hs
  case duration =>
    intro hne
    have hd := h.duration
    rw [untimed_append_singleton]
    unfold Record.place at hp
    split at hp <;> cases hp <;> simp_all [Slot.rank, Word.kind]

theorem filled_start : Filled {} [] .start := by
  constructor
  case ends => exact endsAt_start
  case holds =>
    intro s w
    constructor
    · intro h
      cases s <;> cases h
    · rintro ⟨before, after, h, -⟩
      simp at h
  case duration => simp [Untimed, Slot.rank]

/-- Words one after the other fill each the part that it belongs to. -/
theorem Filled.places {rest : List Word} (h : r.Filled words slot)
    (hp : rest.foldlM (fun s w => s.2.place s.1 w) (slot, r) = some (slot', r')) : r'.Filled (words ++ rest) slot' := by
  induction rest generalizing r slot words with
  | nil =>
    cases hp
    rwa [List.append_nil]
  | cons w rest ih =>
    rw [List.foldlM_cons] at hp
    obtain ⟨⟨slot₁, r₁⟩, hw, hp⟩ := Option.bind_eq_some_iff.1 hp
    have := ih (h.place hw) hp
    rwa [List.append_assoc, List.singleton_append] at this

theorem holds_of_fill {source : String} {texts : List (List Char)} (h : Record.fill source {} .start texts = .ok r) :
    ∃ words, texts.mapM Word.read = .ok words ∧ r.Holds words := by
  obtain ⟨hdelay, words, hread, hwords⟩ := endsAt_start.fill h
  obtain rfl : r.words = words := hwords
  obtain ⟨slot, hplaces⟩ := places_words hdelay
  exact ⟨r.words, hread, (filled_start.places hplaces).holds⟩

end Record

/-! ## Groups of words -/

/-- The words between commas. -/
def groups (source : String) : List (List (List Char)) := (splitCommas source.toList).map Text.words

/-- No time is beyond all doubles. -/
def FiniteTimes (source : String) : Prop :=
  ∀ group ∈ groups source, ∀ word ∈ group, readTime word ≠ .error .infiniteTime

instance (source : String) : Decidable (FiniteTimes source) :=
  inferInstanceAs (Decidable (∀ group ∈ groups source, ∀ word ∈ group, readTime word ≠ .error .infiniteTime))

theorem exists_read {word : List Char} (h : readTime word ≠ .error .infiniteTime) : ∃ w, Word.read word = .ok w := by
  unfold Word.read
  unfold readTime at h ⊢
  split
  · exact ⟨_, rfl⟩
  · rename_i x hx
    rw [hx] at h
    dsimp only at h ⊢
    split
    · exact ⟨_, rfl⟩
    · rename_i ht
      rw [ht] at h
      exact absurd rfl h

/-- A group of words is read if its kinds form a word of the language, and otherwise the word is refused
at which they stop being the beginning of one. -/
theorem readGroup_cases (source : String) {group : List (List Char)}
    (hfinite : ∀ word ∈ group, readTime word ≠ .error .infiniteTime) :
    (group.map kindOf ∈ recordKinds.matches' ∧ ∃ r?, readGroup source group = .ok r?) ∨
      ∃ done word rest expected, group = done ++ word :: rest ∧ Begins (done.map kindOf) ∧
        ¬ Begins ((done ++ [word]).map kindOf) ∧
        readGroup source group = .error (.misplaced (String.ofList word) expected source) := by
  have hstart : Slot.start.remaining = partKinds := rfl
  rcases fill_cases source (fun word hw => exists_read (hfinite word hw)) {} .start with
    ⟨hkinds, r, hfill⟩ | ⟨done, word, rest, expected, rfl, hdone, hword, hfill⟩
  · refine .inl ⟨(mem_recordKinds_iff _).2 (hstart ▸ hkinds), ?_⟩
    unfold readGroup
    split
    · exact ⟨none, rfl⟩
    · exact ⟨some r, by rw [hfill]; rfl⟩
  · rw [hstart, ← begins_iff] at hdone hword
    refine .inr ⟨done, word, rest, expected, rfl, hdone, hword, ?_⟩
    rw [readGroup, if_neg (by simp), hfill]
    rfl

theorem exists_readGroup_ok (source : String) {group : List (List Char)}
    (hfinite : ∀ word ∈ group, readTime word ≠ .error .infiniteTime) (h : group.map kindOf ∈ recordKinds.matches') :
    ∃ r?, readGroup source group = .ok r? := by
  rcases readGroup_cases source hfinite with ⟨-, hread⟩ | ⟨done, word, rest, -, rfl, -, hword, -⟩
  · exact hread
  · exact absurd ⟨rest.map kindOf, by simpa using h⟩ hword

/-- The groups that are not empty have each a record, in order, and the others have none. -/
theorem forall₂_records {source : String} {gs : List (List (List Char))} {rs : List (Option Record)}
    (h : List.Forall₂ (fun group r? => readGroup source group = .ok r?) gs rs) :
    List.Forall₂ (fun group r => ∃ words, group.mapM Word.read = .ok words ∧ r.Holds words)
      (gs.filter (· ≠ [])) (rs.filterMap id) := by
  induction h with
  | nil => exact .nil
  | @cons group r? gs rs hread _ ih =>
    unfold readGroup at hread
    split at hread
    · rename_i hnil
      cases hread
      rw [List.isEmpty_iff.1 hnil]
      exact ih
    · rename_i hne
      cases hfill : Record.fill source {} .start group with
      | error e => rw [hfill] at hread; cases hread
      | ok r =>
        rw [hfill] at hread
        cases hread
        rw [List.filter_cons_of_pos (by simpa using hne)]
        exact .cons (Record.holds_of_fill hfill) ih

/-! ## Transitions -/

/-- The kinds between any two commas form a word of the language. -/
def Grammatical (source : String) : Prop := ∀ group ∈ groups source, group.map kindOf ∈ recordKinds.matches'

/-- The first word of the text at which the kinds in its group stop being the beginning of a word of the
language. -/
def FirstMisplaced (source : String) (word : List Char) : Prop :=
  ∃ before done rest after, groups source = before ++ (done ++ word :: rest) :: after ∧
    (∀ group ∈ before, group.map kindOf ∈ recordKinds.matches') ∧
    Begins (done.map kindOf) ∧ ¬ Begins ((done ++ [word]).map kindOf)

theorem exists_parse_ok {source : String} (hfinite : FiniteTimes source) (h : Grammatical source) :
    ∃ records, parse source = .ok records := by
  obtain ⟨rs, hrs⟩ : ∃ rs, (groups source).mapM (readGroup source) = .ok rs :=
    exists_mapM_ok fun group hg => exists_readGroup_ok source (hfinite group hg) (h group hg)
  refine ⟨rs.filterMap id, ?_⟩
  show readGroups source (groups source) = _
  rw [readGroups, hrs]
  rfl

theorem exists_parse_error {source : String} (hfinite : FiniteTimes source) (h : ¬ Grammatical source) :
    ∃ word expected, FirstMisplaced source word ∧
      parse source = .error (.misplaced (String.ofList word) expected source) := by
  classical
  -- the first group that is not in the language
  obtain ⟨group, hfound⟩ : ∃ group,
      (groups source).find? (fun g => decide (g.map kindOf ∉ recordKinds.matches')) = some group := by
    rw [← Option.isSome_iff_exists, List.find?_isSome]
    simpa [Grammatical] using h
  obtain ⟨hbad, before, after, hgroups, hbefore⟩ := List.find?_eq_some_iff_append.1 hfound
  have hmem : group ∈ groups source := by simp [hgroups]
  have hbefore : ∀ g ∈ before, g.map kindOf ∈ recordKinds.matches' := fun g hg => by simpa using hbefore g hg
  rcases readGroup_cases source (hfinite group hmem) with
    ⟨hkinds, -⟩ | ⟨done, word, rest, expected, rfl, hdone, hword, hread⟩
  · exact absurd hkinds (by simpa using hbad)
  · refine ⟨word, expected, ⟨before, done, rest, after, hgroups, hbefore, hdone, hword⟩, ?_⟩
    show readGroups source (groups source) = _
    rw [readGroups, hgroups, mapM_eq_error (fun g hg => ?_) hread]
    · rfl
    · exact exists_readGroup_ok source (hfinite g (by simp [hgroups, hg])) (hbefore g hg)

/-- A text whose times are doubles is a transition if and only if the kinds of the words between commas
form words of the language of records. Then there is a record for each group of words, in order, which has
them in its parts; otherwise the first word is refused at which the kinds in its group stop being the
beginning of a word of the language. -/
theorem parse_iff_grammatical (source : String) (hfinite : FiniteTimes source) :
    ((∃ records, parse source = .ok records) ↔ Grammatical source) ∧
    (∀ records, parse source = .ok records →
      List.Forall₂ (fun group r => ∃ words, group.mapM Word.read = .ok words ∧ r.Holds words)
        ((groups source).filter (· ≠ [])) records) ∧
    (¬ Grammatical source → ∃ word expected, FirstMisplaced source word ∧
      parse source = .error (.misplaced (String.ofList word) expected source)) := by
  refine ⟨⟨?_, exists_parse_ok hfinite⟩, ?_, exists_parse_error hfinite⟩
  · rintro ⟨records, hrecords⟩
    by_contra hnot
    obtain ⟨word, expected, -, herror⟩ := exists_parse_error hfinite hnot
    rw [hrecords] at herror
    cases herror
  · intro records hrecords
    obtain ⟨rs, hrs, hrecords⟩ := except_bind_ok hrecords
    cases hrecords
    exact forall₂_records (forall₂_of_mapM_ok hrs)

/-- A text with two records and an empty one between them, and a text that is refused at its last word. -/
theorem parse_iff_grammatical_delays :
    (∃ records, parse "opacity 1s ease 50ms,,2s 1s" = .ok records ∧ records.length = 2) ∧
    ∃ word expected, FirstMisplaced "1s 2s,1s 2s ease" word ∧
      parse "1s 2s,1s 2s ease" = .error (.misplaced (String.ofList word) expected "1s 2s,1s 2s ease") := by
  constructor
  · obtain ⟨hiff, hrecords, -⟩ := parse_iff_grammatical "opacity 1s ease 50ms,,2s 1s" (by decide +kernel)
    obtain ⟨records, hparse⟩ := hiff.2 fun group hg => (mem_recordKinds_iff _).2 (by revert group; decide +kernel)
    refine ⟨records, hparse, (hrecords records hparse).length_eq.symm.trans (by decide +kernel)⟩
  · refine (parse_iff_grammatical "1s 2s,1s 2s ease" (by decide +kernel)).2.2 fun h => ?_
    have hlast := h ["1s".toList, "2s".toList, "ease".toList] (by decide +kernel)
    rw [mem_recordKinds_iff] at hlast
    revert hlast
    decide +kernel

end Stylesheet.Transition
