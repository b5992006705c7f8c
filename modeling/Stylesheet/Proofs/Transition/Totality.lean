/-
Filling records by tables: one gives the slot of the next word by its kind, one what is expected behind a slot, and one
the field that a slot fills. They are partial, since nothing is missing at the start of a record and no word lands
there. Yet no look-up of a text fails (`parseByTables_eq`): a transition is refused for a misplaced word or for an
infinite time, and for the latter if it is the first word that keeps the text from being read (`parse_total`).
-/
import Stylesheet.Proofs.Transition.Grammar
import Stylesheet.Proofs.Transition.Seconds

namespace Stylesheet.Transition

open Text

/-! ## Tables -/

/-- The slot of a word, by the slot before it and its kind. -/
def slotTable : List (Slot × List (Kind × Slot)) :=
  [(.start, [(.time, .time1), (.easing, .easing), (.behavior, .behavior), (.property, .property)]),
    (.property, [(.time, .time1), (.easing, .easing), (.behavior, .behavior)]),
    (.time1, [(.time, .time2), (.easing, .easing), (.behavior, .behavior)]),
    (.easing, [(.time, .time2), (.behavior, .behavior)]),
    (.time2, [(.behavior, .behavior)]),
    (.behavior, [])]

/-- What is expected behind a slot. Every word can stand at the start, so that has no entry. -/
def expectedTable : List (Slot × List String) :=
  [(.property, ["time", "function", "behavior"]),
    (.time1, ["function", "second time", "behavior"]),
    (.easing, ["second time", "behavior"]),
    (.time2, ["behavior"]),
    (.behavior, ["comma", "end"])]

/-- The name of the field that is filled in a slot. -/
def fieldTable : List (Slot × String) :=
  [(.property, "property"), (.time1, "time1_ms"), (.easing, "function"), (.time2, "time2_ms"), (.behavior, "behavior")]

/-- Why a text is not read by tables: it is refused, or something is not found. -/
inductive Fault
  | refused (error : Error)
  | missing (slot : Slot)
  | unknown (field : String)
deriving DecidableEq, Repr

/-- The entry of a slot. -/
def entry {α : Type} (table : List (Slot × α)) (slot : Slot) : Except Fault α :=
  match table.lookup slot with
  | some a => .ok a
  | none => .error (.missing slot)

namespace Record

/-- The record with the field of this name set to a word of its type. -/
def set? (r : Record) (field : String) : Word → Option Record
  | .property name => if field = "property" then some { r with property := some name } else none
  | .time t =>
    if field = "time1_ms" then some { r with time1 := some t }
    else if field = "time2_ms" then some { r with time2 := some t }
    else none
  | .easing e => if field = "function" then some { r with easing := some e } else none
  | .behavior b => if field = "behavior" then some { r with behavior := some b } else none

/-- The slot of the next word, and the record with it. -/
def placeByTables (source : String) (r : Record) (slot : Slot) (text : List Char) : Except Fault (Slot × Record) := do
  let word ← (Word.read text).mapError .refused
  let row ← entry slotTable slot
  match row.lookup word.kind with
  | none => do
    let expected ← entry expectedTable slot
    .error (.refused (.misplaced (String.ofList text) expected source))
  | some next => do
    let field ← entry fieldTable next
    match r.set? field word with
    | some r => .ok (next, r)
    | none => .error (.unknown field)

def fillByTables (source : String) (r : Record) (slot : Slot) : List (List Char) → Except Fault Record
  | [] => .ok r
  | text :: rest => do
    let (slot, r) ← r.placeByTables source slot text
    fillByTables source r slot rest

end Record

def readGroupByTables (source : String) (words : List (List Char)) : Except Fault (Option Record) :=
  if words.isEmpty then .ok none else some <$> Record.fillByTables source {} .start words

def parseByTables (source : String) : Except Fault (List Record) := do
  let records ← (groups source).mapM (readGroupByTables source)
  .ok (records.filterMap id)

/-! ## Every look-up succeeds -/

namespace Record

variable {source : String} {r r' : Record} {slot : Slot} {text : List Char} {texts rest : List (List Char)} {e : Error}

/-- The slot of the next word, and the record with it, unless the word is refused. -/
def placeText (source : String) (r : Record) (slot : Slot) (text : List Char) : Except Error (Slot × Record) :=
  match Word.read text with
  | .error error => .error error
  | .ok word =>
    match r.place slot word with
    | some p => .ok p
    | none => .error (.misplaced (String.ofList text) slot.expected source)

theorem fill_cons_eq (r : Record) (slot : Slot) (text : List Char) (rest : List (List Char)) :
    r.fill source slot (text :: rest) = (r.placeText source slot text).bind fun p => p.2.fill source p.1 rest := by
  rw [fill, placeText]
  cases Word.read text with
  | error e => rfl
  | ok w =>
    dsimp only
    cases r.place slot w <;> rfl

theorem placeByTables_eq (r : Record) (slot : Slot) (text : List Char) :
    r.placeByTables source slot text = (r.placeText source slot text).mapError .refused := by
  rw [placeByTables, placeText]
  cases Word.read text with
  | error e => rfl
  | ok w => cases slot <;> cases w <;> rfl

theorem fillByTables_eq (r : Record) (slot : Slot) (texts : List (List Char)) :
    r.fillByTables source slot texts = (r.fill source slot texts).mapError .refused := by
  induction texts generalizing r slot with
  | nil => rfl
  | cons text rest ih =>
    rw [fillByTables, fill_cons_eq, placeByTables_eq]
    cases r.placeText source slot text with
    | error e => rfl
    | ok p => exact ih p.2 p.1

end Record

theorem readGroupByTables_eq (source : String) (words : List (List Char)) :
    readGroupByTables source words = (readGroup source words).mapError .refused := by
  unfold readGroupByTables readGroup
  split
  · rfl
  · rw [Record.fillByTables_eq]
    cases Record.fill source {} .start words <;> rfl

/-- Reading by tables is reading: nothing is looked up that they do not have. -/
theorem parseByTables_eq (source : String) : parseByTables source = (parse source).mapError .refused := by
  have hgroups : (groups source).mapM (readGroupByTables source) =
      ((groups source).mapM (readGroup source)).mapError Fault.refused := by
    rw [← mapM_mapError, funext (readGroupByTables_eq source)]
  show _ = (readGroups source (groups source)).mapError Fault.refused
  rw [parseByTables, hgroups, readGroups]
  cases (groups source).mapM (readGroup source) <;> rfl

/-! ## Words before an infinite time -/

/-- The words are no infinite times. -/
def AllFinite (words : List (List Char)) : Prop := ∀ word ∈ words, readTime word ≠ .error .infiniteTime

theorem exists_infinite_of_not_finite {words : List (List Char)} (h : ¬ AllFinite words) : ∃ done word rest,
    words = done ++ word :: rest ∧ AllFinite done ∧ readTime word = .error .infiniteTime := by
  obtain ⟨word, hfound⟩ : ∃ word, words.find? (fun word => readTime word = .error .infiniteTime) = some word := by
    rw [← Option.isSome_iff_exists, List.find?_isSome]
    simpa [AllFinite] using h
  obtain ⟨hword, done, rest, rfl, hdone⟩ := List.find?_eq_some_iff_append.1 hfound
  exact ⟨done, word, rest, rfl, fun w hw => by simpa using hdone w hw, by simpa using hword⟩

theorem eq_infiniteTime_of_read {word : List Char} {e : Error} (h : Word.read word = .error e) : e = .infiniteTime := by
  unfold Word.read readTime at h
  split at h
  · cases h
  · split at h <;> cases h
    rfl

theorem read_of_infinite {word : List Char} (h : readTime word = .error .infiniteTime) :
    Word.read word = .error .infiniteTime := by
  rw [Word.read, h]
  rfl

namespace Record

variable {source : String} {r : Record} {slot : Slot} {texts : List (List Char)} {e : Error}

/-- An infinite time is refused wherever it stands. -/
theorem fill_of_infinite {word : List Char} (h : readTime word = .error .infiniteTime) (rest : List (List Char)) :
    r.fill source slot (word :: rest) = .error .infiniteTime := by
  rw [fill, read_of_infinite h]

/-- Words go on filling the record that those before them have filled, and are not reached if one of those is
refused. -/
theorem fill_append (source : String) (r : Record) (slot : Slot) (texts rest : List (List Char)) :
    (∃ r' next, r.fill source slot texts = .ok r' ∧ r.fill source slot (texts ++ rest) = r'.fill source next rest) ∨
      ∃ e, r.fill source slot texts = .error e ∧ r.fill source slot (texts ++ rest) = .error e := by
  induction texts generalizing r slot with
  | nil => exact .inl ⟨r, slot, rfl, rfl⟩
  | cons text texts ih =>
    rw [List.cons_append, fill_cons_eq, fill_cons_eq]
    cases r.placeText source slot text with
    | error e => exact .inr ⟨e, rfl, rfl⟩
    | ok p => exact ih p.2 p.1

/-- A word is refused for what is expected in its place. -/
theorem expected_of_fill {word : String} {expected : List String}
    (h : r.fill source slot texts = .error (.misplaced word expected source)) :
    expected ∈ expectedTable.map Prod.snd := by
  induction texts generalizing r slot with
  | nil => cases h
  | cons text texts ih =>
    rw [fill_cons_eq] at h
    cases hplace : r.placeText source slot text with
    | ok p =>
      rw [hplace] at h
      exact ih h
    | error e =>
      rw [hplace] at h
      obtain rfl : e = _ := Except.error.inj h
      unfold placeText at hplace
      split at hplace
      · rename_i hread
        cases hplace
        cases eq_infiniteTime_of_read hread
      · rename_i w hread
        split at hplace <;> cases hplace
        rename_i hnone
        -- every word can stand at the start
        cases slot with
        | start => cases w <;> cases hnone
        | property | time1 | easing | time2 | behavior => decide

end Record

theorem expected_of_readGroup {source word : String} {group : List (List Char)} {expected : List String}
    (h : readGroup source group = .error (.misplaced word expected source)) :
    expected ∈ expectedTable.map Prod.snd := by
  unfold readGroup at h
  split at h
  · cases h
  · cases hfill : Record.fill source {} .start group with
    | ok r => rw [hfill] at h; cases h
    | error e =>
      rw [hfill] at h
      obtain rfl : e = _ := Except.error.inj h
      exact Record.expected_of_fill hfill

theorem readGroup_of_fill_error {source : String} {group : List (List Char)} {e : Error} (hne : group ≠ [])
    (h : Record.fill source {} .start group = .error e) : readGroup source group = .error e := by
  rw [readGroup, if_neg (by simpa using hne), h]
  rfl

/-- Behind the beginning of a record, an infinite time is what its group is refused for. -/
theorem readGroup_of_infinite (source : String) {done : List (List Char)} {word : List Char} (hdone : AllFinite done)
    (hbegins : Begins (done.map kindOf)) (hword : readTime word = .error .infiniteTime) (rest : List (List Char)) :
    readGroup source (done ++ word :: rest) = .error .infiniteTime := by
  refine readGroup_of_fill_error (by simp) ?_
  rcases Record.fill_append source {} .start done (word :: rest) with ⟨r, next, -, happend⟩ | ⟨e, herror, -⟩
  · exact happend.trans (Record.fill_of_infinite hword rest)
  · rcases fill_cases source (fun w hw => exists_read (hdone w hw)) {} .start with
      ⟨-, r, hfill⟩ | ⟨front, bad, back, expected, rfl, -, hbad, -⟩
    · rw [hfill] at herror
      cases herror
    · refine absurd ?_ hbad
      have hfront : ((front ++ [bad]).map kindOf).Sublist ((front ++ bad :: back).map kindOf) := by simp
      exact hfront.trans ((begins_iff _).1 hbegins)

/-- How a group of words is read if there may be infinite times in it. -/
theorem readGroup_total (source : String) (group : List (List Char)) :
    (AllFinite group ∧ group.map kindOf ∈ recordKinds.matches' ∧ ∃ r?, readGroup source group = .ok r?) ∨
      (∃ done word rest expected, group = done ++ word :: rest ∧ Begins (done.map kindOf) ∧
        ¬ Begins ((done ++ [word]).map kindOf) ∧
        readGroup source group = .error (.misplaced (String.ofList word) expected source)) ∨
      ∃ done word rest, group = done ++ word :: rest ∧ AllFinite done ∧ Begins (done.map kindOf) ∧
        readTime word = .error .infiniteTime ∧ readGroup source group = .error .infiniteTime := by
  by_cases hfinite : AllFinite group
  · rcases readGroup_cases source hfinite with ⟨hkinds, hread⟩ | hrefused
    · exact .inl ⟨hfinite, hkinds, hread⟩
    · exact .inr (.inl hrefused)
  obtain ⟨front, infinite, back, rfl, hfront, hinfinite⟩ := exists_infinite_of_not_finite hfinite
  by_cases hbegins : Begins (front.map kindOf)
  · exact .inr (.inr ⟨front, infinite, back, rfl, hfront, hbegins, hinfinite,
      readGroup_of_infinite source hfront hbegins hinfinite back⟩)
  -- the words in front of the infinite time are refused, and so they are with it
  rcases readGroup_cases source hfront with ⟨hkinds, -⟩ | ⟨done, word, rest, expected, rfl, hdone, hword, hrefused⟩
  · exact absurd ⟨[], by rwa [List.append_nil]⟩ hbegins
  · refine .inr (.inl ⟨done, word, rest ++ infinite :: back, expected, by simp, hdone, hword, ?_⟩)
    rw [readGroup, if_neg (by simp)] at hrefused
    refine readGroup_of_fill_error (by simp) ?_
    rcases Record.fill_append source {} .start (done ++ word :: rest) (infinite :: back) with
      ⟨r, next, hok, -⟩ | ⟨e, herror, happend⟩
    · rw [hok] at hrefused
      cases hrefused
    · rw [herror] at hrefused
      have he : e = .misplaced (String.ofList word) expected source := Except.error.inj hrefused
      exact happend.trans (congrArg Except.error he)

/-! ## The length of an infinite time -/

/-- A numeral is no larger than its digits before the point can make it. -/
theorem exists_toDouble {n : Numeral} {k : Nat} (hdigits : ∀ d ∈ n.whole ++ n.places, isDigit d = true) (hk : k < 1024)
    (h : 10 ^ n.whole.length ≤ 2 ^ k) :
    ∃ units hr, units ≤ 2 ^ k * Double.unitsPerOne ∧ n.toDouble = .finite false units hr := by
  have hascii : ∀ d ∈ n.whole.map toAsciiDigit ++ n.places.map toAsciiDigit, d.isDigit = true := by
    rw [← List.map_append]
    exact List.forall_mem_map.2 fun d hd => isDigit_toAsciiDigit (hdigits d hd)
  have hvalue := ofDigitChars_lt hascii (n := 0) (k := 0) (by decide)
  rw [List.length_append, List.length_map, List.length_map, Nat.zero_add, pow_add] at hvalue
  unfold Numeral.toDouble Double.ofDigits Double.ofRatio
  refine Double.exists_ofUnits_of_lt false hk ?_
  rw [List.length_map, Nat.pow_eq, Nat.mul_right_comm]
  exact Nat.mul_lt_mul_of_pos_right (hvalue.trans_le (Nat.mul_le_mul_right _ h)) Double.unitsPerOne_pos

/-- With so many digits before the point a time is finite, in seconds as well. -/
def finiteDigits : Nat := 304

theorem ten_pow_finiteDigits : ∃ k, k + 10 < 1024 ∧ 10 ^ finiteDigits ≤ 2 ^ k := ⟨1010, by decide, by decide +kernel⟩

/-- No time is infinite that has fewer digits. -/
theorem lt_length_of_infinite {word : List Char} (h : readTime word = .error .infiniteTime) :
    ∃ n unit, Numeral.split? isDigit word = some (n, unit) ∧ finiteDigits < n.whole.length := by
  obtain ⟨k, hk, hpow⟩ := ten_pow_finiteDigits
  cases hsplit : Numeral.split? isDigit word with
  | none =>
    rw [readTime, duration?, hsplit] at h
    cases h
  | some p =>
    obtain ⟨n, unit⟩ := p
    refine ⟨n, unit, rfl, ?_⟩
    by_contra hfew
    have hwhole : 10 ^ n.whole.length ≤ 2 ^ k := (Nat.pow_le_pow_right (by decide) (not_lt.1 hfew)).trans hpow
    obtain ⟨units, hr, hunits, hdouble⟩ := exists_toDouble (Numeral.digits_of_split? hsplit).1 (by omega) hwhole
    -- a thousand times the number is below the largest power of two
    have hthousand : 1000 * units < 2 ^ (k + 10) * Double.unitsPerOne * 1 := by
      have hpos : 0 < 2 ^ k * Double.unitsPerOne := Nat.mul_pos (Nat.two_pow_pos k) Double.unitsPerOne_pos
      rw [pow_add, Nat.mul_one, Nat.mul_right_comm]
      omega
    obtain ⟨product, hproduct, -, hmul⟩ := Double.exists_ofUnits_of_lt false hk hthousand
    rw [← Double.mul_thousand hr, ← hdouble] at hmul
    have hduration : duration? word = none ∨ ∃ units hr, duration? word = some (.finite false units hr) := by
      unfold duration?
      split
      · rename_i hunit
        cases hsplit.symm.trans hunit
        exact .inr ⟨units, hr, congrArg some hdouble⟩
      · rename_i hunit
        cases hsplit.symm.trans hunit
        exact .inr ⟨product, hproduct, congrArg some hmul⟩
      · exact .inl rfl
    rcases hduration with hnone | ⟨units', hr', hfinite⟩
    · rw [readTime_eq_none.2 hnone] at h
      cases h
    · rw [readTime_of_finite hr' hfinite] at h
      cases h

/-! ## Transitions -/

/-- Words without commas that are joined by blanks are one group. -/
theorem groups_eq_singleton {source : String} {ws : List (List Char)} (hsource : source.toList = [' '].intercalate ws)
    (h : ∀ w ∈ ws, w ≠ [] ∧ w.all (fun c => !isBlank c && c != ',') = true) : groups source = [ws] := by
  have hchars (w : List Char) (hw : w ∈ ws) (c : Char) (hc : c ∈ w) : isBlank c = false ∧ c ≠ ',' := by
    simpa using List.all_eq_true.1 (h w hw).2 c hc
  have hcomma : ',' ∉ [' '].intercalate ws := not_mem_intercalate (by decide) fun w hw hmem =>
    (hchars w hw _ hmem).2 rfl
  rw [groups, hsource, splitCommas_of_not_mem hcomma, List.map_singleton,
    words_intercalate (by decide) fun w hw => ⟨(h w hw).1, fun c hc => (hchars w hw c hc).1⟩]

/-- The first word of the text that keeps it from being read, and an infinite time. -/
def FirstInfinite (source : String) (word : List Char) : Prop :=
  ∃ before done rest after, groups source = before ++ (done ++ word :: rest) :: after ∧
    (∀ group ∈ before, AllFinite group ∧ group.map kindOf ∈ recordKinds.matches') ∧
    AllFinite done ∧ Begins (done.map kindOf) ∧ readTime word = .error .infiniteTime

theorem parse_eq_map (source : String) :
    parse source = ((groups source).mapM (readGroup source)).map fun records => records.filterMap id := by
  show readGroups source (groups source) = _
  rw [readGroups]
  cases (groups source).mapM (readGroup source) <;> rfl

theorem FirstInfinite.infinite {source : String} {word : List Char} (h : FirstInfinite source word) :
    readTime word = .error .infiniteTime := by
  obtain ⟨_, _, _, _, _, _, _, _, hword⟩ := h
  exact hword

theorem parse_of_firstInfinite {source : String} {word : List Char} (h : FirstInfinite source word) :
    parse source = .error .infiniteTime := by
  obtain ⟨before, done, rest, after, hgroups, hbefore, hdone, hbegins, hword⟩ := h
  have hok (group : List (List Char)) (hg : group ∈ before) : ∃ r?, readGroup source group = .ok r? :=
    exists_readGroup_ok source (hbefore group hg).1 (hbefore group hg).2
  rw [parse_eq_map, hgroups, mapM_eq_error hok (readGroup_of_infinite source hdone hbegins hword rest)]
  rfl

/-- A text is read, or refused for the first misplaced word with what is expected in its place, or refused for an
infinite time that stands before any misplaced word. No look-up fails. -/
theorem parse_total (source : String) :
    parseByTables source = (parse source).mapError .refused ∧
    ((∃ records, parse source = .ok records) ∨
      (∃ word expected, FirstMisplaced source word ∧ expected ∈ expectedTable.map Prod.snd ∧
        parse source = .error (.misplaced (String.ofList word) expected source)) ∨
      ∃ word, FirstInfinite source word ∧ parse source = .error .infiniteTime) ∧
    ∀ word, FirstInfinite source word → parse source = .error .infiniteTime ∧
      ∃ n unit, Numeral.split? isDigit word = some (n, unit) ∧ finiteDigits < n.whole.length := by
  refine ⟨parseByTables_eq source, ?_, fun word h => ⟨parse_of_firstInfinite h, lt_length_of_infinite h.infinite⟩⟩
  rw [parse_eq_map]
  rcases mapM_cases (readGroup source) (groups source) with
    ⟨rs, hrs⟩ | ⟨before, group, after, e, hgroups, hbefore, hgroup, herror⟩
  · exact .inl ⟨rs.filterMap id, by rw [hrs]; rfl⟩
  have hread (g : List (List Char)) (hg : g ∈ before) : AllFinite g ∧ g.map kindOf ∈ recordKinds.matches' := by
    obtain ⟨r?, hr⟩ := hbefore g hg
    rcases readGroup_total source g with
      ⟨hfinite, hkinds, -⟩ | ⟨_, _, _, _, -, -, -, hrefused⟩ | ⟨_, _, _, -, -, -, -, hrefused⟩
    · exact ⟨hfinite, hkinds⟩
    all_goals
      rw [hr] at hrefused
      cases hrefused
  rcases readGroup_total source group with
    ⟨-, -, r?, hok⟩ | ⟨done, word, rest, expected, rfl, hdone, hword, hrefused⟩ |
      ⟨done, word, rest, rfl, hdone, hbegins, hword, hrefused⟩
  · rw [hgroup] at hok
    cases hok
  · refine .inr (.inl ⟨word, expected, ⟨before, done, rest, after, hgroups, fun g hg => (hread g hg).2, hdone, hword⟩,
      expected_of_readGroup hrefused, ?_⟩)
    rw [hgroup] at hrefused
    rw [herror, Except.error.inj hrefused]
    rfl
  · refine .inr (.inr ⟨word, ⟨before, done, rest, after, hgroups, hread, hdone, hbegins, hword⟩, ?_⟩)
    rw [hgroup] at hrefused
    rw [herror, Except.error.inj hrefused]
    rfl

/-- A word behind the behavior is misplaced, whatever it is, but this one is refused as an infinite time. -/
theorem parse_total_infinite :
    FirstMisplaced ("discrete 2" ++ String.ofList (List.replicate 308 '0') ++ "ms")
        (['2'] ++ List.replicate 308 '0' ++ ['m', 's']) ∧
      parse ("discrete 2" ++ String.ofList (List.replicate 308 '0') ++ "ms") = .error .infiniteTime := by
  have hsource (zeros : List Char) : ("discrete 2" ++ String.ofList zeros ++ "ms").toList =
      [' '].intercalate ["discrete".toList, ['2'] ++ zeros ++ ['m', 's']] := by
    rw [String.toList_append, String.toList_append, String.toList_ofList, String.toList_ofList]
    simp
  have hgroups := groups_eq_singleton (hsource (List.replicate 308 '0')) (by decide +kernel)
  have hinfinite : readTime (['2'] ++ List.replicate 308 '0' ++ ['m', 's']) = .error .infiniteTime := by decide +kernel
  have hfinite : AllFinite ["discrete".toList] := by unfold AllFinite; decide +kernel
  have hbegins : Begins (["discrete".toList].map kindOf) := (begins_iff _).2 (by decide +kernel)
  refine ⟨⟨[], ["discrete".toList], [], [], hgroups, by simp, hbegins, ?_⟩,
    parse_of_firstInfinite ⟨[], ["discrete".toList], [], [], hgroups, by simp, hfinite, hbegins, hinfinite⟩⟩
  rw [begins_iff]
  decide +kernel

end Stylesheet.Transition
