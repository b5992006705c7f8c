/-
Reading a transition word by word. A text is a stream of words and commas, and reading it keeps the records before the
last comma, the record under way and the slot of its last word (`parse_eq_run`). A comma leaves nothing of the record
and the slot, whatever stands before it; and what follows neither sees the records before it nor changes them. So texts
that are joined by a comma are read one after the other (`parse_append_comma`).
-/
import Stylesheet.Proofs.Transition.Totality

namespace Stylesheet.Transition

open Text

/-! ## Words and commas -/

inductive Token
  | comma
  | word (text : List Char)
deriving DecidableEq, Repr

/-- The word that is under way, its last character first, if it has any. -/
def wordUnderWay (word : List Char) : List Token := if word.isEmpty then [] else [.word word.reverse]

/-- The tokens of a text in front of which `word` is under way. -/
def tokensFrom (word : List Char) : List Char → List Token
  | [] => wordUnderWay word
  | c :: rest =>
    if c = ',' then wordUnderWay word ++ .comma :: tokensFrom [] rest
    else if isBlank c then wordUnderWay word ++ tokensFrom [] rest
    else tokensFrom (c :: word) rest

/-- The words and commas of a text, in order. -/
def tokens (s : List Char) : List Token := tokensFrom [] s

theorem tokensFrom_append_comma (word front back : List Char) :
    tokensFrom word (front ++ ',' :: back) = tokensFrom word front ++ .comma :: tokens back := by
  induction front generalizing word with
  | nil => rfl
  | cons c front ih =>
    rw [List.cons_append, tokensFrom, tokensFrom]
    split_ifs
    · rw [ih, List.append_assoc, List.cons_append]
    · rw [ih, List.append_assoc]
    · exact ih _

/-- A comma ends the word in front of it, and none is under way behind it. -/
theorem tokens_append_comma (front back : List Char) :
    tokens (front ++ ',' :: back) = tokens front ++ .comma :: tokens back :=
  tokensFrom_append_comma [] front back

/-- The tokens of the groups between commas: their words, and a comma in front of each group but the first. -/
theorem tokensFrom_eq (word s : List Char) : ∃ group rest, splitCommas s = group :: rest ∧
    tokensFrom word s = (wordsFrom word group).map .word ++ rest.flatMap fun g => .comma :: (words g).map .word := by
  have hunderWay (word : List Char) : (wordsFrom word []).map Token.word = wordUnderWay word := by
    rw [wordsFrom, wordUnderWay]
    split <;> rfl
  induction s generalizing word with
  | nil => exact ⟨[], [], rfl, by rw [hunderWay, List.flatMap_nil, List.append_nil]; rfl⟩
  | cons c s ih =>
    rw [splitCommas, tokensFrom]
    split_ifs with hcomma hblank
    · obtain ⟨group, rest, hsplit, htokens⟩ := ih []
      exact ⟨[], group :: rest, by rw [hsplit], by rw [htokens, hunderWay]; rfl⟩
    · obtain ⟨group, rest, hsplit, htokens⟩ := ih []
      refine ⟨c :: group, rest, by rw [hsplit], ?_⟩
      rw [htokens, wordsFrom, if_pos hblank, wordUnderWay]
      split <;> rfl
    · obtain ⟨group, rest, hsplit, htokens⟩ := ih (c :: word)
      refine ⟨c :: group, rest, by rw [hsplit], ?_⟩
      rw [htokens, wordsFrom, if_neg hblank]

/-! ## Reading a stream -/

/-- The records before the last comma, the record under way, and the slot of its last word. -/
structure Reading where
  records : List Record := []
  current : Record := {}
  slot : Slot := .start
deriving DecidableEq, Repr

namespace Reading

/-- A record is added to those before it, unless nothing is set in it. -/
def keep (records : List Record) (r : Record) : List Record := if r = {} then records else records ++ [r]

/-- All records, with the one under way. -/
def close (s : Reading) : List Record := keep s.records s.current

def step (source : String) (s : Reading) : Token → Except Error Reading
  | .comma => .ok { records := s.close }
  | .word text => (s.current.placeText source s.slot text).map fun p => { s with current := p.2, slot := p.1 }

def run (source : String) (s : Reading) (stream : List Token) : Except Error (List Record) :=
  (stream.foldlM (step source) s).map close

variable {source : String} {s : Reading}

theorem run_cons (token : Token) (stream : List Token) :
    s.run source (token :: stream) = (s.step source token).bind fun s' => s'.run source stream := by
  rw [run, List.foldlM_cons]
  cases s.step source token <;> rfl

/-- A comma leaves the records only, whatever the reading has come to before it. -/
theorem run_append_comma (front back : List Token) :
    s.run source (front ++ .comma :: back) =
      (s.run source front).bind fun records => ({ records } : Reading).run source back := by
  rw [run, run, List.foldlM_append]
  cases front.foldlM (step source) s with
  | error e => rfl
  | ok s' => exact run_cons .comma back

/-! ## The records before a comma -/

/-- The reading behind further records. -/
def behind (records : List Record) (s : Reading) : Reading := { s with records := records ++ s.records }

theorem close_behind (records : List Record) : (s.behind records).close = records ++ s.close := by
  unfold close keep behind
  split_ifs
  · rfl
  · rw [List.append_assoc]

/-- A step neither sees the records before the reading nor changes them. -/
theorem step_behind (records : List Record) (s : Reading) (token : Token) :
    (s.step source token).map (behind records) = (s.behind records).step source token := by
  cases token with
  | comma => rw [step, step, close_behind]; rfl
  | word text =>
    rw [step, step]
    show ((s.current.placeText source s.slot text).map _).map _ = (s.current.placeText source s.slot text).map _
    cases s.current.placeText source s.slot text <;> rfl

theorem run_behind (records : List Record) (stream : List Token) :
    (s.behind records).run source stream = (s.run source stream).map (records ++ ·) := by
  rw [run, run, ← map_foldlM (step_behind records)]
  cases stream.foldlM (step source) s with
  | error e => rfl
  | ok s' => exact congrArg Except.ok (close_behind records)

end Reading

/-! ## The text in an error -/

/-- The error in another text. -/
def Error.withSource (source : String) : Error → Error
  | misplaced word expected _ => misplaced word expected source
  | infiniteTime => infiniteTime

theorem Record.placeText_withSource (source other : String) (r : Record) (slot : Slot) (text : List Char) :
    (r.placeText source slot text).mapError (·.withSource other) = r.placeText other slot text := by
  unfold placeText
  cases hread : Word.read text with
  | error e => rw [eq_infiniteTime_of_read hread]; rfl
  | ok w =>
    dsimp only
    cases r.place slot w <;> rfl

theorem Reading.step_withSource (source other : String) (s : Reading) (token : Token) :
    (s.step source token).mapError (·.withSource other) = s.step other token := by
  cases token with
  | comma => rfl
  | word text =>
    rw [step, step, ← Record.placeText_withSource source other]
    cases s.current.placeText source s.slot text <;> rfl

/-- The text is read for its errors only. -/
theorem Reading.run_withSource (source other : String) (s : Reading) (stream : List Token) :
    (s.run source stream).mapError (·.withSource other) = s.run other stream := by
  rw [run, run, ← foldlM_mapError (step_withSource source other)]
  cases stream.foldlM (step source) s <;> rfl

/-! ## Groups of words -/

namespace Reading

theorem run_words (records : List Record) (r : Record) (slot : Slot) (texts : List (List Char)) :
    run source ⟨records, r, slot⟩ (texts.map .word) = (r.fill source slot texts).map (keep records) := by
  induction texts generalizing r slot with
  | nil => rfl
  | cons text texts ih =>
    rw [List.map_cons, run_cons, Record.fill_cons_eq, step]
    cases r.placeText source slot text with
    | error e => rfl
    | ok p => exact ih p.2 p.1

end Reading

/-- The record of a group is kept, for there is something in it if there are words. -/
theorem map_keep_fill (source : String) (records : List Record) (group : List (List Char)) :
    (Record.fill source {} .start group).map (Reading.keep records) =
      (readGroup source group).map fun r? => records ++ r?.toList := by
  rw [readGroup]
  split
  · rename_i hnil
    rw [List.isEmpty_iff.1 hnil]
    show Except.ok (Reading.keep records {}) = Except.ok (records ++ [])
    rw [Reading.keep, if_pos rfl, List.append_nil]
  · rename_i hne
    cases hfill : Record.fill source {} .start group with
    | error e => rfl
    | ok r =>
      obtain ⟨-, words, hread, happend⟩ := Record.endsAt_start.fill hfill
      have hr : r ≠ {} := by
        rintro rfl
        obtain rfl : [] = words := happend
        have hlength := length_of_mapM_ok hread
        exact hne (List.isEmpty_iff.2 (List.length_eq_zero_iff.1 hlength.symm))
      show Except.ok (Reading.keep records r) = Except.ok (records ++ [r])
      rw [Reading.keep, if_neg hr]

theorem run_groups (source : String) (records : List Record) (group : List (List Char))
    (rest : List (List (List Char))) :
    Reading.run source { records } (group.map .word ++ rest.flatMap fun g => .comma :: g.map .word) =
      ((group :: rest).mapM (readGroup source)).map fun rs => records ++ rs.filterMap id := by
  induction rest generalizing records group with
  | nil =>
    rw [List.flatMap_nil, List.append_nil, Reading.run_words, map_keep_fill, List.mapM_cons]
    cases readGroup source group with
    | error e => rfl
    | ok r? => cases r? <;> rfl
  | cons next rest ih =>
    rw [List.flatMap_cons, List.cons_append, Reading.run_append_comma, Reading.run_words, map_keep_fill, List.mapM_cons]
    cases readGroup source group with
    | error e => rfl
    | ok r? =>
      show Reading.run source { records := records ++ r?.toList } _ = _
      rw [ih]
      show _ = (((next :: rest).mapM (readGroup source)).bind _).map _
      cases (next :: rest).mapM (readGroup source) with
      | error e => rfl
      | ok rs =>
        show Except.ok (records ++ r?.toList ++ rs.filterMap id) = Except.ok (records ++ (r? :: rs).filterMap id)
        rw [List.append_assoc]
        cases r? <;> rfl

/-- A transition is read word by word. -/
theorem parse_eq_run (source : String) : parse source = Reading.run source {} (tokens source.toList) := by
  obtain ⟨group, rest, hsplit, htokens⟩ := tokensFrom_eq [] source.toList
  have hgroups : groups source = words group :: rest.map words := by rw [groups, hsplit, List.map_cons]
  have hrun := run_groups source [] (words group) (rest.map words)
  rw [List.flatMap_map] at hrun
  rw [parse_eq_map, hgroups, tokens, htokens]
  exact hrun.symm

/-! ## Commas -/

/-- Of texts joined by a comma the first one is read first, and its error counts before those of the second. -/
theorem parse_comma (front back : String) : parse (front ++ "," ++ back) =
    ((parse front).bind fun first => (parse back).map (first ++ ·)).mapError (·.withSource (front ++ "," ++ back)) := by
  have htokens : tokens (front ++ "," ++ back).toList = tokens front.toList ++ .comma :: tokens back.toList := by
    rw [String.toList_append, String.toList_append, List.append_assoc]
    exact tokens_append_comma ..
  generalize front ++ "," ++ back = joined at htokens ⊢
  have hback (first : List Record) : Reading.run joined { records := first } (tokens back.toList) =
      ((parse back).map (first ++ ·)).mapError (·.withSource joined) := by
    have hstart : ({ records := first } : Reading) = Reading.behind first {} := by rw [Reading.behind, List.append_nil]
    rw [hstart, Reading.run_behind, ← Reading.run_withSource back joined, ← parse_eq_run]
    cases parse back <;> rfl
  rw [parse_eq_run joined, htokens, Reading.run_append_comma, funext hback, ← Reading.run_withSource front joined,
    ← parse_eq_run]
  cases parse front <;> rfl

/-- Texts that are joined by a comma have the records of the first one and then those of the second, whichever of them
have empty records or none. If the first is refused, the joined text is for the same reason, and else for that of the
second; only the text in the error is the joined one. And records that are put together are written with a comma between
their texts. -/
theorem parse_append_comma :
    (∀ front back : String,
      (∀ first second, parse front = .ok first → parse back = .ok second →
        parse (front ++ "," ++ back) = .ok (first ++ second)) ∧
      (∀ e, parse front = .error e → parse (front ++ "," ++ back) = .error (e.withSource (front ++ "," ++ back))) ∧
      ∀ first e, parse front = .ok first → parse back = .error e →
        parse (front ++ "," ++ back) = .error (e.withSource (front ++ "," ++ back))) ∧
    ∀ first second : List Record, first ≠ [] → second ≠ [] →
    text (first ++ second) = text first ++ "," ++ text second := by
  refine ⟨fun front back => ⟨?_, ?_, ?_⟩, ?_⟩
  · intro first second hfront hback
    rw [parse_comma, hfront, hback]
    rfl
  · intro e hfront
    rw [parse_comma, hfront]
    rfl
  · intro first e hfront hback
    rw [parse_comma, hfront, hback]
    rfl
  · intro first second hfirst hsecond
    rw [text, List.map_append]
    exact String.intercalate_append_of_ne_nil (by simpa using hfirst) (by simpa using hsecond)

/-- Empty records at the comma are left out, and a fault is found behind them as well as in front of them. -/
theorem parse_append_comma_empty :
    parse (" opacity 1s, ," ++ "," ++ ",width ease 2s") =
      .ok [{ property := some "opacity", time1 := some 1000 },
        { property := some "width", easing := some .ease, time2 := some 2000 }] ∧
    parse ("1s ease," ++ "," ++ "ease 1s 2s") =
      .error (.misplaced "2s" ["behavior"] "1s ease,,ease 1s 2s") ∧
    parse ("ease 1s 2s" ++ "," ++ "1s ease,") = .error (.misplaced "2s" ["behavior"] "ease 1s 2s,1s ease,") ∧
    text ([{ property := some "opacity" }] ++ [{ time1 := some 50 }]) = "opacity,50ms" := by
  obtain ⟨hparse, htext⟩ := parse_append_comma
  refine ⟨?_, ?_, ?_, ?_⟩
  · exact (hparse _ _).1 [{ property := some "opacity", time1 := some 1000 }]
      [{ property := some "width", easing := some .ease, time2 := some 2000 }] (by decide +kernel) (by decide +kernel)
  · exact (hparse _ _).2.2 [{ time1 := some 1000, easing := some .ease }] (.misplaced "2s" ["behavior"] "ease 1s 2s")
      (by decide +kernel) (by decide +kernel)
  · exact (hparse _ _).2.1 (.misplaced "2s" ["behavior"] "ease 1s 2s") (by decide +kernel)
  · exact htext [{ property := some "opacity" }] [{ time1 := some 50 }] (by decide) (by decide)

end Stylesheet.Transition
