/-
Tokens as a tiling of their formula. Each token stands in the text where its position says, none reaches into the next,
a number ends where nothing could go on with it, and what no token has is blank. A text has at most one tiling from one
place to another, and scanning follows it (`scan_of_tiles`), up to the end or to a character that no tiling gets past
(`scanned`). So scanning gives the tiling of the whole formula, or the place that tilings do not get past
(`tokens_iff_tiles`).
-/
import Mathlib.Tactic
import Stylesheet.Proofs.Formula.Scanning

namespace Stylesheet.Formula

open Stylesheet.Text (Numeral)

/-! ## Tilings -/

namespace Token

/-- The position behind a token. -/
def stop (t : Token) : Nat := t.position + t.lexeme.text.length

/-- The token has the character at this position. -/
def Covers (t : Token) (i : Nat) : Prop := t.position ≤ i ∧ i < t.stop

end Token

/-- The characters that begin no token and are not blank. -/
def Stray (c : Char) : Prop := isSpace c = false ∧ Lexeme.ofChar? c = none ∧ c.isDigit = false

/-- A lexeme that can end in front of `next`: a number is ASCII digits, perhaps with a point and more of them, and goes
on as far as it can; any other lexeme is one character. -/
def Lexeme.EndsAt (next : Option Char) : Lexeme → Prop
  | number n => n.whole ≠ [] ∧ (∀ d ∈ n.whole ++ n.places, d.isDigit = true) ∧
      ∀ c ∈ next, c.isDigit = false ∧ (n.fraction = none → c ≠ '.')
  | lexeme => ∃ c, ofChar? c = some lexeme ∧ lexeme.text = [c]

/-- The tokens tile a text from one position up to another. -/
structure Tiles (s : List Char) (start stop : Nat) (ts : List Token) : Prop where
  apart : ts.Pairwise fun t u => t.stop ≤ u.position
  inside : ∀ t ∈ ts, start ≤ t.position ∧ t.stop ≤ stop
  slice : ∀ t ∈ ts, t.lexeme.text <+: s.drop t.position
  ends : ∀ t ∈ ts, t.lexeme.EndsAt s[t.stop]?
  blank : ∀ i, start ≤ i → i < stop → (∀ t ∈ ts, ¬ t.Covers i) → ∃ c, s[i]? = some c ∧ isSpace c = true

/-! ## First characters -/

section First

variable {c : Char} {lexeme : Lexeme} {next : Option Char} {s rest after : List Char}

/-- A number starts with a digit. -/
theorem Lexeme.EndsAt.exists_digit {n : Numeral} (h : (number n).EndsAt next) :
    ∃ d tail, n.text = d :: tail ∧ d.isDigit = true := by
  obtain ⟨hwhole, hdigits, -⟩ := h
  obtain ⟨d, whole, hd⟩ := List.exists_cons_of_ne_nil hwhole
  have hdigit : d.isDigit = true := hdigits d (by simp [hd])
  unfold Numeral.text
  rw [hd]
  cases n.fraction <;> exact ⟨d, _, rfl, hdigit⟩

theorem Lexeme.EndsAt.text_ne_nil (h : lexeme.EndsAt next) : lexeme.text ≠ [] := by
  cases lexeme with
  | number n =>
    obtain ⟨d, tail, htext, -⟩ := h.exists_digit
    show n.text ≠ []
    simp [htext]
  | plus | minus | star | slash | openBracket | closeBracket => simp [text]

/-- What a lexeme is, its first character tells: a sign or bracket is that character, and a number starts with a
digit. -/
theorem Lexeme.EndsAt.first (h : lexeme.EndsAt next) (hc : lexeme.text <+: c :: rest) :
    (ofChar? c = some lexeme ∧ lexeme.text = [c]) ∨ ∃ n, lexeme = .number n ∧ c.isDigit = true := by
  cases lexeme with
  | number n =>
    obtain ⟨d, tail, htext, hdigit⟩ := h.exists_digit
    change n.text <+: c :: rest at hc
    rw [htext, List.cons_prefix_cons] at hc
    exact .inr ⟨n, rfl, hc.1 ▸ hdigit⟩
  | plus | minus | star | slash | openBracket | closeBracket =>
    obtain ⟨d, hd, htext⟩ := h
    rw [htext, List.cons_prefix_cons] at hc
    obtain ⟨rfl, -⟩ := hc
    exact .inl ⟨hd, htext⟩

theorem Lexeme.endsAt_of_ofChar? (h : ofChar? c = some lexeme) (next : Option Char) :
    lexeme.EndsAt next ∧ lexeme.text = [c] := by
  unfold ofChar? at h
  split at h <;> cases h <;> exact ⟨⟨_, rfl, rfl⟩, rfl⟩

theorem not_isSpace_of_ofChar? (h : Lexeme.ofChar? c = some lexeme) : ¬ isSpace c = true := by
  unfold Lexeme.ofChar? at h
  split at h <;> first | decide | cases h

theorem not_isSpace_of_isDigit (h : c.isDigit = true) : ¬ isSpace c = true ∧ Lexeme.ofChar? c = none := by
  obtain ⟨hs, hop⟩ := ofChar?_of_isNameChar (c := c) (by rw [isNameChar, h, Bool.or_true])
  exact ⟨by rw [hs]; exact Bool.false_ne_true, hop⟩

/-- No lexeme starts with a blank or a stray character. -/
theorem Lexeme.EndsAt.not_startsWith (h : lexeme.EndsAt next) (hc : isSpace c = true ∨ Stray c) :
    ¬ lexeme.text <+: c :: rest := by
  intro hprefix
  rcases h.first hprefix with ⟨hop, -⟩ | ⟨n, -, hdigit⟩
  · rcases hc with hs | ⟨-, hnone, -⟩
    · exact not_isSpace_of_ofChar? hop hs
    · cases hop.symm.trans hnone
  · rcases hc with hs | ⟨-, -, hnot⟩
    · exact (not_isSpace_of_isDigit hdigit).1 hs
    · cases hdigit.symm.trans hnot

/-- A numeral that is split off ends as a number has to, at what follows it. -/
theorem endsAt_of_split? {n : Numeral} (h : Numeral.split? Char.isDigit s = some (n, after)) :
    (Lexeme.number n).EndsAt after.head? := by
  obtain ⟨hdigits, hhead⟩ := Numeral.digits_of_split? h
  exact ⟨Numeral.whole_ne_nil_of_split? h, hdigits, fun c hc =>
    ⟨hhead c hc, fun hfraction => ne_point_of_split? h hfraction c hc⟩⟩

end First

/-! ## Tilings from their first position -/

namespace Tiles

variable {s : List Char} {start stop : Nat} {c : Char} {rest : List Char} {t u : Token} {ts : List Token}

theorem nil (s : List Char) (p : Nat) : Tiles s p p [] where
  apart := .nil
  inside := by simp
  slice := by simp
  ends := by simp
  blank i hlow hhigh := by omega

theorem position_lt_stop (h : Tiles s start stop ts) (ht : t ∈ ts) : t.position < t.stop := by
  have := List.length_pos_iff.2 (h.ends t ht).text_ne_nil
  unfold Token.stop
  omega

theorem eq_nil (h : Tiles s stop stop ts) : ts = [] := by
  refine List.eq_nil_iff_forall_not_mem.2 fun t ht => ?_
  have := h.position_lt_stop ht
  have := h.inside t ht
  omega

/-- The positions rise, up to the end. -/
theorem increasing (h : Tiles s start stop ts) : (ts.map (·.position) ++ [stop]).Pairwise (· < ·) := by
  rw [List.pairwise_append]
  refine ⟨?_, List.pairwise_singleton .., ?_⟩
  · rw [List.pairwise_map]
    exact h.apart.imp_of_mem fun ht _ hle => (h.position_lt_stop ht).trans_le hle
  · simp only [List.mem_map, List.mem_singleton]
    rintro _ ⟨t, ht, rfl⟩ _ rfl
    exact (h.position_lt_stop ht).trans_le (h.inside t ht).2

/-- A text that a tiling begins with a blank goes on with is tiled behind the blank. -/
theorem skip_iff (hdrop : s.drop start = c :: rest) (hc : isSpace c = true) :
    Tiles s start stop ts ↔ Tiles s (start + 1) stop ts := by
  have hat : s[start]? = some c := by rw [← List.head?_drop, hdrop]; rfl
  constructor
  · intro h
    refine ⟨h.apart, fun t ht => ⟨?_, (h.inside t ht).2⟩, h.slice, h.ends, fun i hlow => h.blank i (by omega)⟩
    -- no token begins with the blank
    refine Nat.lt_of_le_of_ne (h.inside t ht).1 fun heq => ?_
    have hslice := h.slice t ht
    rw [← heq, hdrop] at hslice
    exact (h.ends t ht).not_startsWith (.inl hc) hslice
  · intro h
    refine ⟨h.apart, fun t ht => ⟨?_, (h.inside t ht).2⟩, h.slice, h.ends, fun i hlow hhigh hfree => ?_⟩
    · have := (h.inside t ht).1
      omega
    · rcases Nat.eq_or_lt_of_le hlow with rfl | hlow
      · exact ⟨c, hat, hc⟩
      · exact h.blank i hlow hhigh hfree

/-- A tiling that begins with a token goes on behind it. -/
theorem cons_iff (hslice : t.lexeme.text <+: s.drop t.position) (hends : t.lexeme.EndsAt s[t.stop]?)
    (hstop : t.stop ≤ stop) :
    Tiles s t.position stop (t :: ts) ↔ Tiles s t.stop stop ts := by
  have hpos : t.position < t.stop := by
    have := List.length_pos_iff.2 hends.text_ne_nil
    unfold Token.stop
    omega
  constructor
  · intro h
    obtain ⟨hfirst, hrest⟩ := List.pairwise_cons.1 h.apart
    refine ⟨hrest, fun u hu => ⟨hfirst u hu, (h.inside u (List.mem_cons_of_mem _ hu)).2⟩,
      fun u hu => h.slice u (List.mem_cons_of_mem _ hu), fun u hu => h.ends u (List.mem_cons_of_mem _ hu),
      fun i hlow hhigh hfree => h.blank i (by omega) hhigh (List.forall_mem_cons.2 ⟨?_, hfree⟩)⟩
    rintro ⟨-, hi⟩
    omega
  · intro h
    refine ⟨List.pairwise_cons.2 ⟨fun u hu => (h.inside u hu).1, h.apart⟩,
      List.forall_mem_cons.2 ⟨⟨le_rfl, hstop⟩, fun u hu => ⟨?_, (h.inside u hu).2⟩⟩,
      List.forall_mem_cons.2 ⟨hslice, h.slice⟩, List.forall_mem_cons.2 ⟨hends, h.ends⟩, fun i hlow hhigh hfree => ?_⟩
    · have := (h.inside u hu).1
      omega
    · obtain ⟨ht, hfree⟩ := List.forall_mem_cons.1 hfree
      refine h.blank i (not_lt.1 fun hi => ht ⟨hlow, hi⟩) hhigh hfree

/-- A tiling of a text that is not blank at first begins with a token. -/
theorem exists_first (h : Tiles s start stop ts) (hlt : start < stop)
    (hc : ∀ c, s[start]? = some c → ¬ isSpace c = true) :
    ∃ t us, ts = t :: us ∧ t.position = start := by
  have hcovered : ∃ t ∈ ts, t.Covers start := by
    by_contra hnone
    push Not at hnone
    obtain ⟨c, hat, hspace⟩ := h.blank start le_rfl hlt hnone
    exact hc c hat hspace
  obtain ⟨t, ht, hcovers⟩ := hcovered
  cases ts with
  | nil => cases ht
  | cons u us =>
    refine ⟨u, us, rfl, ?_⟩
    have hfirst := (h.inside u (List.mem_cons_self ..)).1
    rcases List.mem_cons.1 ht with rfl | ht
    · have := hcovers.1
      omega
    · -- a later token would leave no room for the first
      have := (List.pairwise_cons.1 h.apart).1 t ht
      have := h.position_lt_stop (List.mem_cons_self ..)
      have := hcovers.1
      omega

end Tiles

/-! ## Scanning along a tiling -/

theorem lt_length_of_drop {s rest : List Char} {p : Nat} {c : Char} (h : s.drop p = c :: rest) : p < s.length := by
  have := congrArg List.length h
  rw [List.length_drop, List.length_cons] at this
  omega

theorem drop_stop {s after : List Char} {t : Token} (h : s.drop t.position = t.lexeme.text ++ after) :
    s.drop t.stop = after ∧ s[t.stop]? = after.head? := by
  have hdrop : s.drop t.stop = after := by
    rw [Token.stop, ← List.drop_drop, h, List.drop_left]
  rw [← hdrop, List.head?_drop]
  exact ⟨rfl, rfl⟩

/-- A token at the front is scanned. -/
theorem scan_token {s : List Char} {t : Token} (hslice : t.lexeme.text <+: s.drop t.position)
    (hends : t.lexeme.EndsAt s[t.stop]?) :
    scan t.position (s.drop t.position) = (scan t.stop (s.drop t.stop)).map (t :: ·) := by
  obtain ⟨after, hafter⟩ := hslice
  obtain ⟨hdrop, hhead⟩ := drop_stop hafter.symm
  rw [hhead] at hends
  rw [← hafter, hdrop]
  obtain ⟨lexeme, position⟩ := t
  cases lexeme with
  | number n =>
    obtain ⟨hwhole, hdigits, hnext⟩ := hends
    exact scan_of_split? (Numeral.split?_text_append_of_head (by decide) hdigits hwhole (fun c hc => (hnext c hc).1)
      fun hfraction c hc => (hnext c hc).2 hfraction) position
  | plus | minus | star | slash | openBracket | closeBracket =>
    obtain ⟨c, hc, htext⟩ := hends
    show scan position (Lexeme.text _ ++ after) = (scan (position + (Lexeme.text _).length) after).map _
    rw [htext]
    exact scan_lexeme (not_isSpace_of_ofChar? hc) hc

/-- Scanning follows a tiling as far as it goes. -/
theorem scan_of_tiles {s : List Char} {start stop : Nat} {ts : List Token} (h : Tiles s start stop ts)
    (hle : start ≤ stop) :
    scan start (s.drop start) = (scan stop (s.drop stop)).map (ts ++ ·) := by
  induction hn : stop - start using Nat.strong_induction_on generalizing start ts with
  | _ n ih =>
    rcases Nat.eq_or_lt_of_le hle with rfl | hlt
    · rw [h.eq_nil]
      cases scan start (s.drop start) <;> rfl
    by_cases hspace : ∃ c rest, s.drop start = c :: rest ∧ isSpace c = true
    · obtain ⟨c, rest, hdrop, hc⟩ := hspace
      have hrest : s.drop (start + 1) = rest := by rw [← List.drop_drop, hdrop]; rfl
      rw [hdrop, scan_space hc, ← hrest]
      exact ih (stop - (start + 1)) (by omega) ((Tiles.skip_iff hdrop hc).1 h) hlt rfl
    · have hfirst : ∀ c, s[start]? = some c → ¬ isSpace c = true := by
        intro c hat hc
        obtain ⟨hin, hget⟩ := List.getElem?_eq_some_iff.1 hat
        exact hspace ⟨c, _, by rw [List.drop_eq_getElem_cons hin, hget], hc⟩
      obtain ⟨t, us, rfl, rfl⟩ := h.exists_first hlt hfirst
      have hslice := h.slice t (List.mem_cons_self ..)
      have hends := h.ends t (List.mem_cons_self ..)
      have hstop := (h.inside t (List.mem_cons_self ..)).2
      have hpos := h.position_lt_stop (List.mem_cons_self ..)
      rw [scan_token hslice hends, ih (stop - t.stop) (by omega) ((Tiles.cons_iff hslice hends hstop).1 h) hstop rfl]
      cases scan stop (s.drop stop) <;> rfl

/-- What scanning from a position comes to: a tiling up to the end of the text, or up to a stray character. -/
inductive Scanned (s : List Char) (start : Nat) : Except (Char × Nat) (List Token) → Prop
  | complete {ts : List Token} (h : Tiles s start s.length ts) : Scanned s start (.ok ts)
  | stuck {ts : List Token} {stop : Nat} {c : Char} (hle : start ≤ stop) (h : Tiles s start stop ts)
    (hat : s[stop]? = some c)
    (hc : Stray c) : Scanned s start (.error (c, stop))

namespace Scanned

variable {s : List Char} {result : Except (Char × Nat) (List Token)}

theorem skip {start : Nat} {c : Char} {rest : List Char} (hdrop : s.drop start = c :: rest) (hc : isSpace c = true)
    (h : Scanned s (start + 1) result) : Scanned s start result := by
  cases h with
  | complete h => exact .complete ((Tiles.skip_iff hdrop hc).2 h)
  | stuck hle h hat hstray => exact .stuck (by omega) ((Tiles.skip_iff hdrop hc).2 h) hat hstray

theorem cons {t : Token} (hslice : t.lexeme.text <+: s.drop t.position) (hends : t.lexeme.EndsAt s[t.stop]?)
    (hstop : t.stop ≤ s.length) (h : Scanned s t.stop result) : Scanned s t.position (result.map (t :: ·)) := by
  have hpos : t.position ≤ t.stop := Nat.le_add_right ..
  cases h with
  | complete h => exact .complete ((Tiles.cons_iff hslice hends hstop).2 h)
  | stuck hle h hat hstray => exact .stuck (hpos.trans hle) ((Tiles.cons_iff hslice hends hle).2 h) hat hstray

end Scanned

theorem scanned (s : List Char) {start : Nat} (hle : start ≤ s.length) :
    Scanned s start (scan start (s.drop start)) := by
  generalize hl : s.drop start = l
  fun_induction scan start l with
  | case1 position =>
    have hend : position = s.length := le_antisymm hle (List.drop_eq_nil_iff.1 hl)
    exact .complete (hend ▸ .nil s position)
  | case2 position c rest hc ih =>
    have hrest : s.drop (position + 1) = rest := by rw [← List.drop_drop, hl]; rfl
    exact .skip hl hc (ih (lt_length_of_drop hl) hrest)
  | case3 position c rest hs lexeme hc ih =>
    obtain ⟨hends, htext⟩ := Lexeme.endsAt_of_ofChar? hc s[position + 1]?
    have hslice : s.drop position = lexeme.text ++ rest := by rw [hl, htext]; rfl
    have hstop : (Token.mk lexeme position).stop = position + 1 := by rw [Token.stop, htext]; rfl
    obtain ⟨hdrop, -⟩ := drop_stop (t := ⟨lexeme, position⟩) hslice
    rw [hstop] at hdrop
    refine .cons (t := ⟨lexeme, position⟩) ⟨rest, hslice.symm⟩ (hstop ▸ hends) (hstop ▸ lt_length_of_drop hl) ?_
    rw [hstop]
    exact ih (lt_length_of_drop hl) hdrop
  | case4 position c rest hs hc n after hsplit _ ih =>
    have hslice : s.drop position = n.text ++ after := by rw [hl, Numeral.text_append_of_split? hsplit]
    obtain ⟨hdrop, hhead⟩ := drop_stop (t := ⟨.number n, position⟩) hslice
    have hstop : position + n.text.length ≤ s.length := by
      have := congrArg List.length hslice
      rw [List.length_drop, List.length_append] at this
      omega
    exact .cons (t := ⟨.number n, position⟩) ⟨after, hslice.symm⟩ (hhead ▸ endsAt_of_split? hsplit)
      hstop (ih hstop hdrop)
  | case5 position c rest hs hc hsplit =>
    refine .stuck le_rfl (.nil s position) (by rw [← List.head?_drop, hl]; rfl) ⟨by simpa using hs, hc, ?_⟩
    exact isDigit_of_split?_eq_none hsplit

/-- A tiling up to the end is what scanning gives. -/
theorem scan_eq_ok_iff {s : List Char} {ts : List Token} : scan 0 s = .ok ts ↔ Tiles s 0 s.length ts := by
  have hscanned : Scanned s 0 (scan 0 s) := scanned s (Nat.zero_le _)
  constructor
  · intro h
    rw [h] at hscanned
    cases hscanned with
    | complete htiles => exact htiles
  · intro h
    have hscan : scan 0 s = (scan s.length (s.drop s.length)).map (ts ++ ·) := scan_of_tiles h (Nat.zero_le _)
    rw [hscan, List.drop_length, scan, Except.map, List.append_nil]

/-- Scanning fails where a tiling reaches a stray character. -/
theorem scan_eq_error_iff {s : List Char} {c : Char} {stop : Nat} :
    scan 0 s = .error (c, stop) ↔ (∃ ts, Tiles s 0 stop ts) ∧ s[stop]? = some c ∧ Stray c := by
  have hscanned : Scanned s 0 (scan 0 s) := scanned s (Nat.zero_le _)
  constructor
  · intro h
    rw [h] at hscanned
    cases hscanned with
    | stuck hle htiles hat hc => exact ⟨⟨_, htiles⟩, hat, hc⟩
  · rintro ⟨⟨ts, h⟩, hat, hspace, hop, hdigit⟩
    obtain ⟨hin, hget⟩ := List.getElem?_eq_some_iff.1 hat
    have hscan : scan 0 s = (scan stop (s.drop stop)).map (ts ++ ·) := scan_of_tiles h (Nat.zero_le _)
    rw [hscan, List.drop_eq_getElem_cons hin, hget, scan_of_not_isDigit (by simp [hspace]) hop hdigit]
    rfl

/-- A formula that is not too long has the tokens that tile it, in rising positions up to its end; and it has none
exactly if a tiling reaches a character that begins no token and is not blank, which is the one that is reported. -/
theorem tokens_iff_tiles {limits : Limits} {formula : String}
    (hlength : limits.checkLength formula.toList.length = .ok ()) :
    (∀ ts, tokens limits formula = .ok ts ↔ Tiles formula.toList 0 formula.toList.length ts) ∧
    (∀ e, tokens limits formula = .error e ↔ ∃ ts stop c, Tiles formula.toList 0 stop ts ∧
      formula.toList[stop]? = some c ∧ Stray c ∧ e = .strayCharacter c stop formula) ∧
    ∀ ts, tokens limits formula = .ok ts →
      (ts.map (·.position) ++ [formula.toList.length]).Pairwise (· < ·) := by
  have hok (ts : List Token) : tokens limits formula = .ok ts ↔ Tiles formula.toList 0 formula.toList.length ts := by
    rw [tokens_eq_ok_iff, scan_eq_ok_iff]
    exact and_iff_right hlength
  refine ⟨hok, fun e => ?_, fun ts hts => ((hok ts).1 hts).increasing⟩
  have herror : tokens limits formula = .error e ↔
      ∃ c stop, scan 0 formula.toList = .error (c, stop) ∧ e = .strayCharacter c stop formula := by
    unfold tokens
    rw [hlength]
    cases scan 0 formula.toList with
    | ok ts => simp [bind, Except.bind]
    | error stray => simp [bind, Except.bind, Prod.ext_iff, eq_comm]
  rw [herror]
  constructor
  · rintro ⟨c, stop, hscan, rfl⟩
    obtain ⟨⟨ts, htiles⟩, hat, hc⟩ := scan_eq_error_iff.1 hscan
    exact ⟨ts, stop, c, htiles, hat, hc, rfl⟩
  · rintro ⟨ts, stop, c, htiles, hat, hc, rfl⟩
    exact ⟨c, stop, scan_eq_error_iff.2 ⟨⟨ts, htiles⟩, hat, hc⟩, rfl⟩

/-- A number may end with its point, and a second point goes on with no number: the formula breaks off in front of
it. -/
theorem tokens_iff_tiles_points :
    Tiles " 7.*(2".toList 0 6
      [⟨.number ⟨['7'], some []⟩, 1⟩, ⟨.star, 3⟩, ⟨.openBracket, 4⟩, ⟨.number ⟨['2'], none⟩, 5⟩] ∧
    ∃ ts, Tiles "1.5.2".toList 0 3 ts := by
  constructor
  · obtain ⟨hok, -⟩ := @tokens_iff_tiles { length := some 6 } " 7.*(2" (by decide)
    exact (hok _).1 (by decide +kernel)
  · obtain ⟨-, herror, -⟩ := @tokens_iff_tiles {} "1.5.2" (by decide)
    have hstray : tokens {} "1.5.2" = .error (.strayCharacter '.' 3 "1.5.2") := by decide +kernel
    obtain ⟨ts, stop, c, htiles, -, -, he⟩ := (herror _).1 hstray
    cases he
    exact ⟨ts, htiles⟩

/-! ## The end token -/

/-- A scan from a position finds the tokens of the rest, and ends behind the last character. -/
theorem scanFrom_eq {s : List Char} {position : Nat} (h : position ≤ s.length) (found : List Token) :
    scanFrom s position found = (scan position (s.drop position)).map fun more => ⟨found ++ more, s.length⟩ := by
  have drop_add {position : Nat} (front : List Char) {after : List Char} (hs : s.drop position = front ++ after) :
      s.drop (position + front.length) = after := by
    rw [← List.drop_drop, hs, List.drop_left]
  fun_induction scanFrom s position found with
  | case1 position found hs =>
    rw [hs, scan, Nat.le_antisymm h (List.drop_eq_nil_iff.1 hs)]
    simp [Except.map]
  | case2 position found c rest hs hlt hspace ih =>
    have hrest : s.drop (position + 1) = rest := drop_add [c] hs
    rw [ih hlt, hrest, hs, scan_space hspace]
  | case3 position found c rest hs hlt hspace lexeme hlexeme ih =>
    have hrest : s.drop (position + 1) = rest := drop_add [c] hs
    rw [ih hlt, hrest, hs, scan_lexeme hspace hlexeme]
    cases scan (position + 1) rest <;> simp [Except.map]
  | case4 position found c rest hs hlt hspace hlexeme numeral after hsplit hpos ih =>
    have hs' : s.drop position = numeral.text ++ after := hs.trans (Numeral.text_append_of_split? hsplit).symm
    have hle : position + numeral.text.length ≤ s.length := by
      have := congrArg List.length hs'
      rw [List.length_drop, List.length_append] at this
      omega
    rw [ih hle, drop_add _ hs', hs, scan_of_split? hsplit]
    cases scan (position + numeral.text.length) after <;> simp [Except.map]
  | case5 position found c rest hs hlt hspace hlexeme hsplit =>
    rw [hs, scan_of_not_isDigit hspace hlexeme (isDigit_of_split?_eq_none hsplit)]
    rfl

/-- The end token of a formula stands behind its last character, whatever its tokens are. -/
theorem tokenize_eq (limits : Limits) (formula : String) :
    tokenize limits formula = (tokens limits formula).map fun tokens => ⟨tokens, formula.toList.length⟩ := by
  unfold tokenize tokens
  rw [scanFrom_eq (Nat.zero_le _), List.drop_zero]
  cases limits.checkLength formula.toList.length with
  | error e => rfl
  | ok _ => cases scan 0 formula.toList <;> rfl

end Stylesheet.Formula
