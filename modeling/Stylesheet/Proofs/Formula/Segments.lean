/-
Gaps and names in turn. A text is cut in one way only so that no name starts in a gap, and each name goes on
for as long as it can (`existsUnique_cuts`). The pieces of the text are the pieces of that cut. So the names of a
formula are the names between the gaps, and substitution writes other texts in their places and leaves the gaps
as they are.
-/
import Mathlib.Tactic
import Stylesheet.Proofs.Formula.Scanning

namespace Stylesheet.Formula

/-! ## Cuts -/

/-- A gap, and then names, each with the gap behind it. -/
structure Segments where
  front : List Char
  rest : List (List Char × List Char)
deriving DecidableEq, Repr

namespace Segments

/-- Names and the gaps behind them in one text, with something written in the places of the names. -/
def writtenTail (write : List Char → List Char) (rest : List (List Char × List Char)) : List Char :=
  rest.flatMap fun part => write part.1 ++ part.2

/-- The gaps as they are, with something written in the places of the names. -/
def written (write : List Char → List Char) (d : Segments) : List Char := d.front ++ writtenTail write d.rest

def names (d : Segments) : List String := d.rest.map fun part => String.ofList part.1

def gaps (d : Segments) : List (List Char) := d.front :: d.rest.map Prod.snd

/-- The segments make up the text. No gap has a character that a name could start with, and behind a name stands
none that could go on with it. -/
structure Cuts (d : Segments) (s : List Char) : Prop where
  text : d.written id = s
  gaps : ∀ gap ∈ d.gaps, ∀ c ∈ gap, isNameStart c = false
  names : ∀ part ∈ d.rest, isName part.1 = true
  longest : ∀ name gap after, (name, gap) :: after <:+ d.rest →
    ∀ c ∈ (gap ++ writtenTail id after).head?, isNameChar c = false

/-! ## Pieces of segments -/

/-- The segments that some pieces make up. -/
def ofPieces : List Piece → Segments
  | [] => ⟨[], []⟩
  | .gap c :: ps => ⟨c :: (ofPieces ps).front, (ofPieces ps).rest⟩
  | .name text :: ps => ⟨[], (text, (ofPieces ps).front) :: (ofPieces ps).rest⟩

def pieces (d : Segments) : List Piece :=
  d.front.map .gap ++ d.rest.flatMap fun part => .name part.1 :: part.2.map .gap

theorem ofPieces_append_gaps (gaps : List Char) (ps : List Piece) :
    ofPieces (gaps.map .gap ++ ps) = ⟨gaps ++ (ofPieces ps).front, (ofPieces ps).rest⟩ := by
  induction gaps with
  | nil => rfl
  | cons c gaps ih => rw [List.map_cons, List.cons_append, ofPieces, ih, List.cons_append]

theorem ofPieces_pieces (d : Segments) : ofPieces d.pieces = d := by
  obtain ⟨front, rest⟩ := d
  rw [pieces, ofPieces_append_gaps]
  induction rest generalizing front with
  | nil => simp [ofPieces]
  | cons part rest ih =>
    have htail := ih part.2
    rw [mk.injEq] at htail
    rw [List.flatMap_cons, List.cons_append, ofPieces, ofPieces_append_gaps, htail.1, htail.2, List.append_nil]

theorem pieces_injective : Function.Injective pieces := Function.LeftInverse.injective ofPieces_pieces

/-- What is written for the pieces one by one is written for the segments. -/
theorem flatMap_pieces (d : Segments) {write : Piece → List Char} (hgap : ∀ c, write (.gap c) = [c]) :
    d.pieces.flatMap write = d.written fun name => write (.name name) := by
  have hgaps (gaps : List Char) : (gaps.map Piece.gap).flatMap write = gaps := by
    simp [List.flatMap_map, hgap]
  rw [pieces, written, writtenTail, List.flatMap_append, hgaps, List.flatMap_assoc]
  refine congrArg _ (List.flatMap_congr fun part _ => ?_)
  rw [List.flatMap_cons, hgaps]

theorem filterMap_name?_pieces (d : Segments) : d.pieces.filterMap Piece.name? = d.names := by
  have hgaps (gaps : List Char) : (gaps.map Piece.gap).filterMap Piece.name? = [] := by
    simp [List.filterMap_map, Piece.name?, Function.comp_def]
  rw [pieces, names, List.filterMap_append, hgaps, List.nil_append, List.filterMap_flatMap, ← List.flatMap_pure_eq_map]
  refine List.flatMap_congr fun part _ => ?_
  show String.ofList part.1 :: (part.2.map Piece.gap).filterMap Piece.name? = [String.ofList part.1]
  rw [hgaps]

/-! ## A text has one cut at most -/

/-- A name behind which nothing could go on with it is a piece of its own. -/
theorem pieces_name_append {name s : List Char} (hname : isName name = true)
    (hs : ∀ c ∈ s.head?, isNameChar c = false) :
    Formula.pieces (name ++ s) = .name name :: Formula.pieces s := by
  cases name with
  | nil => cases hname
  | cons c rest =>
    rw [isName, Bool.and_eq_true, List.all_eq_true] at hname
    obtain ⟨htake, hdrop⟩ := Text.takeWhile_dropWhile_append hname.2 hs
    rw [List.cons_append, pieces_name hname.1, htake, hdrop]

namespace Cuts

variable {d e : Segments} {s front name gap : List Char} {rest : List (List Char × List Char)} {c : Char}

theorem not_isNameStart_front (h : d.Cuts s) : ∀ c ∈ d.front, ¬ isNameStart c = true := by
  intro c hc
  simp [h.gaps d.front (List.mem_cons_self ..) c hc]

/-- Behind the gap in front and the name after it, the rest of the text is cut likewise. -/
theorem tail (h : Cuts ⟨front, (name, gap) :: rest⟩ s) : Cuts ⟨gap, rest⟩ (gap ++ writtenTail id rest) where
  text := rfl
  gaps g hg := h.gaps g (List.mem_cons_of_mem _ hg)
  names part hp := h.names part (List.mem_cons_of_mem _ hp)
  longest n g after hsuffix := h.longest n g after (hsuffix.trans (List.suffix_cons ..))

/-- The pieces of a text are those of its cut. -/
theorem pieces_eq (h : d.Cuts s) : Formula.pieces s = d.pieces := by
  obtain ⟨front, rest⟩ := d
  induction rest generalizing front s with
  | nil =>
    rw [← h.text, written, pieces_append_gaps h.not_isNameStart_front, writtenTail, List.flatMap_nil, Formula.pieces]
    rfl
  | cons part rest ih =>
    obtain ⟨name, gap⟩ := part
    have hname : isName name = true := h.names _ (List.mem_cons_self ..)
    have hnext := h.longest name gap rest List.suffix_rfl
    have htext : s = front ++ (name ++ (gap ++ writtenTail id rest)) := by
      rw [← h.text, written, writtenTail, List.flatMap_cons, List.append_assoc]
      rfl
    rw [htext, pieces_append_gaps h.not_isNameStart_front, pieces_name_append hname hnext, ih gap h.tail]
    rfl

/-- No text is cut in two ways. -/
theorem unique (h : d.Cuts s) (h' : e.Cuts s) : d = e :=
  pieces_injective (h.pieces_eq.symm.trans h'.pieces_eq)

/-! ## Every text has a cut -/

theorem nil : Cuts ⟨[], []⟩ [] := by
  constructor <;> simp [written, writtenTail, Segments.gaps]

theorem cons_gap (h : d.Cuts s) (hc : isNameStart c = false) : Cuts ⟨c :: d.front, d.rest⟩ (c :: s) where
  text := congrArg (c :: ·) h.text
  gaps g hg := by
    rcases List.mem_cons.1 hg with rfl | hg
    · exact List.forall_mem_cons.2 ⟨hc, h.gaps d.front (List.mem_cons_self ..)⟩
    · exact h.gaps g (List.mem_cons_of_mem _ hg)
  names := h.names
  longest := h.longest

theorem append_name (h : d.Cuts s) (hname : isName name = true) (hnext : ∀ c ∈ s.head?, isNameChar c = false) :
    Cuts ⟨[], (name, d.front) :: d.rest⟩ (name ++ s) where
  text := by
    show name ++ d.front ++ writtenTail id d.rest = name ++ s
    rw [List.append_assoc, ← h.text]
    rfl
  gaps g hg := by
    rcases List.mem_cons.1 hg with rfl | hg
    · exact fun c hc => absurd hc List.not_mem_nil
    · exact h.gaps g hg
  names := List.forall_mem_cons.2 ⟨hname, h.names⟩
  longest n g after hsuffix := by
    rcases List.suffix_cons_iff.1 hsuffix with heq | hsuffix
    · obtain ⟨⟨rfl, rfl⟩, rfl⟩ : (n = name ∧ g = d.front) ∧ after = d.rest := by simpa using heq
      have htext := h.text
      rw [written] at htext
      rwa [htext]
    · exact h.longest n g after hsuffix

end Cuts

theorem cuts_ofPieces (s : List Char) : (ofPieces (Formula.pieces s)).Cuts s := by
  induction s using pieces.induct with
  | case1 =>
    rw [Formula.pieces]
    exact Cuts.nil
  | case2 c rest hc ih =>
    have hname : isName (c :: rest.takeWhile isNameChar) = true := by
      rw [isName, hc, Bool.true_and, List.all_eq_true]
      exact fun d hd => List.mem_takeWhile_imp hd
    have hcut := ih.append_name hname (Text.head?_dropWhile isNameChar rest)
    rw [List.cons_append, List.takeWhile_append_dropWhile] at hcut
    rwa [pieces_name hc]
  | case3 c rest hc ih =>
    rw [pieces_gap hc]
    exact ih.cons_gap (Bool.eq_false_of_not_eq_true hc)

/-- A text is cut into one name and nothing else if it is that name. -/
theorem Cuts.eq_name_iff {d : Segments} {s : List Char} (h : d.Cuts s) (name : List Char) :
    d = ⟨[], [(name, [])]⟩ ↔ s = name ∧ isName name = true := by
  constructor
  · rintro rfl
    exact ⟨h.text.symm.trans (by simp [written, writtenTail]), h.names _ (List.mem_cons_self ..)⟩
  · rintro ⟨rfl, hname⟩
    have hcut := nil.append_name hname (by simp)
    rw [List.append_nil] at hcut
    exact h.unique hcut

theorem existsUnique_cuts (s : List Char) : ∃! d : Segments, d.Cuts s :=
  ⟨ofPieces (Formula.pieces s), cuts_ofPieces s, fun _ h => h.unique (cuts_ofPieces s)⟩

end Segments

/-! ## Names and substitution -/

variable {formula : String} {d : Segments} {b : Bindings}

/-- What is written for a name: its value, or the name if it has none. -/
def Bindings.text (b : Bindings) (name : List Char) : List Char :=
  match b (String.ofList name) with
  | none => name
  | some x => x.plainNumeral

theorem Piece.written_name (b : Bindings) (name : List Char) : (Piece.name name).written b = b.text name := by
  rw [Piece.written, Bindings.text]
  cases b (String.ofList name) <;> rfl

namespace Segments.Cuts

theorem names_eq (h : d.Cuts formula.toList) : Formula.names formula = d.names := by
  rw [Formula.names, h.pieces_eq, filterMap_name?_pieces]

theorem substitute_eq_none_iff (h : d.Cuts formula.toList) :
    substitute b formula = none ↔ ∃ name ∈ d.names, b name = some .nan := by
  rw [Formula.substitute_eq_none_iff, h.names_eq]

/-- Where all values are known, only what stands in the places of the names is another text. -/
theorem substitute_eq_some (h : d.Cuts formula.toList) (hknown : ∀ name ∈ d.names, b name ≠ some .nan) :
    substitute b formula = some (String.ofList (d.written b.text)) := by
  have hnan : ∀ text, .name text ∈ Formula.pieces formula.toList → ∀ x, b (String.ofList text) = some x →
      x.isNaN = false := by
    intro text htext x hx
    have hmem : String.ofList text ∈ d.names := h.names_eq ▸ mem_names.2 ⟨text, htext, rfl⟩
    by_contra hnan
    rw [Bool.not_eq_false] at hnan
    exact hknown _ hmem (hx.trans (congrArg some (Double.eq_nan_of_isNaN hnan)))
  rw [substitute_of_not_isNaN hnan, h.pieces_eq, flatMap_pieces d fun _ => rfl]
  simp only [Piece.written_name]

end Segments.Cuts

end Stylesheet.Formula
