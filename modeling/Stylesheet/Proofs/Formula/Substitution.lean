/-
What a formula reads of its bindings: the values of its names and nothing else. It is not a number
as soon as one of them is not known, so a value that is one was computed from known values only. A
formula that is a single bound name is the decimal text of that value.
-/
import Mathlib.Data.List.TakeWhile
import Stylesheet.Formula.Variables
import Stylesheet.Proofs.Except

namespace Stylesheet

namespace Formula

/-! ## Walking the pieces -/

theorem mapM_option_eq_none_iff {α β : Type} (f : α → Option β) :
    ∀ l : List α, l.mapM f = none ↔ ∃ a ∈ l, f a = none
  | [] => by simp
  | a :: l => by
    rw [List.mapM_cons]
    cases ha : f a with
    | none => simp [ha]
    | some b =>
      have ih := mapM_option_eq_none_iff f l
      cases hl : l.mapM f <;> simp_all

theorem mem_names {formula name : String} :
    name ∈ names formula ↔ ∃ text, .name text ∈ pieces formula.toList ∧ String.ofList text = name := by
  unfold names
  rw [List.mem_filterMap]
  constructor
  · rintro ⟨p, hp, h⟩
    cases p with
    | name text => exact ⟨text, hp, by simpa [Piece.name?] using h⟩
    | gap c => simp [Piece.name?] at h
  · rintro ⟨text, hp, h⟩
    exact ⟨_, hp, by simp [Piece.name?, h]⟩

theorem replace?_eq_none_iff (bindings : Bindings) (p : Piece) :
    p.replace? bindings = none ↔ ∃ name, p.name? = some name ∧ bindings name = some .nan := by
  cases p with
  | gap c => simp [Piece.replace?, Piece.name?]
  | name text =>
    simp only [Piece.replace?, Piece.name?, Option.some.injEq, exists_eq_left']
    cases bindings (String.ofList text) with
    | none => simp
    | some value => cases value <;> simp [Double.isNaN]

/-! ## What a formula reads -/

theorem substitute_congr {b b' : Bindings} {formula : String}
    (h : ∀ name ∈ names formula, b name = b' name) : substitute b formula = substitute b' formula := by
  unfold substitute
  rw [mapM_congr (f := Piece.replace? b) (g := Piece.replace? b')]
  intro p hp
  cases p with
  | gap c => rfl
  | name text => simp only [Piece.replace?]; rw [h _ (mem_names.2 ⟨text, hp, rfl⟩)]

/-- The value of a formula depends on the values of its names alone. -/
theorem evaluate_congr {limits : Limits} {b b' : Bindings} {formula : String}
    (h : ∀ name ∈ names formula, b name = b' name) :
    evaluate limits b formula = evaluate limits b' formula := by
  unfold evaluate; rw [substitute_congr h]

theorem substitute_eq_none_iff (b : Bindings) (formula : String) :
    substitute b formula = none ↔ ∃ name ∈ names formula, b name = some .nan := by
  have h : substitute b formula = none ↔ (pieces formula.toList).mapM (Piece.replace? b) = none := by
    unfold substitute
    cases (pieces formula.toList).mapM (Piece.replace? b) <;> simp
  rw [h, mapM_option_eq_none_iff]
  constructor
  · rintro ⟨p, hp, hn⟩
    obtain ⟨name, hname, hb⟩ := (replace?_eq_none_iff b p).1 hn
    exact ⟨name, List.mem_filterMap.2 ⟨p, hp, hname⟩, hb⟩
  · rintro ⟨name, hname, hb⟩
    obtain ⟨p, hp, hn⟩ := List.mem_filterMap.1 hname
    exact ⟨p, hp, (replace?_eq_none_iff b p).2 ⟨name, hn, hb⟩⟩

theorem evaluate_of_unknown (limits : Limits) {b : Bindings} {formula name : String}
    (hn : name ∈ names formula) (hb : b name = some .nan) : evaluate limits b formula = .ok .nan := by
  unfold evaluate; rw [(substitute_eq_none_iff b formula).2 ⟨name, hn, hb⟩]

/-- A bound name is written as its value, any other one as it is. -/
def Piece.written (b : Bindings) : Piece → List Char
  | gap c => [c]
  | name text => ((b (String.ofList text)).map Double.plainNumeral).getD text

/-- Unless a value is not known, every piece is replaced by what is written for it. -/
theorem substitute_of_not_isNaN {b : Bindings} {formula : String}
    (h : ∀ text, .name text ∈ pieces formula.toList → ∀ x, b (String.ofList text) = some x → x.isNaN = false) :
    substitute b formula = some (String.ofList ((pieces formula.toList).flatMap (Piece.written b))) := by
  have hparts : (pieces formula.toList).mapM (Piece.replace? b) =
      (pieces formula.toList).mapM (m := Option) fun p => pure (p.written b) := by
    refine mapM_congr fun p hp => ?_
    cases p with
    | gap c => rfl
    | name text =>
      rw [Piece.replace?, Piece.written]
      cases hx : b (String.ofList text) with
      | none => rfl
      | some x =>
        dsimp only
        rw [h text hp x hx]
        rfl
  unfold substitute
  rw [hparts, List.mapM_pure]
  rfl

/-! ## A formula that is one name -/

theorem pieces_of_isName {s : List Char} (h : isName s = true) : pieces s = [.name s] := by
  cases s with
  | nil => cases h
  | cons c rest =>
    simp only [isName, Bool.and_eq_true] at h
    have hall := List.all_eq_true.1 h.2
    rw [pieces, if_pos h.1, List.takeWhile_eq_self_iff.2 hall, List.dropWhile_eq_nil_iff.2 hall, pieces]

theorem names_of_isName {name : String} (h : isName name.toList = true) : names name = [name] := by
  simp [names, pieces_of_isName h, Piece.name?]

theorem substitute_of_isName {b : Bindings} {name : String} (h : isName name.toList = true) :
    substitute b name = match b name with
      | none => some name
      | some value => if value.isNaN then none else some (String.ofList value.plainNumeral) := by
  simp only [substitute, pieces_of_isName h, List.mapM_cons, List.mapM_nil, Piece.replace?, String.ofList_toList]
  cases b name with
  | none => simp
  | some value => dsimp only; split <;> simp

end Formula

end Stylesheet
