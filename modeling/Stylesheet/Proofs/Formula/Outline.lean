/-
What an outline tells. The label in front of a line tells the kind of its node, so how many operands follow below it,
and their lines follow one after the other. So of all the lines of two outlines, with anything behind them, the ones
that belong to the trees are the same (`Expr.outlineLines_append_inj`). No line breaks off within itself, so the text
falls into the lines again. An outline tells all of its tree but the positions of the nodes; the indentation is not
needed for it.
-/
import Mathlib.Tactic
import Stylesheet.Formula.Outline
import Stylesheet.Proofs.Decimal.Distinct
import Stylesheet.Proofs.Formula.Recursion

namespace Stylesheet.Formula

/-- Lines without breaks are the ones their text falls into. -/
theorem lines_inj {lines lines' : List String} (hne : lines ≠ []) (hne' : lines' ≠ [])
    (hlines : ∀ line ∈ lines, '\n' ∉ line.toList) (hlines' : ∀ line ∈ lines', '\n' ∉ line.toList)
    (h : "\n".intercalate lines = "\n".intercalate lines') : lines = lines' := by
  have hsplit {ls : List String} (hne : ls ≠ []) (hls : ∀ l ∈ ls, '\n' ∉ l.toList) :
      ("\n".intercalate ls).toList.splitOn '\n' = ls.map String.toList := by
    rw [String.toList_intercalate]
    exact List.splitOn_intercalate '\n' (List.forall_mem_map.2 hls) (mt List.map_eq_nil_iff.1 hne)
  have hmap := hsplit hne hlines
  rw [h, hsplit hne' hlines'] at hmap
  exact (List.map_injective_iff.2 (fun _ _ => String.toList_injective) hmap).symm

namespace Operator

variable {a b : Operator}

/-- An operator with a meaning is the one that its mark stands for. -/
theorem ofMark_mark (ha : a.check = .ok ()) : ofMark a.mark = a := by
  cases a with
  | add | sub | mul | div => decide
  | other => cases ha

theorem mark_inj (ha : a.check = .ok ()) (hb : b.check = .ok ()) (h : a.mark = b.mark) : a = b := by
  rw [← ofMark_mark ha, h, ofMark_mark hb]

theorem break_not_mem_mark (ha : a.check = .ok ()) : '\n' ∉ a.mark.toList := by
  cases a with
  | add | sub | mul | div => decide
  | other => cases ha

end Operator

theorem break_not_mem_numeral (x : Double) : '\n' ∉ x.numeral.toList := by
  cases x with
  | nan => decide
  | infinite negative => cases negative <;> decide
  | finite negative units hr => exact fun h => absurd (Double.isDigit_or_mem_numeral rfl _ h) (by decide)

namespace Expr

/-- The tree with all its nodes at one position. -/
def unplaced : Expr → Expr
  | number _ value => .number 0 value
  | negate _ operand => .negate 0 operand.unplaced
  | binary _ operator left right => .binary 0 operator left.unplaced right.unplaced

/-! ## Lines -/

/-- What a line says about its node. -/
def label : Expr → String
  | number _ value => "Number: " ++ value.numeral
  | negate .. => "UnaryMinus"
  | binary _ operator .. => "BinaryOp: " ++ operator.mark

/-- The first letter of the label. -/
def initial : Expr → Char
  | number .. => 'N'
  | negate .. => 'U'
  | binary .. => 'B'

variable {e e' : Expr} {level : Int}

theorem initial_eq_of_label_eq (h : e.label = e'.label) : e.initial = e'.initial := by
  have hhead (e : Expr) : e.label.toList.head? = some e.initial := by
    cases e <;> simp [label, initial, String.toList_append]
  have hletter := hhead e
  rw [h, hhead] at hletter
  exact (Option.some.inj hletter).symm

/-- The lines of the operands, which stand below the line of their node. -/
def linesBelow (level : Int) : Expr → List String
  | number .. => []
  | negate _ operand => operand.outlineLines level
  | binary _ _ left right => left.outlineLines level ++ right.outlineLines level

theorem outlineLines_eq (level : Int) (e : Expr) :
    e.outlineLines level = (indentation level ++ e.label) :: e.linesBelow (level + 1) := by
  cases e <;> simp [outlineLines, label, linesBelow, String.append_assoc]

theorem outlineLines_ne_nil (level : Int) (e : Expr) : e.outlineLines level ≠ [] := by
  rw [outlineLines_eq]
  exact List.cons_ne_nil _ _

theorem break_not_mem_outlineLines (he : ∀ operator ∈ e.operators, operator.check = .ok ()) :
    ∀ line ∈ e.outlineLines level, '\n' ∉ line.toList := by
  have hspaces (level : Int) : '\n' ∉ (indentation level).toList := by
    rw [indentation, String.toList_ofList]
    exact fun h => absurd (List.eq_of_mem_replicate h) (by decide)
  have hline (level : Int) {label text : String} (hlabel : '\n' ∉ label.toList) (htext : '\n' ∉ text.toList) :
      '\n' ∉ (indentation level ++ label ++ text).toList := by
    simp [String.toList_append, hspaces, hlabel, htext]
  induction e generalizing level with
  | number position value => exact List.forall_mem_singleton.2 (hline _ (by decide) (break_not_mem_numeral value))
  | negate position operand ih =>
    refine List.forall_mem_cons.2 ⟨?_, ih he⟩
    rw [← String.append_empty (s := indentation level ++ "UnaryMinus")]
    exact hline level (by decide) (by decide)
  | binary position operator left right ihl ihr =>
    obtain ⟨hleft, hright, hoperator⟩ := forall_operators_binary.1 he
    refine List.forall_mem_cons.2 ⟨?_, List.forall_mem_append.2 ⟨ihl hleft, ihr hright⟩⟩
    exact hline level (by decide) (Operator.break_not_mem_mark hoperator)

/-! ## Trees -/

theorem unplaced_outlineLines (level : Int) (e : Expr) : e.unplaced.outlineLines level = e.outlineLines level := by
  induction e generalizing level with
  | number position value => rfl
  | negate position operand ih => rw [unplaced, outlineLines, outlineLines, ih]
  | binary position operator left right ihl ihr => rw [unplaced, outlineLines, outlineLines, ihl, ihr]

theorem label_eq_of_append_eq {rest rest' : List String}
    (h : e.outlineLines level ++ rest = e'.outlineLines level ++ rest') :
    e.label = e'.label ∧ e.linesBelow (level + 1) ++ rest = e'.linesBelow (level + 1) ++ rest' := by
  rw [outlineLines_eq, outlineLines_eq] at h
  exact ⟨(String.append_right_inj _).1 (List.cons.inj h).1, (List.cons.inj h).2⟩

/-- Two trees with the same lines, whatever follows behind them, are the same but for positions, and so is what
follows. -/
theorem outlineLines_append_inj (he : ∀ operator ∈ e.operators, operator.check = .ok ())
    (he' : ∀ operator ∈ e'.operators, operator.check = .ok ()) {rest rest' : List String}
    (h : e.outlineLines level ++ rest = e'.outlineLines level ++ rest') : e.unplaced = e'.unplaced ∧ rest = rest' := by
  induction e generalizing e' level rest rest' with
  | number position value =>
    obtain ⟨hlabel, hbelow⟩ := label_eq_of_append_eq h
    cases e' with
    | number position' value' =>
      obtain rfl := Double.numeral_injective ((String.append_right_inj _).1 hlabel)
      exact ⟨rfl, hbelow⟩
    | negate | binary => exact absurd (initial_eq_of_label_eq hlabel) (by simp [initial])
  | negate position operand ih =>
    obtain ⟨hlabel, hbelow⟩ := label_eq_of_append_eq h
    cases e' with
    | negate position' operand' =>
      have hknown : ∀ operator ∈ operand'.operators, operator.check = .ok () := he'
      obtain ⟨hoperand, hrest⟩ := ih he hknown hbelow
      exact ⟨by rw [unplaced, unplaced, hoperand], hrest⟩
    | number | binary => exact absurd (initial_eq_of_label_eq hlabel) (by simp [initial])
  | binary position operator left right ihl ihr =>
    obtain ⟨hlabel, hbelow⟩ := label_eq_of_append_eq h
    cases e' with
    | binary position' operator' left' right' =>
      obtain ⟨hleft, hright, hoperator⟩ := forall_operators_binary.1 he
      obtain ⟨hleft', hright', hoperator'⟩ := forall_operators_binary.1 he'
      obtain rfl := Operator.mark_inj hoperator hoperator' ((String.append_right_inj _).1 hlabel)
      rw [linesBelow, linesBelow, List.append_assoc, List.append_assoc] at hbelow
      obtain ⟨heql, hbelow⟩ := ihl hleft hleft' hbelow
      obtain ⟨heqr, hrest⟩ := ihr hright hright' hbelow
      exact ⟨by rw [unplaced, unplaced, heql, heqr], hrest⟩
    | number | negate => exact absurd (initial_eq_of_label_eq hlabel) (by simp [initial])

/-- Trees of operators with a meaning have the same outline exactly if they are the same but for the positions of their
nodes. -/
theorem outline_eq_iff (he : ∀ operator ∈ e.operators, operator.check = .ok ())
    (he' : ∀ operator ∈ e'.operators, operator.check = .ok ()) :
    e.outline level = e'.outline level ↔ e.unplaced = e'.unplaced := by
  constructor
  · intro h
    have hlines := lines_inj (outlineLines_ne_nil level e) (outlineLines_ne_nil level e')
      (break_not_mem_outlineLines he) (break_not_mem_outlineLines he') h
    exact (outlineLines_append_inj he he' (congrArg (· ++ []) hlines)).1
  · intro h
    rw [outline, outline, ← unplaced_outlineLines, h, unplaced_outlineLines]

/-- An outline that is written tells its tree but for the positions of the nodes. -/
theorem outlineAt_eq_iff (he : ∀ operator ∈ e.operators, operator.check = .ok ())
    (he' : ∀ operator ∈ e'.operators, operator.check = .ok ()) {text : String} (h : e.outlineAt level = .ok text) :
    e'.outlineAt level = .ok text ↔ e.unplaced = e'.unplaced := by
  unfold outlineAt at h ⊢
  split at h
  · rw [← outline_eq_iff he he', Except.ok.inj h]
    exact ⟨fun h' => (Except.ok.inj h').symm, fun h' => by rw [h']⟩
  · cases h

/-- A difference has the same outline at other positions, and another one with its operands exchanged. -/
theorem outlineAt_difference :
    outlineAt 1 (.binary 1 .sub (.number 0 (.ofInt 1)) (.number 2 (.ofInt 2))) =
      .ok "  BinaryOp: -\n    Number: 1.0\n    Number: 2.0" ∧
    outlineAt 1 (.binary 2 .sub (.number 0 (.ofInt 1)) (.number 4 (.ofInt 2))) =
      .ok "  BinaryOp: -\n    Number: 1.0\n    Number: 2.0" ∧
    outlineAt 1 (.binary 1 .sub (.number 0 (.ofInt 2)) (.number 2 (.ofInt 1))) ≠
      .ok "  BinaryOp: -\n    Number: 1.0\n    Number: 2.0" := by
  have htext : outlineAt 1 (.binary 1 .sub (.number 0 (.ofInt 1)) (.number 2 (.ofInt 2))) =
      .ok "  BinaryOp: -\n    Number: 1.0\n    Number: 2.0" := by decide +kernel
  have hknown (p p' p'' : Nat) (x y : Double) :
      ∀ operator ∈ (binary p .sub (.number p' x) (.number p'' y)).operators, operator.check = .ok () :=
    List.forall_mem_singleton.2 rfl
  refine ⟨htext, (outlineAt_eq_iff (hknown _ _ _ _ _) (hknown _ _ _ _ _) htext).2 rfl, fun h => ?_⟩
  have hsame := (outlineAt_eq_iff (hknown _ _ _ _ _) (hknown _ _ _ _ _) htext).1 h
  exact absurd hsame (by decide +kernel)

end Expr

end Stylesheet.Formula
