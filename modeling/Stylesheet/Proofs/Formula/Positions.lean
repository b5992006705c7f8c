/-
Where the nodes of an expression stand in its formula. From left to right, the nodes of a tree that is read are made by
the tokens of the formula that are no brackets, one by each (`Derivation.forall₂_inOrder`). The tokens tile the formula,
so every node stands where its character is and the positions rise; and every operator has a meaning, so there is a
value (`inOrder_of_parse`).
-/
import Mathlib.Tactic
import Stylesheet.Proofs.Formula.Recursion
import Stylesheet.Proofs.Formula.Tiling

namespace Stylesheet.Formula

open Stylesheet.Text (Numeral)

/-! ## Nodes and tokens -/

namespace Lexeme

def isBracket : Lexeme → Bool
  | openBracket => true
  | closeBracket => true
  | _ => false

/-- The operator that a sign between operands is. -/
def operator? : Lexeme → Option Operator
  | plus => some .add
  | minus => some .sub
  | star => some .mul
  | slash => some .div
  | _ => none

end Lexeme

namespace Expr

/-- The nodes of an expression from left to right: an operator between its operands, a minus sign in front of its
own. -/
def inOrder : Expr → List Expr
  | number position value => [number position value]
  | negate position operand => negate position operand :: operand.inOrder
  | binary position operator left right => left.inOrder ++ binary position operator left right :: right.inOrder

/-- The token makes the node, at the same position. -/
def MadeBy (limits : Limits) (node : Expr) (t : Token) : Prop :=
  node.position = t.position ∧
    match node with
    | number _ value => ∃ n, t.lexeme = .number n ∧ value = limits.numberValue n
    | negate .. => t.lexeme = .minus
    | binary _ operator .. => t.lexeme.operator? = some operator

/-- The node stands in the text where it was made: a number at the first digit of its literal, a minus sign and an
operator at their characters. -/
def PointsAt (limits : Limits) (s : List Char) : Expr → Prop
  | number position value => (∃ d, s[position]? = some d ∧ d.isDigit = true) ∧
      ∃ n : Numeral, n.text <+: s.drop position ∧ (Lexeme.number n).EndsAt s[position + n.text.length]? ∧
        value = limits.numberValue n
  | negate position _ => s[position]? = some '-'
  | binary position operator .. => ∃ c ∈ ['+', '-', '*', '/'], s[position]? = some c ∧
      operator = .ofMark (String.ofList [c])

end Expr

/-! ## The nodes of a derivation -/

namespace Derivation

variable {limits : Limits} {c : Category}

theorem forall₂_infix {nodes nodes' : List Expr} {node : Expr} {ts ts' : List Token} {lexeme : Lexeme} {position : Nat}
    (h : List.Forall₂ (Expr.MadeBy limits) nodes (ts.filter (!·.lexeme.isBracket)))
    (h' : List.Forall₂ (Expr.MadeBy limits) nodes' (ts'.filter (!·.lexeme.isBracket)))
    (hnode : node.MadeBy limits ⟨lexeme, position⟩) (hlexeme : lexeme.isBracket = false) :
    List.Forall₂ (Expr.MadeBy limits) (nodes ++ node :: nodes')
      ((ts ++ ⟨lexeme, position⟩ :: ts').filter (!·.lexeme.isBracket)) := by
  rw [List.filter_append, List.filter_cons_of_pos (by simp [hlexeme])]
  exact List.rel_append h (.cons hnode h')

/-- The nodes of a derivation are made by its tokens but for the brackets, one by each. -/
theorem forall₂_inOrder (limits : Limits) (d : Derivation Numeral c) :
    List.Forall₂ (Expr.MadeBy limits) (d.tree limits.numberValue).inOrder
      (d.tokens.filter (!·.lexeme.isBracket)) := by
  induction d with
  | atom n position => exact .cons ⟨rfl, n, rfl, rfl⟩ .nil
  | negation position operand ih => exact .cons ⟨rfl, rfl⟩ ih
  | brackets opening inner closing ih =>
    have hinner : (brackets opening inner closing).tokens.filter (!·.lexeme.isBracket) =
        inner.tokens.filter (!·.lexeme.isBracket) := by
      show (⟨.openBracket, opening⟩ :: (inner.tokens ++ [⟨.closeBracket, closing⟩])).filter _ = _
      rw [List.filter_cons_of_neg (by simp [Lexeme.isBracket]), List.filter_append]
      exact List.append_nil _
    rw [hinner]
    exact ih
  | factor only ih => exact ih
  | product left sign position right ihl ihr =>
    exact forall₂_infix ihl ihr ⟨rfl, by cases sign <;> rfl⟩ (by cases sign <;> rfl)
  | term only ih => exact ih
  | sum left sign position right ihl ihr =>
    exact forall₂_infix ihl ihr ⟨rfl, by cases sign <;> rfl⟩ (by cases sign <;> rfl)

end Derivation

/-! ## The nodes of a formula -/

namespace Expr

variable {limits : Limits} {s : List Char} {ts : List Token}

theorem exists_madeBy {nodes : List Expr} (h : List.Forall₂ (MadeBy limits) nodes ts)
    {node : Expr} (hnode : node ∈ nodes) :
    ∃ t ∈ ts, node.MadeBy limits t := by
  induction h with
  | nil => cases hnode
  | cons hmade _ ih =>
    rcases List.mem_cons.1 hnode with rfl | hnode
    · exact ⟨_, List.mem_cons_self .., hmade⟩
    · obtain ⟨t, ht, hmade⟩ := ih hnode
      exact ⟨t, List.mem_cons_of_mem _ ht, hmade⟩

theorem map_position_of_forall₂ {nodes : List Expr} (h : List.Forall₂ (MadeBy limits) nodes ts) :
    nodes.map position = ts.map (·.position) := by
  induction h with
  | nil => rfl
  | cons hmade _ ih => rw [List.map_cons, List.map_cons, hmade.1, ih]

/-- The token that makes a node stands in the text, so the node does. -/
theorem MadeBy.pointsAt {node : Expr} {t : Token} {stop : Nat} (h : node.MadeBy limits t)
    (htiles : Tiles s 0 stop ts) (ht : t ∈ ts) :
    node.PointsAt limits s := by
  have hslice := htiles.slice t ht
  have hends := htiles.ends t ht
  have hfirst {c : Char} {rest : List Char} (htext : t.lexeme.text = c :: rest) : s[t.position]? = some c := by
    obtain ⟨after, hafter⟩ := hslice
    rw [← List.head?_drop, ← hafter, htext]
    rfl
  cases node with
  | number position value =>
    obtain ⟨hposition, n, hn, hvalue⟩ := h
    subst hposition
    rw [hn] at hslice
    rw [Token.stop, hn] at hends
    obtain ⟨d, rest, htext, hdigit⟩ := hends.exists_digit
    exact ⟨⟨d, hfirst (by rw [hn]; exact htext), hdigit⟩, n, hslice, hends, hvalue⟩
  | negate position operand =>
    obtain ⟨hposition, hminus⟩ := h
    change t.lexeme = .minus at hminus
    subst hposition
    exact @hfirst '-' [] (by rw [hminus]; rfl)
  | binary position operator left right =>
    obtain ⟨hposition, hoperator⟩ := h
    subst hposition
    obtain ⟨lexeme, position⟩ := t
    cases lexeme with
    | plus => exact ⟨'+', by simp, hfirst rfl, (Option.some.inj hoperator).symm⟩
    | minus => exact ⟨'-', by simp, hfirst rfl, (Option.some.inj hoperator).symm⟩
    | star => exact ⟨'*', by simp, hfirst rfl, (Option.some.inj hoperator).symm⟩
    | slash => exact ⟨'/', by simp, hfirst rfl, (Option.some.inj hoperator).symm⟩
    | number n | openBracket | closeBracket => cases hoperator

/-- Every operator is that of a node. -/
theorem exists_of_mem_operators {e : Expr} {operator : Operator} (h : operator ∈ e.operators) :
    ∃ position left right, binary position operator left right ∈ e.inOrder := by
  induction e with
  | number position value => cases h
  | negate position operand ih =>
    obtain ⟨p, left, right, hmem⟩ := ih h
    exact ⟨p, left, right, List.mem_cons_of_mem _ hmem⟩
  | binary position operator' left right ihl ihr =>
    simp only [operators, List.mem_append, List.mem_singleton] at h
    simp only [inOrder, List.mem_append, List.mem_cons]
    rcases h with (h | h) | rfl
    · obtain ⟨p, l, r, hmem⟩ := ihl h
      exact ⟨p, l, r, .inl hmem⟩
    · obtain ⟨p, l, r, hmem⟩ := ihr h
      exact ⟨p, l, r, .inr (.inr hmem)⟩
    · exact ⟨position, left, right, .inr (.inl rfl)⟩

theorem check_of_pointsAt {e : Expr} (h : ∀ node ∈ e.inOrder, node.PointsAt limits s) :
    ∀ operator ∈ e.operators, operator.check = .ok () := by
  intro operator hoperator
  obtain ⟨position, left, right, hmem⟩ := exists_of_mem_operators hoperator
  obtain ⟨c, hc, -, rfl⟩ := h _ hmem
  simp only [List.mem_cons, List.not_mem_nil, or_false] at hc
  rcases hc with rfl | rfl | rfl | rfl <;> rfl

end Expr

/-- Every node of a formula's tree points at the character that made it. From left to right the positions rise, and the
nodes are made by the tokens but for the brackets, one by each; so the tree has a value, whatever the arithmetic. -/
theorem inOrder_of_parse {limits : Limits} {formula : String} {e : Expr} (h : parse limits formula = .ok e) :
    (∀ node ∈ e.inOrder, node.PointsAt limits formula.toList) ∧
    (e.inOrder.map Expr.position).Pairwise (· < ·) ∧
    (∃ ts, tokens limits formula = .ok ts ∧
      List.Forall₂ (Expr.MadeBy limits) e.inOrder (ts.filter (!·.lexeme.isBracket))) ∧
    ∀ {α : Type} (arith : Arithmetic α), ∃ x, e.evalWith arith = .ok x := by
  obtain ⟨ts, hts, hparse⟩ := parse_eq_ok_iff_parseTokens.1 h
  have htiles : Tiles formula.toList 0 formula.toList.length ts := scan_eq_ok_iff.1 (tokens_eq_ok_iff.1 hts).2
  obtain ⟨d, rfl⟩ := derivation_of_parseTokens hparse
  obtain ⟨-, -, rfl⟩ := d.parseTokens_iff.1 hparse
  have hmade := d.forall₂_inOrder limits
  have hpoints : ∀ node ∈ (d.tree limits.numberValue).inOrder, node.PointsAt limits formula.toList := by
    intro node hnode
    obtain ⟨t, ht, hnodet⟩ := Expr.exists_madeBy hmade hnode
    exact hnodet.pointsAt htiles (List.mem_of_mem_filter ht)
  refine ⟨hpoints, ?_, ⟨_, hts, hmade⟩, fun arith => Expr.exists_evalWith_ok arith (Expr.check_of_pointsAt hpoints)⟩
  have hrising := (List.pairwise_append.1 htiles.increasing).1
  rw [Expr.map_position_of_forall₂ hmade]
  exact hrising.sublist (List.filter_sublist.map _)

/-- The nodes are at every position of this formula but those of the brackets and the blank. -/
theorem inOrder_of_parse_negated :
    ∃ e, parse {} "-(1 +2)*3" = .ok e ∧ e.inOrder.map Expr.position = [0, 2, 4, 5, 7, 8] ∧ ∃ x, e.eval = .ok x := by
  have hread : (parse {} "-(1 +2)*3").toOption.isSome = true := by decide +kernel
  cases hparse : parse {} "-(1 +2)*3" with
  | error error =>
    rw [hparse] at hread
    cases hread
  | ok e =>
    obtain ⟨-, -, ⟨ts, hts, hmade⟩, hvalue⟩ := inOrder_of_parse hparse
    have htokens : tokens {} "-(1 +2)*3" = .ok [⟨.minus, 0⟩, ⟨.openBracket, 1⟩, ⟨.number ⟨['1'], none⟩, 2⟩, ⟨.plus, 4⟩,
        ⟨.number ⟨['2'], none⟩, 5⟩, ⟨.closeBracket, 6⟩, ⟨.star, 7⟩, ⟨.number ⟨['3'], none⟩, 8⟩] := by
      decide +kernel
    cases hts.symm.trans htokens
    exact ⟨e, rfl, Expr.map_position_of_forall₂ hmade, hvalue Arithmetic.double⟩

end Stylesheet.Formula
