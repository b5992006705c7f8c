/-
The spine of an expression against plain recursion. Walking down the left spine and applying its operators on the way up
gives what the recursion over the tree gives, over any arithmetic, for operators without meaning too
(`Expr.evalWith_eq_evalRec`). Whether there is a value does not depend on the arithmetic: there is one unless an
operator has no meaning, and the error names the first such operator in the order in which they are applied
(`Expr.map_evalWith`).
-/
import Mathlib.Tactic
import Stylesheet.Formula.Eval
import Stylesheet.Proofs.Except

namespace Stylesheet.Formula

/-- The operator has to have a meaning. -/
def Operator.check : Operator → Except Error Unit
  | other mark => .error (.unknownOperator mark)
  | _ => .ok ()

namespace Expr

variable {α : Type} (arith : Arithmetic α)

/-- The value of an expression by recursion: that of the left operand, that of the right one, and the operator applied
to them. -/
def evalRec : Expr → Except Error α
  | number _ value => .ok (arith.ofDouble value)
  | negate _ operand => do
    let value ← evalRec operand
    .ok (arith.neg value)
  | binary _ operator left right => do
    let left ← evalRec left
    let right ← evalRec right
    arith.apply left right operator

/-- Walking the spine of an expression is recursion over the tree. -/
theorem evalWith_eq_evalRec (e : Expr) : e.evalWith arith = e.evalRec arith := by
  induction e with
  | number position value => exact evalWith_number ..
  | negate position operand ih =>
    rw [evalWith_negate, ih, evalRec]
    cases operand.evalRec arith <;> rfl
  | binary position operator left right ihl ihr =>
    rw [evalWith_binary, ihl, ihr]
    rfl

/-! ## Errors -/

/-- The operators of an expression in the order in which they are applied. -/
def operators : Expr → List Operator
  | number .. => []
  | negate _ operand => operand.operators
  | binary _ operator left right => left.operators ++ right.operators ++ [operator]

theorem forall_operators_binary {p : Operator → Prop} {position : Nat} {operator : Operator} {left right : Expr} :
    (∀ other ∈ (binary position operator left right).operators, p other) ↔
      (∀ other ∈ left.operators, p other) ∧ (∀ other ∈ right.operators, p other) ∧ p operator := by
  rw [operators, List.forall_mem_append, List.forall_mem_append, List.forall_mem_singleton, and_assoc]

/-- Whatever the arithmetic, an expression has a value unless some operator has no meaning; the first one is the
error. -/
theorem map_evalWith (e : Expr) : (e.evalWith arith).map (fun _ => ()) = forM e.operators Operator.check := by
  induction e with
  | number position value =>
    rw [evalWith_number]
    rfl
  | negate position operand ih =>
    rw [evalWith_negate, operators, ← ih]
    cases operand.evalWith arith <;> rfl
  | binary position operator left right ihl ihr =>
    rw [evalWith_binary, operators, List.forM_append, List.forM_append, ← ihl, ← ihr]
    cases left.evalWith arith with
    | error e => rfl
    | ok l =>
      cases right.evalWith arith with
      | error e => rfl
      | ok r => cases operator <;> rfl

/-- The operands are in front of their operator, so the inner one of two operators without meaning is the error. -/
example : evalWith Arithmetic.double
    (.binary 1 (.other "%") (.number 0 .nan) (.binary 3 (.other "^") (.number 2 .nan) (.number 4 .nan))) =
      .error (.unknownOperator "^") := by
  cbv

/-- With operators that all have a meaning there is a value. -/
theorem exists_evalWith_ok {e : Expr} (h : ∀ operator ∈ e.operators, operator.check = .ok ()) :
    ∃ x, e.evalWith arith = .ok x := by
  have hchecked : ∀ l : List Operator, (∀ operator ∈ l, operator.check = .ok ()) → forM l Operator.check = .ok () := by
    intro l hl
    induction l with
    | nil => rfl
    | cons operator l ih =>
      rw [List.forM_cons, hl operator (List.mem_cons_self ..)]
      exact ih fun other hother => hl other (List.mem_cons_of_mem _ hother)
  have hmap := e.map_evalWith arith
  rw [hchecked _ h] at hmap
  obtain ⟨x, hx, -⟩ := except_map_ok hmap
  exact ⟨x, hx⟩

end Expr

end Stylesheet.Formula
