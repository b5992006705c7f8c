/-
Recursive descent. A sum is a chain of terms, a term a chain of factors, and a factor is a number, or a
sum in brackets, or a factor behind a minus sign. The cursor counts the brackets and minus signs that
are open; what is read leaves the count as it was.
-/
import Stylesheet.Formula.Parse

namespace Stylesheet.Formula

/-- A place between tokens: those that follow, and how many brackets and minus signs are open. -/
structure Cursor where
  rest : List Token
  nesting : Nat

namespace Cursor

/-- A place behind this one with as many brackets and minus signs open. -/
abbrev Beyond (c : Cursor) := { d : Cursor // d.rest.length < c.rest.length ∧ d.nesting = c.nesting }

/-- This place, or one behind it. -/
abbrev Onward (c : Cursor) := { d : Cursor // d.rest.length ≤ c.rest.length ∧ d.nesting = c.nesting }

/-- The place behind a bracket or minus sign that opens here. -/
def enter (c : Cursor) (rest : List Token) : Cursor := ⟨rest, c.nesting + 1⟩

/-- The place behind what the last bracket or minus sign opened. -/
def leave (c : Cursor) (rest : List Token) : Cursor := ⟨rest, c.nesting - 1⟩

/-- What was entered at the next token is left behind it. -/
def Beyond.leave {c : Cursor} {rest : List Token} (d : (c.enter rest).Beyond) (hlt : rest.length < c.rest.length)
    (after : List Token) (hle : after.length ≤ d.1.rest.length) : c.Beyond :=
  ⟨d.1.leave after, Nat.lt_of_le_of_lt hle (Nat.lt_trans d.2.1 hlt), by rw [Cursor.leave, d.2.2]; rfl⟩

end Cursor

/-- Chains of operands with operators between them. -/
inductive Chain
  | sum
  | term
deriving DecidableEq

/-- The operands of one chain are chains of the next lower rank, or none of that kind. -/
@[simp] def Chain.rank : Chain → Nat
  | sum => 1
  | term => 0

/-- The operators of a chain. -/
def Chain.operator? : Chain → Lexeme → Option Operator
  | sum, .plus => some .add
  | sum, .minus => some .sub
  | term, .star => some .mul
  | term, .slash => some .div
  | _, _ => none

namespace Descent

/-- The position of the next token, which may be the end token. -/
def nextPosition (stop : Nat) : List Token → Nat
  | token :: _ => token.position
  | [] => stop

variable (limits : Limits) (formula : String) (stop : Nat)

mutual

def chain (kind : Chain) (c : Cursor) : Except Error (Expr × c.Beyond) := do
  let (left, d) ← operand kind c
  let (node, e) ← chainFrom kind left d.1
  .ok (node, ⟨e.1, Nat.lt_of_le_of_lt e.2.1 d.2.1, e.2.2.trans d.2.2⟩)
termination_by (c.rest.length, 2 * kind.rank + 2)

/-- The chain that goes on from its left part. -/
def chainFrom (kind : Chain) (left : Expr) (c : Cursor) : Except Error (Expr × c.Onward) :=
  match hc : c.rest with
  | token :: rest =>
    have hlt : rest.length < c.rest.length := by rw [hc]; exact Nat.lt_succ_self _
    match kind.operator? token.lexeme with
    | some operator => do
      let (right, d) ← operand kind { c with rest }
      have hd : d.1.rest.length < c.rest.length := Nat.lt_trans d.2.1 hlt
      let (node, e) ← chainFrom kind (.binary token.position operator left right) d.1
      .ok (node, ⟨e.1, Nat.le_of_lt (Nat.lt_of_le_of_lt e.2.1 hd), e.2.2.trans d.2.2⟩)
    | none => .ok (left, ⟨c, Nat.le_refl _, rfl⟩)
  | [] => .ok (left, ⟨c, Nat.le_refl _, rfl⟩)
termination_by (c.rest.length, 0)

def operand (kind : Chain) (c : Cursor) : Except Error (Expr × c.Beyond) :=
  match kind with
  | .sum => chain .term c
  | .term => factor c
termination_by (c.rest.length, 2 * kind.rank + 1)

def factor (c : Cursor) : Except Error (Expr × c.Beyond) :=
  match hc : c.rest with
  | token :: rest =>
    have hlt : rest.length < c.rest.length := by rw [hc]; exact Nat.lt_succ_self _
    match token.lexeme with
    | .openBracket => do
      limits.checkNesting (c.enter rest).nesting
      let (node, d) ← chain .sum (c.enter rest)
      match hd : d.1.rest with
      | ⟨.closeBracket, _⟩ :: after => .ok (node, d.leave hlt after (by simp [hd]))
      | after => .error (.missingBracket (nextPosition stop after) formula)
    | .minus => do
      limits.checkNesting (c.enter rest).nesting
      let (operand, d) ← factor (c.enter rest)
      .ok (.negate token.position operand, d.leave hlt d.1.rest (Nat.le_refl _))
    | .number numeral => do
      limits.checkZeros numeral
      .ok (.number token.position (limits.numberValue numeral), ⟨{ c with rest }, hlt, rfl⟩)
    | lexeme => .error (.unexpectedToken (String.ofList lexeme.text) token.position formula)
  | [] => .error (.unexpectedEnd stop formula)
termination_by (c.rest.length, 0)

end

/-- What was read, if nothing is left of the tokens. -/
def whole (formula : String) (node : Expr) : List Token → Except Error Expr
  | [] => .ok node
  | token :: _ => .error (.unexpectedToken (String.ofList token.lexeme.text) token.position formula)

end Descent

/-- The expression that a formula writes, by recursive descent. -/
def descend (limits : Limits) (formula : String) : Except Error Expr := do
  let list ← tokenize limits formula
  let (node, c) ← Descent.chain limits formula list.stop .sum ⟨list.tokens, 0⟩
  Descent.whole formula node c.1.rest

end Stylesheet.Formula
