/-
Reading tokens as an expression, in one pass. What is open is kept by bracket level: a sum and a
product that wait for their right operand, and the minus signs before the next factor. So `*` and
`/` bind tighter than `+` and `-`, a minus sign binds tightest, and chains lean left.
-/
import Stylesheet.Formula.Expr
import Stylesheet.Formula.Token

namespace Stylesheet.Formula

open Stylesheet.Text (Numeral)

/-! ## Numbers -/

/-- The digits left of `whole` when it may keep `limit`; a negative limit counts from the end. -/
def keptDigits (limit : Int) (whole : List Char) : List Char :=
  whole.take (if 0 ≤ limit then limit else whole.length + limit).toNat

/-- Digits beyond the limit only scale the number: each becomes a zero. A limit so low that no
digit is left counts as the highest of that kind, since nothing is left to scale. -/
def limitDigits (limit : Int) (whole : List Char) : List Char :=
  let limit := max limit (-whole.length)
  let excess := whole.length - limit
  if 0 < excess then keptDigits limit whole ++ List.replicate excess.toNat '0' else whole

/-- The zeros that a number is filled up with have to be countable. They replace digits of the text, which
are, unless the limit is negative. -/
def Limits.checkZeros (limits : Limits) (numeral : Numeral) : Except Error Unit :=
  if 0 ≤ limits.digits ∨ numeral.whole.length - limits.digits < Overflow.countLimit then .ok ()
  else .error (.overflow .count)

def Limits.numberValue (limits : Limits) (numeral : Numeral) : Double :=
  Double.ofDigits (limitDigits limits.digits numeral.whole) numeral.places

/-! ## What is open -/

/-- A left operand and its operator, which wait for the right operand. -/
structure Pending where
  left : Expr
  operator : Operator
  position : Nat
deriving DecidableEq

/-- Gives the right operand to a waiting operator, if there is one. -/
def Pending.complete : Option Pending → Expr → Expr
  | none, right => right
  | some p, right => .binary p.position p.operator p.left right

/-- What is open between two brackets, before an operand: the minus signs are kept by position,
the last first. -/
structure Level where
  sum : Option Pending := none
  product : Option Pending := none
  minuses : List Nat := []
deriving DecidableEq

/-- The term that ends with this factor, as far as it goes. -/
def Level.term (level : Level) (factor : Expr) : Expr :=
  Pending.complete level.product
    (level.minuses.foldl (fun operand position => .negate position operand) factor)

/-- Between two tokens. Outer levels are kept innermost first. -/
inductive State
  /-- An operand has to follow. -/
  | operand (level : Level) (outer : List Level)
  /-- An operand is complete; `term` still grows by `*` and `/`. -/
  | operator (sum : Option Pending) (term : Expr) (outer : List Level)

namespace State

def initial : State := .operand {} []

/-- Minus signs open in these levels, and the brackets around all but the innermost. -/
def depth (level : Level) (outer : List Level) : Nat :=
  level.minuses.length + outer.foldr (fun l n => l.minuses.length + 1 + n) 0

/-! ## One token -/

/-- The state after a token that stands where an operand has to start. -/
def stepOperand (limits : Limits) (formula : String) (level : Level) (outer : List Level)
    (token : Token) : Except Error State :=
  match token.lexeme with
  | .number numeral => do
    limits.checkZeros numeral
    let factor := Expr.number token.position (limits.numberValue numeral)
    .ok (.operator level.sum (level.term factor) outer)
  | .minus => do
    limits.checkNesting (depth level outer + 1)
    .ok (.operand { level with minuses := token.position :: level.minuses } outer)
  | .openBracket => do
    limits.checkNesting (depth level outer + 1)
    .ok (.operand {} (level :: outer))
  | lexeme => .error (.unexpectedToken (String.ofList lexeme.text) token.position formula)

/-- The state after a token that follows an operand. -/
def stepOperator (formula : String) (sum : Option Pending) (term : Expr) (outer : List Level)
    (token : Token) : Except Error State :=
  match token.lexeme, outer with
  | .plus, _ =>
    .ok (.operand { sum := some ⟨Pending.complete sum term, .add, token.position⟩ } outer)
  | .minus, _ =>
    .ok (.operand { sum := some ⟨Pending.complete sum term, .sub, token.position⟩ } outer)
  | .star, _ => .ok (.operand { sum, product := some ⟨term, .mul, token.position⟩ } outer)
  | .slash, _ => .ok (.operand { sum, product := some ⟨term, .div, token.position⟩ } outer)
  | .closeBracket, level :: outer =>
    .ok (.operator level.sum (level.term (Pending.complete sum term)) outer)
  | _, _ :: _ => .error (.missingBracket token.position formula)
  | lexeme, [] => .error (.unexpectedToken (String.ofList lexeme.text) token.position formula)

def step (limits : Limits) (formula : String) : State → Token → Except Error State
  | .operand level outer, token => stepOperand limits formula level outer token
  | .operator sum term outer, token => stepOperator formula sum term outer token

/-! ## The end -/

/-- The expression, if nothing is open at the end of the formula. -/
def finish (formula : String) : State → Except Error Expr
  | .operand .. => .error (.unexpectedEnd formula.toList.length formula)
  | .operator sum term [] => .ok (Pending.complete sum term)
  | .operator _ _ (_ :: _) => .error (.missingBracket formula.toList.length formula)

end State

/-- The expression that the tokens of `formula` form. -/
def parseTokens (limits : Limits) (formula : String) (tokens : List Token) : Except Error Expr := do
  let state ← tokens.foldlM (State.step limits formula) State.initial
  state.finish formula

/-- The expression that a formula writes. -/
def parse (limits : Limits) (formula : String) : Except Error Expr := do
  let tokens ← tokens limits formula
  parseTokens limits formula tokens

end Stylesheet.Formula
