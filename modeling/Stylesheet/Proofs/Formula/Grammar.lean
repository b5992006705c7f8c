/-
The grammar of formulas, by its derivations:

    expression := term { ('+' | '-') term }
    term       := factor { ('*' | '/') factor }
    factor     := '(' expression ')' | '-' factor | atom

A derivation determines the symbols it derives, how deep brackets and minus signs nest in it, and a
tree. The atoms are the numbers of a formula, or its numbers and names.
-/
import Stylesheet.Formula.Parse

namespace Stylesheet.Formula

open Stylesheet.Text (Numeral)

/-! ## Derivations -/

inductive Category
  | expression
  | term
  | factor
deriving DecidableEq, Repr

/-- The signs between terms. -/
inductive Additive
  | plus
  | minus
deriving DecidableEq, Repr

/-- The signs between factors. -/
inductive Multiplicative
  | star
  | slash
deriving DecidableEq, Repr

namespace Additive

def lexeme : Additive → Lexeme
  | plus => .plus
  | minus => .minus

def operator : Additive → Operator
  | plus => .add
  | minus => .sub

end Additive

namespace Multiplicative

def lexeme : Multiplicative → Lexeme
  | star => .star
  | slash => .slash

def operator : Multiplicative → Operator
  | star => .mul
  | slash => .div

end Multiplicative

/-- A derivation of a category, with the positions of its symbols. A repetition is a chain that grows at
its right end. -/
inductive Derivation (α : Type) : Category → Type
  | atom (value : α) (position : Nat) : Derivation α .factor
  | negation (position : Nat) (operand : Derivation α .factor) : Derivation α .factor
  | brackets (opening : Nat) (inner : Derivation α .expression) (closing : Nat) : Derivation α .factor
  | factor (only : Derivation α .factor) : Derivation α .term
  | product (left : Derivation α .term) (sign : Multiplicative) (position : Nat)
      (right : Derivation α .factor) : Derivation α .term
  | term (only : Derivation α .term) : Derivation α .expression
  | sum (left : Derivation α .expression) (sign : Additive) (position : Nat)
      (right : Derivation α .term) : Derivation α .expression
deriving DecidableEq, Repr

namespace Derivation

variable {α β : Type} {c : Category}

/-- The symbols that are derived, in order. -/
def symbols (atom : α → Nat → β) (mark : Lexeme → Nat → β) {c : Category} : Derivation α c → List β
  | .atom value position => [atom value position]
  | .negation position operand => mark .minus position :: operand.symbols atom mark
  | .brackets opening inner closing =>
    mark .openBracket opening :: (inner.symbols atom mark ++ [mark .closeBracket closing])
  | .factor only => only.symbols atom mark
  | .product left sign position right =>
    left.symbols atom mark ++ mark sign.lexeme position :: right.symbols atom mark
  | .term only => only.symbols atom mark
  | .sum left sign position right =>
    left.symbols atom mark ++ mark sign.lexeme position :: right.symbols atom mark

/-- Brackets and minus signs around the innermost atom. -/
def nesting {c : Category} : Derivation α c → Nat
  | .atom .. => 0
  | .negation _ operand => operand.nesting + 1
  | .brackets _ inner _ => inner.nesting + 1
  | .factor only => only.nesting
  | .product left _ _ right => max left.nesting right.nesting
  | .term only => only.nesting
  | .sum left _ _ right => max left.nesting right.nesting

/-- Signs between operands, and minus signs, are the nodes; brackets leave none. -/
def tree (value : α → Double) {c : Category} : Derivation α c → Expr
  | .atom a position => .number position (value a)
  | .negation position operand => .negate position (operand.tree value)
  | .brackets _ inner _ => inner.tree value
  | .factor only => only.tree value
  | .product left sign position right => .binary position sign.operator (left.tree value) (right.tree value)
  | .term only => only.tree value
  | .sum left sign position right => .binary position sign.operator (left.tree value) (right.tree value)

/-- The tokens of a derivation whose atoms are numbers. -/
def tokens (d : Derivation Numeral c) : List Token := d.symbols (fun n position => ⟨.number n, position⟩) Token.mk

end Derivation

/-- The nesting fits: what does not nest always does. -/
def Limits.Admits (limits : Limits) (nesting : Nat) : Prop := nesting = 0 ∨ (nesting : Int) ≤ limits.nesting

/-- Every number can be filled up with zeros. -/
def Limits.Countable (limits : Limits) (ts : List Token) : Prop :=
  ∀ t ∈ ts, ∀ n, t.lexeme = .number n → limits.checkZeros n = .ok ()

end Stylesheet.Formula
