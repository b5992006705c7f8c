/-
Names in a formula. A formula falls into names, each as long as possible, and the characters
between them; replacing every bound name by the decimal text of its value leaves a formula without
variables.
-/
import Stylesheet.Decimal.Layout
import Stylesheet.Formula.Parse
import Stylesheet.Formula.Eval

namespace Stylesheet.Formula

/-! ## Names -/

def isNameStart (c : Char) : Bool := c.isAlpha || c == '_'

def isNameChar (c : Char) : Bool := isNameStart c || c.isDigit

/-- A letter or underscore, then letters, digits and underscores, all ASCII. -/
def isName : List Char → Bool
  | [] => false
  | c :: rest => isNameStart c && rest.all isNameChar

/-- A part of a formula: a name, or a character outside names. -/
inductive Piece
  | name (text : List Char)
  | gap (char : Char)
deriving DecidableEq, Repr

/-- The pieces of a formula, in order; names are as long as possible. -/
def pieces (s : List Char) : List Piece :=
  match s with
  | [] => []
  | c :: rest =>
    if isNameStart c then
      .name (c :: rest.takeWhile isNameChar) :: pieces (rest.dropWhile isNameChar)
    else .gap c :: pieces rest
termination_by s.length
decreasing_by
  all_goals simp only [List.length_cons]
  · exact Nat.lt_succ_of_le (List.dropWhile_sublist _).length_le
  · exact Nat.lt_succ_self _

def Piece.text : Piece → List Char
  | name text => text
  | gap c => [c]

/-- The pieces make up the formula. -/
theorem flatMap_text_pieces (s : List Char) : (pieces s).flatMap Piece.text = s := by
  fun_induction pieces s with
  | case1 => rfl
  | case2 c rest _ ih =>
    rw [List.flatMap_cons, ih, Piece.text, List.cons_append, List.takeWhile_append_dropWhile]
  | case3 c rest _ ih => rw [List.flatMap_cons, ih, Piece.text, List.singleton_append]

def Piece.name? : Piece → Option String
  | name text => some (String.ofList text)
  | gap _ => none

/-- The names in a formula, in order. -/
def names (formula : String) : List String := (pieces formula.toList).filterMap Piece.name?

/-! ## Substitution -/

/-- Values of names; a name that is bound to not-a-number stands for a value not known yet. -/
abbrev Bindings := String → Option Double

/-- A bound name becomes the decimal text of its value, unless that is not known. -/
def Piece.replace? (bindings : Bindings) : Piece → Option (List Char)
  | gap c => some [c]
  | name text =>
    match bindings (String.ofList text) with
    | none => some text
    | some value => if value.isNaN then none else some value.plainNumeral

/-- The formula with every bound name replaced; absent as soon as one value is not known. -/
def substitute (bindings : Bindings) (formula : String) : Option String := do
  let parts ← (pieces formula.toList).mapM (Piece.replace? bindings)
  some (String.ofList parts.flatten)

/-! ## The value of a formula -/

/-- The value of a formula under bindings; not-a-number if it names a value not known yet. -/
def evaluate (limits : Limits) (bindings : Bindings) (formula : String) : Except Error Double :=
  match substitute bindings formula with
  | none => .ok .nan
  | some formula => do
    let e ← parse limits formula
    e.eval

end Stylesheet.Formula
