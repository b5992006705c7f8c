/-
Tokens of a formula: numbers, operators and brackets with their positions. Blanks between tokens
are dropped, and the first character that starts no token is refused. The end token stands where
the scan over the positions ends.
-/
import Stylesheet.Text.Numeral
import Stylesheet.Formula.Error

namespace Stylesheet.Formula

open Stylesheet.Text (Numeral)

inductive Lexeme
  | number (numeral : Numeral)
  | plus
  | minus
  | star
  | slash
  | openBracket
  | closeBracket
deriving DecidableEq, Repr

namespace Lexeme

def text : Lexeme → List Char
  | number numeral => numeral.text
  | plus => ['+']
  | minus => ['-']
  | star => ['*']
  | slash => ['/']
  | openBracket => ['(']
  | closeBracket => [')']

/-- The token that a single character is. -/
def ofChar? : Char → Option Lexeme
  | '+' => some plus
  | '-' => some minus
  | '*' => some star
  | '/' => some slash
  | '(' => some openBracket
  | ')' => some closeBracket
  | _ => none

end Lexeme

/-- A lexeme and the position of its first character. -/
structure Token where
  lexeme : Lexeme
  position : Nat
deriving DecidableEq, Repr

/-- Formulas are spaced by these four characters only. -/
def isSpace (c : Char) : Bool := c == ' ' || c == '\t' || c == '\n' || c == '\r'

/-- The tokens of a text that stands at `position`, or its first stray character. -/
def scan (position : Nat) (s : List Char) : Except (Char × Nat) (List Token) :=
  match s with
  | [] => .ok []
  | c :: rest =>
    if isSpace c then scan (position + 1) rest
    else match Lexeme.ofChar? c with
      | some lexeme => (scan (position + 1) rest).map (⟨lexeme, position⟩ :: ·)
      | none =>
        match h : Numeral.split? Char.isDigit (c :: rest) with
        | some (numeral, after) =>
          have : after.length < rest.length + 1 := Numeral.length_lt_of_split? h
          (scan (position + numeral.text.length) after).map (⟨.number numeral, position⟩ :: ·)
        | none => .error (c, position)
termination_by s.length

/-- The tokens of a formula; its length is checked first. -/
def tokens (limits : Limits) (formula : String) : Except Error (List Token) := do
  limits.checkLength formula.toList.length
  match scan 0 formula.toList with
  | .ok tokens => .ok tokens
  | .error (c, position) => .error (.strayCharacter c position formula)

/-! ## The end token -/

/-- Tokens, and the position of the end token behind them. -/
structure TokenList where
  tokens : List Token
  stop : Nat
deriving DecidableEq, Repr

/-- Scans a text on from a position, behind the tokens found so far. -/
def scanFrom (s : List Char) (position : Nat) (found : List Token) : Except (Char × Nat) TokenList :=
  match hs : s.drop position with
  | [] => .ok ⟨found, position⟩
  | c :: rest =>
    have hlt : position < s.length := by
      have := congrArg List.length hs
      rw [List.length_drop, List.length_cons] at this
      omega
    if isSpace c then scanFrom s (position + 1) found
    else match Lexeme.ofChar? c with
      | some lexeme => scanFrom s (position + 1) (found ++ [⟨lexeme, position⟩])
      | none =>
        match h : Numeral.split? Char.isDigit (c :: rest) with
        | some (numeral, _) =>
          have := Numeral.length_pos_of_split? h
          scanFrom s (position + numeral.text.length) (found ++ [⟨.number numeral, position⟩])
        | none => .error (c, position)
termination_by s.length - position

/-- The tokens of a formula, and its end token. -/
def tokenize (limits : Limits) (formula : String) : Except Error TokenList := do
  limits.checkLength formula.toList.length
  match scanFrom formula.toList 0 [] with
  | .ok list => .ok list
  | .error (c, position) => .error (.strayCharacter c position formula)

end Stylesheet.Formula
