/-
Tokens of JSON text: punctuation and scalars. Strings hold no raw control characters, and no
surrogate that stands alone, for it is no character; a number with a point or an exponent is a
double, any other a whole number.
-/
import Stylesheet.Document.Data
import Stylesheet.Document.Whole

namespace Stylesheet.Document.Json

inductive Token
  | scalar (value : Scalar)
  | openList
  | closeList
  | openMapping
  | closeMapping
  | colon
  | comma
deriving DecidableEq

/-! ## Strings -/

def hexDigit? (c : Char) : Option Nat :=
  if c.isDigit then some (c.toNat - '0'.toNat)
  else if 'a' ≤ c ∧ c ≤ 'f' then some (c.toNat - 'a'.toNat + 10)
  else if 'A' ≤ c ∧ c ≤ 'F' then some (c.toNat - 'A'.toNat + 10)
  else none

/-- The value of exactly `count` hexadecimal digits at the front. -/
def hexValue? (count : Nat) (s : List Char) : Option Nat := do
  let digits ← (s.take count).mapM hexDigit?
  if digits.length = count then some (digits.foldl (16 * · + ·) 0) else none

/-- The character of a code point; a surrogate is none. -/
def charOf? (code : Nat) : Option Char :=
  if code.isValidChar then some (Char.ofNat code) else none

/-- The second half of a surrogate pair, written as an escape. -/
def lowSurrogate? : List Char → Option Nat
  | '\\' :: 'u' :: rest => do
    let low ← hexValue? 4 rest
    if 0xDC00 ≤ low ∧ low < 0xE000 then some low else none
  | _ => none

/-- The code point of a surrogate pair whose second half is an escape at the front of `rest`. -/
def surrogatePair? (high : Nat) (rest : List Char) : Option Nat :=
  if 0xD800 ≤ high ∧ high < 0xDC00 then
    (lowSurrogate? rest).map fun low => 0x10000 + (high - 0xD800) * 0x400 + (low - 0xDC00)
  else none

/-- The character that an escape stands for, and the characters it takes after the backslash. -/
def escape? : List Char → Option (Char × Nat)
  | '"' :: _ => some ('"', 1)
  | '\\' :: _ => some ('\\', 1)
  | '/' :: _ => some ('/', 1)
  | 'b' :: _ => some ('\x08', 1)
  | 'f' :: _ => some ('\x0C', 1)
  | 'n' :: _ => some ('\n', 1)
  | 'r' :: _ => some ('\r', 1)
  | 't' :: _ => some ('\t', 1)
  | 'u' :: rest => do
    let code ← hexValue? 4 rest
    match surrogatePair? code (rest.drop 4) with
    | some pair => (charOf? pair).map (·, 11)
    | none => (charOf? code).map (·, 5)
  | _ => none

/-- The text up to the closing quote, and what follows the quote. -/
def stringBody? (s : List Char) : Option (List Char × List Char) :=
  match s with
  | [] => none
  | c :: rest =>
    if c = '"' then some ([], rest)
    else if c = '\\' then
      match escape? rest with
      | some (char, taken) =>
        (stringBody? (rest.drop taken)).map fun (text, after) => (char :: text, after)
      | none => none
    else if c.toNat < 0x20 then none
    else (stringBody? rest).map fun (text, after) => (c :: text, after)
termination_by s.length
decreasing_by
  all_goals simp only [List.length_cons, List.length_drop]
  all_goals omega

/-! ## Numbers -/

/-- The digits of an exponent part with their sign, and the characters it takes. -/
def exponent? : List Char → Option (Int × Nat)
  | mark :: rest =>
    if mark = 'e' ∨ mark = 'E' then
      let (negative, signs, body) := match rest with
        | '-' :: body => (true, 1, body)
        | '+' :: body => (false, 1, body)
        | _ => (false, 0, rest)
      let digits := body.takeWhile Char.isDigit
      if digits.isEmpty then none
      else
        let value : Int := Nat.ofDigitChars 10 digits 0
        some (if negative then -value else value, 1 + signs + digits.length)
    else none
  | [] => none

/-- The number at the front, and the characters it takes. -/
def number? (s : List Char) : Option (Scalar × Nat) :=
  let (negative, signs, body) := match s with
    | '-' :: body => (true, 1, body)
    | _ => (false, 0, s)
  let whole := match body with
    | '0' :: _ => ['0']
    | _ => body.takeWhile Char.isDigit
  if whole.isEmpty then none
  else
    let fraction := match body.drop whole.length with
      | '.' :: rest => rest.takeWhile Char.isDigit
      | _ => []
    let taken := whole.length + (if fraction.isEmpty then 0 else fraction.length + 1)
    let value := Nat.ofDigitChars 10 (whole ++ fraction) 0
    match exponent? (body.drop taken) with
    | some (exponent, more) =>
      some (.float (Decimal.toDouble ⟨negative, value, exponent - fraction.length⟩),
        signs + taken + more)
    | none =>
      if fraction.isEmpty then
        (Whole.read whole).toOption.map fun n =>
          (.int (if negative then -n else n), signs + taken)
      else some (.float (Decimal.toDouble ⟨negative, value, -fraction.length⟩), signs + taken)

/-! ## All tokens -/

/-- Names of scalars. -/
def literals : List (List Char × Scalar) :=
  [("null".toList, .null), ("true".toList, .bool true), ("false".toList, .bool false),
    ("NaN".toList, .float .nan), ("Infinity".toList, .float (.infinite false)),
    ("-Infinity".toList, .float (.infinite true))]

/-- The named scalar or number at the front, and the characters it takes. -/
def plainScalar? (s : List Char) : Option (Scalar × Nat) :=
  match literals.find? fun (name, _) => name.isPrefixOf s with
  | some (name, value) => some (value, name.length)
  | none => number? s

def isSpace (c : Char) : Bool := c == ' ' || c == '\t' || c == '\n' || c == '\r'

def Token.ofChar? : Char → Option Token
  | '[' => some openList
  | ']' => some closeList
  | '{' => some openMapping
  | '}' => some closeMapping
  | ':' => some colon
  | ',' => some comma
  | _ => none

theorem length_lt_of_stringBody? {s text rest : List Char} (h : stringBody? s = some (text, rest)) :
    rest.length < s.length := by
  fun_induction stringBody? s generalizing text rest with
  | case1 => cases h
  | case2 => cases h; simp
  | case3 rest' _ char taken _ ih =>
    obtain ⟨⟨t, r⟩, hr, e⟩ := Option.map_eq_some_iff.1 h
    cases e
    have := ih hr
    simp only [List.length_drop, List.length_cons] at this ⊢
    omega
  | case4 => cases h
  | case5 => cases h
  | case6 c rest' _ _ _ ih =>
    obtain ⟨⟨t, r⟩, hr, e⟩ := Option.map_eq_some_iff.1 h
    cases e
    have := ih hr
    simp only [List.length_cons] at this ⊢
    omega

/-- The tokens of a text, if it has only such. -/
def tokens? (s : List Char) : Option (List Token) :=
  match s with
  | [] => some []
  | c :: rest =>
    if isSpace c then tokens? rest
    else if c = '"' then
      match h : stringBody? rest with
      | some (text, after) =>
        have := length_lt_of_stringBody? h
        (tokens? after).map (.scalar (.text (String.ofList text)) :: ·)
      | none => none
    else match Token.ofChar? c with
      | some token => (tokens? rest).map (token :: ·)
      | none =>
        match plainScalar? (c :: rest) with
        | some (value, taken) => (tokens? (rest.drop (taken - 1))).map (.scalar value :: ·)
        | none => none
termination_by s.length
decreasing_by
  all_goals simp only [List.length_cons, List.length_drop]
  all_goals omega

end Stylesheet.Document.Json
