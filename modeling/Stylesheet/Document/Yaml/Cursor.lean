/-
Places in a YAML text: what follows, and the line and column that it starts at. Five sequences
end a line.
-/

namespace Stylesheet.Document.Yaml

structure Cursor where
  rest : List Char
  index : Nat := 0
  line : Nat := 0
  column : Nat := 0

/-! ## Characters -/

def isBreak (c : Char) : Bool :=
  c == '\n' || c == '\r' || c == '\u0085' || c == '\u2028' || c == '\u2029'

def isSpaceOrTab (c : Char) : Bool := c == ' ' || c == '\t'

/-- Nothing follows, or a blank or the end of a line does. -/
def endsWord : List Char → Bool
  | [] => true
  | c :: _ => isSpaceOrTab c || isBreak c

/-- The characters that a document may hold. -/
def isAllowed (c : Char) : Bool :=
  let n := c.toNat
  n == 0x09 || n == 0x0A || n == 0x0D || (0x20 ≤ n && n ≤ 0x7E) || n == 0x85 ||
    (0xA0 ≤ n && n ≤ 0xD7FF) || (0xE000 ≤ n && n ≤ 0xFFFD) || 0x10000 ≤ n

namespace Cursor

def peek? (c : Cursor) : Option Char := c.rest.head?

/-- One character on. A byte order mark takes no column. -/
def next (c : Cursor) : Cursor :=
  match c.rest with
  | [] => c
  | '\r' :: '\n' :: rest =>
    { c with rest := '\n' :: rest, index := c.index + 1, column := c.column + 1 }
  | char :: rest =>
    if isBreak char then { rest, index := c.index + 1, line := c.line + 1, column := 0 }
    else if char = '\uFEFF' then { c with rest, index := c.index + 1 }
    else { c with rest, index := c.index + 1, column := c.column + 1 }

def advance : Nat → Cursor → Cursor
  | 0, c => c
  | n + 1, c => advance n c.next

/-- The longest run of such characters, and the place behind it. -/
def span (c : Cursor) (p : Char → Bool) : List Char × Cursor :=
  let run := c.rest.takeWhile p
  (run, c.advance run.length)

/-- The end of a line as it counts in a value, and the place behind it. -/
def lineEnd? (c : Cursor) : Option (Char × Cursor) :=
  match c.rest with
  | '\r' :: '\n' :: _ => some ('\n', c.advance 2)
  | char :: _ =>
    if char = '\u2028' ∨ char = '\u2029' then some (char, c.next)
    else if isBreak char then some ('\n', c.next)
    else none
  | [] => none

/-- Three characters that divide documents stand here. -/
def atMarker (c : Cursor) (char : Char) : Bool :=
  [char, char, char].isPrefixOf c.rest && endsWord (c.rest.drop 3)

def atDivider (c : Cursor) : Bool := c.atMarker '-' || c.atMarker '.'

/-- The place after blanks, comments and line ends before the next token, and whether a line
ended. -/
def skipGap (c : Cursor) : Cursor × Bool :=
  let (_, c₁) := c.span (· == ' ')
  let c₂ := if c₁.peek? == some '#' then (c₁.span (!isBreak ·)).2 else c₁
  match c₂.lineEnd? with
  | some (_, c₃) =>
    if c₃.rest.length < c.rest.length then (c₃.skipGap.1, true) else (c₃, true)
  | none => (c₂, false)
termination_by c.rest.length

end Cursor

end Stylesheet.Document.Yaml
