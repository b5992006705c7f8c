/-
Tokens of YAML text. Indentation opens and closes block collections, and a node turns out to be a
key only when its colon comes: every node that could be one leaves a mark, and the marks that were
settled become key tokens in the end. A token is read on its own account only when no mark before
it waits any more, which decides what has been read when a fault ends the text.
-/
import Stylesheet.Document.Yaml.Text

namespace Stylesheet.Document.Yaml

inductive Token
  | documentStart
  | documentEnd
  | blockSequence
  | blockMapping
  | blockEnd
  | openSequence
  | closeSequence
  | openMapping
  | closeMapping
  /-- The dash of an item. -/
  | item
  | comma
  | key
  | value
  | scalar (plain : Bool) (text : List Char)
deriving DecidableEq, Repr

/-- A place where a key may start. -/
structure Mark where
  id : Nat
  /-- Nothing but a key can stand here. -/
  required : Bool
  start : Cursor
  /-- The flow collections around it. -/
  flow : Nat

inductive Piece
  | token (t : Token)
  | mark (id : Nat)

structure Scanner where
  cursor : Cursor
  /-- Columns of the open block collections, the innermost first. -/
  indents : List Int := []
  /-- Flow collections that are open. -/
  flow : Nat := 0
  /-- A key may start at the next token. -/
  keyAllowed : Bool := true
  /-- Marks that may still be settled, at most one for each depth of flow collections. -/
  marks : List Mark := []
  /-- Settled marks, and whether their key starts a block mapping. -/
  settled : List (Nat × Bool) := []
  nextMark : Nat := 0
  /-- The last piece first. -/
  pieces : List Piece := []

namespace Scanner

def indent (s : Scanner) : Int := s.indents.headD (-1)

def emit (s : Scanner) (t : Token) : Scanner := { s with pieces := .token t :: s.pieces }

def skip (s : Scanner) (n : Nat) : Scanner := { s with cursor := s.cursor.advance n }

/-! ## Indentation -/

/-- Closes the block collections that are indented more than `column`. -/
def unwind (s : Scanner) (column : Int) : Scanner :=
  if s.flow ≠ 0 then s
  else
    let closed := s.indents.takeWhile (column < ·)
    { s with
      indents := s.indents.drop closed.length
      pieces := closed.map (fun _ => Piece.token .blockEnd) ++ s.pieces }

/-- Opens a block collection, unless one of this indentation is open. -/
def opens (s : Scanner) (column : Int) : Bool := s.indent < column

/-! ## Keys -/

/-- Drops the mark of the present depth; a required one must not be dropped. -/
def dropMark (s : Scanner) : Reading Scanner :=
  if s.marks.any fun m => m.flow == s.flow && m.required then malformed
  else .ok { s with marks := s.marks.filter (·.flow != s.flow) }

/-- A key stands on one line and has at most 1024 characters. -/
def isStale (s : Scanner) (m : Mark) : Bool :=
  m.start.line != s.cursor.line || decide (1024 < s.cursor.index - m.start.index)

def dropStale (s : Scanner) : Reading Scanner :=
  if s.marks.any fun m => s.isStale m && m.required then malformed
  else .ok { s with marks := s.marks.filter (!s.isStale ·) }

/-- Marks the next token as a possible key. -/
def markKey (s : Scanner) : Reading Scanner :=
  if s.keyAllowed then do
    let s ← s.dropMark
    let required := s.flow == 0 && s.indent == s.cursor.column
    let mark : Mark := ⟨s.nextMark, required, s.cursor, s.flow⟩
    .ok { s with
      marks := mark :: s.marks, nextMark := s.nextMark + 1, pieces := .mark mark.id :: s.pieces }
  else .ok s

/-! ## Tokens -/

def documentMarker (s : Scanner) (t : Token) : Reading Scanner := do
  let s ← (s.unwind (-1)).dropMark
  .ok (({ s with keyAllowed := false }.emit t).skip 3)

def openFlow (s : Scanner) (t : Token) : Reading Scanner := do
  let s ← s.markKey
  .ok (({ s with flow := s.flow + 1, keyAllowed := true }.emit t).skip 1)

def closeFlow (s : Scanner) (t : Token) : Reading Scanner :=
  if s.flow = 0 then malformed
  else do
    let s ← s.dropMark
    .ok (({ s with flow := s.flow - 1, keyAllowed := false }.emit t).skip 1)

def flowComma (s : Scanner) : Reading Scanner := do
  let s ← s.dropMark
  .ok (({ s with keyAllowed := true }.emit .comma).skip 1)

/-- A dash opens a sequence only outside flow collections. -/
def blockItem (s : Scanner) : Reading Scanner :=
  if s.flow = 0 ∧ !s.keyAllowed then malformed
  else do
    let column : Int := s.cursor.column
    let s := if s.flow = 0 ∧ s.opens column then
      { s with indents := column :: s.indents }.emit .blockSequence
    else s
    let s ← s.dropMark
    .ok (({ s with keyAllowed := true }.emit .item).skip 1)

/-- A colon settles the mark of its depth, if there is one. -/
def colon (s : Scanner) : Reading Scanner :=
  match s.marks.find? (·.flow == s.flow) with
  | some m =>
    let column : Int := m.start.column
    let opening := s.flow == 0 && s.opens column
    .ok (({ s with
      marks := s.marks.filter (·.flow != s.flow)
      settled := (m.id, opening) :: s.settled
      indents := if opening then column :: s.indents else s.indents
      keyAllowed := false }.emit .value).skip 1)
  | none =>
    if s.flow = 0 then
      if s.keyAllowed then
        let column : Int := s.cursor.column
        let s := if s.opens column then
          { s with indents := column :: s.indents }.emit .blockMapping
        else s
        .ok ((s.emit .value).skip 1)
      else malformed
    else .ok (({ s with keyAllowed := false }.emit .value).skip 1)

def quotedScalar (s : Scanner) (quote : Char) : Reading Scanner := do
  let s ← s.markKey
  let (text, after) ← quotedText quote s.cursor.next []
  .ok ({ s with keyAllowed := false, cursor := after }.emit (.scalar false text))

/-- A plain scalar may start with this. -/
def startsPlain (s : Scanner) (c : Char) (rest : List Char) : Bool :=
  let marks := ['-', '?', ':', ',', '[', ']', '{', '}', '#', '&', '*', '!', '|', '>', '\'', '"',
    '%', '@', '\x60']
  (!isSpaceOrTab c && !isBreak c && !marks.contains c) ||
    (!endsWord rest && (c == '-' || (s.flow == 0 && (c == '?' || c == ':'))))

def plainScalar (s : Scanner) : Reading Scanner := do
  let s ← s.markKey
  let found := plainText (s.flow != 0) (s.indent + 1) s.cursor [] [] false
  .ok ({ s with keyAllowed := found.crossedLine, cursor := found.after }.emit
    (.scalar true found.value))

/-- Reads the token that starts with `c`. -/
def token (s : Scanner) (c : Char) (rest : List Char) : Reading Scanner :=
  if s.cursor.column = 0 ∧ c = '%' then malformed
  else if s.cursor.column = 0 ∧ s.cursor.atMarker '-' then s.documentMarker .documentStart
  else if s.cursor.column = 0 ∧ s.cursor.atMarker '.' then s.documentMarker .documentEnd
  else if c = '[' then s.openFlow .openSequence
  else if c = '{' then s.openFlow .openMapping
  else if c = ']' then s.closeFlow .closeSequence
  else if c = '}' then s.closeFlow .closeMapping
  else if c = ',' then s.flowComma
  else if c = '-' ∧ endsWord rest then s.blockItem
  else if c = '?' ∧ (s.flow ≠ 0 ∨ endsWord rest) then malformed
  else if c = ':' ∧ (s.flow ≠ 0 ∨ endsWord rest) then s.colon
  else if c = '\'' ∨ c = '"' then s.quotedScalar c
  else if s.startsPlain c rest then s.plainScalar
  else malformed

/-! ## The whole text -/

/-- The mark of a piece may still be settled. -/
def isPending (s : Scanner) : Piece → Bool
  | .token _ => false
  | .mark id => s.marks.any fun m => m.id == id && !s.isStale m

/-- The tokens in front of the first mark that waits; a settled mark is a key, perhaps the first of
its mapping. -/
def tokens (s : Scanner) : List Token :=
  (s.pieces.reverse.takeWhile (!s.isPending ·)).flatMap fun
    | .token t => [t]
    | .mark id =>
      match s.settled.lookup id with
      | some true => [.blockMapping, .key]
      | some false => [.key]
      | none => []

/-- Closes what is open at the end of the text. -/
def close (s : Scanner) : Reading Scanner := do
  let s ← (s.unwind (-1)).dropMark
  .ok { s with marks := [] }

/-- Reads one more token, or the end of the text. -/
def next (s : Scanner) : Reading Scanner := do
  let (cursor, crossedLine) := s.cursor.skipGap
  let keyAllowed := s.keyAllowed || (crossedLine && s.flow == 0)
  let s ← { s with cursor, keyAllowed }.dropStale
  let s := s.unwind cursor.column
  match cursor.rest with
  | [] => s.close
  | c :: rest => s.token c rest

/-- Reads all tokens up to the end or the first fault. -/
def run (s : Scanner) : List Token × Option ReadError :=
  match s.next with
  | .error fault => (s.tokens, some fault)
  | .ok after =>
    if after.cursor.rest.length < s.cursor.rest.length then after.run
    else (after.tokens, none)
termination_by s.cursor.rest.length

end Scanner

/-- The tokens of a text that can be read, and the fault that follows them if there is one. -/
def scan (text : List Char) : List Token × Option ReadError :=
  if text.all isAllowed then
    let text := match text with
      | '\uFEFF' :: rest => rest
      | _ => text
    Scanner.run { cursor := { rest := text } }
  else ([], some .malformed)

end Stylesheet.Document.Yaml
