/-
Scalars as they are written in YAML: plain, in single quotes and in double quotes. A line end
inside a scalar counts as a space, and empty lines after it as themselves.
-/
import Stylesheet.Document.Json.Token
import Stylesheet.Document.Yaml.Cursor

namespace Stylesheet.Document.Yaml

/-- The value of a line end that is followed by the given further line ends. -/
def foldLines (first : Char) (breaks : List Char) : List Char :=
  if first ≠ '\n' then first :: breaks
  else if breaks.isEmpty then [' ']
  else breaks

/-! ## Plain scalars -/

/-- The characters that divide flow collections. -/
def isFlowMark (c : Char) : Bool := c == ',' || c == '[' || c == ']' || c == '{' || c == '}'

/-- A word of a plain scalar: up to a blank, a colon that ends a key, or the end of an item. -/
def plainWord (inFlow : Bool) : List Char → List Char
  | [] => []
  | c :: rest =>
    let endsKey := c == ':' &&
      (endsWord rest || (inFlow && (rest.head?.map isFlowMark).getD false))
    if isSpaceOrTab c || isBreak c || endsKey || (inFlow && (isFlowMark c || c == '?')) then []
    else c :: plainWord inFlow rest

/-- Line ends with the spaces between them; stops before a document divider. -/
def plainBreaks (c : Cursor) (breaks : List Char) : Option (List Char × Cursor) :=
  match c.peek? with
  | some ' ' =>
    if c.next.rest.length < c.rest.length then plainBreaks c.next breaks else none
  | _ =>
    match c.lineEnd? with
    | some (char, after) =>
      if after.atDivider then none
      else if after.rest.length < c.rest.length then plainBreaks after (breaks ++ [char])
      else none
    | none => some (breaks, c)
termination_by c.rest.length

/-- What stands between two words of a plain scalar. -/
structure PlainGap where
  /-- Empty if the scalar ends here. -/
  value : List Char
  after : Cursor
  crossedLine : Bool

def plainGap (c : Cursor) : PlainGap :=
  let (spaces, c₁) := c.span (· == ' ')
  match c₁.lineEnd? with
  | some (first, c₂) =>
    if c₂.atDivider then ⟨[], c₂, true⟩
    else match plainBreaks c₂ [] with
      | some (breaks, c₃) => ⟨foldLines first breaks, c₃, true⟩
      | none => ⟨[], c₂, true⟩
  | none => ⟨spaces, c₁, false⟩

/-- A plain scalar from its first word on; in block context its lines are indented by at least
`indent`. -/
def plainText (inFlow : Bool) (indent : Int) (c : Cursor) (text gap : List Char)
    (crossedLine : Bool) : PlainGap :=
  let word := plainWord inFlow c.rest
  if c.peek? == some '#' || word.isEmpty then ⟨text, c, crossedLine⟩
  else
    let following := plainGap (c.advance word.length)
    let text := text ++ gap ++ word
    if following.value.isEmpty || following.after.peek? == some '#' ||
        (!inFlow && decide ((following.after.column : Int) < indent)) then
      ⟨text, following.after, following.crossedLine⟩
    else if following.after.rest.length < c.rest.length then
      plainText inFlow indent following.after text following.value following.crossedLine
    else ⟨text, following.after, following.crossedLine⟩
termination_by c.rest.length

/-! ## Quoted scalars -/

/-- Line ends with the blanks between them; a document divider must not stand here. -/
def quotedBreaks (c : Cursor) (breaks : List Char) : Reading (List Char × Cursor) :=
  if c.atDivider then malformed
  else
    let (_, c₁) := c.span isSpaceOrTab
    match c₁.lineEnd? with
    | some (char, c₂) =>
      if c₂.rest.length < c.rest.length then quotedBreaks c₂ (breaks ++ [char]) else malformed
    | none => .ok (breaks, c₁)
termination_by c.rest.length

/-- The characters that letters stand for after a backslash. -/
def escapes : List (Char × Char) :=
  [('0', '\x00'), ('a', '\x07'), ('b', '\x08'), ('t', '\t'), ('\t', '\t'), ('n', '\n'),
    ('v', '\x0B'), ('f', '\x0C'), ('r', '\r'), ('e', '\x1B'), (' ', ' '), ('"', '"'),
    ('\\', '\\'), ('/', '/'), ('N', '\u0085'), ('_', '\u00A0'), ('L', '\u2028'), ('P', '\u2029')]

/-- The hexadecimal digits that follow a letter. -/
def codeLength? : Char → Option Nat
  | 'x' => some 2
  | 'u' => some 4
  | 'U' => some 8
  | _ => none

/-- The character of a code point, if it is one. -/
def character (code : Nat) : Reading Char :=
  if code ≤ 0x10FFFF then Reading.ofOption (Json.charOf? code)
  else if code < Nat.pow 2 31 then malformed
  else .error (.overflow .codePoint)

/-- The character of a code point that is written as an escape, and the characters that a second
half of a surrogate pair takes behind it. -/
def codeEscape (code : Nat) (rest : List Char) : Reading (Char × Nat) :=
  match Json.surrogatePair? code rest with
  | some pair => (character pair).map (·, 6)
  | none => (character code).map (·, 0)

/-- The value of an escape, and the place behind it. -/
def quotedEscape (c : Cursor) : Reading (List Char × Cursor) :=
  match c.rest with
  | [] => malformed
  | char :: rest =>
    match escapes.lookup char, codeLength? char with
    | some value, _ => .ok ([value], c.next)
    | none, some length => do
      let code ← Reading.ofOption (Json.hexValue? length rest)
      let (value, more) ← codeEscape code (rest.drop length)
      .ok ([value], c.advance (1 + length + more))
    | none, none =>
      match c.lineEnd? with
      | some (_, after) => quotedBreaks after []
      | none => malformed

/-- The next part of a quoted scalar and the place behind it; nothing at the closing quote. -/
def quotedPart (quote : Char) (c : Cursor) : Reading (Option (List Char × Cursor)) :=
  match c.rest with
  | [] => malformed
  | '\'' :: '\'' :: _ =>
    .ok (some (['\''], if quote = '\'' then c.advance 2 else c.next))
  | char :: _ =>
    if char = quote then .ok none
    else if char = '\\' ∧ quote = '"' then some <$> quotedEscape c.next
    else if isSpaceOrTab char || isBreak char then
      let (blanks, c₁) := c.span isSpaceOrTab
      match c₁.lineEnd? with
      | some (first, c₂) => do
        let (breaks, c₃) ← quotedBreaks c₂ []
        .ok (some (foldLines first breaks, c₃))
      | none => if c₁.rest.isEmpty then malformed else .ok (some (blanks, c₁))
    else .ok (some ([char], c.next))

/-- The text of a scalar up to its closing quote, and the place behind the quote. -/
def quotedText (quote : Char) (c : Cursor) (text : List Char) : Reading (List Char × Cursor) :=
  match quotedPart quote c with
  | .error fault => .error fault
  | .ok none => .ok (text, c.next)
  | .ok (some (value, after)) =>
    if after.rest.length < c.rest.length then quotedText quote after (text ++ value)
    else malformed
termination_by c.rest.length

end Stylesheet.Document.Yaml
