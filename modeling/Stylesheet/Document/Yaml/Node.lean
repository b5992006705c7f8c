/-
Nodes of YAML text, read from its tokens one by one. What is open is kept as frames, innermost
first; a node that is left out counts as an empty plain scalar.
-/
import Stylesheet.Document.Yaml.Token

namespace Stylesheet.Document.Yaml

inductive Node
  | scalar (plain : Bool) (text : List Char)
  | sequence (items : List Node)
  | mapping (entries : List (Node × Node))

/-- A node that is left out. -/
def Node.empty : Node := .scalar true []

/-- A collection whose next node is due. Items and entries are kept the last first. -/
inductive Frame
  | blockItem (items : List Node)
  /-- An item of a sequence that is not indented more than the mapping around it. -/
  | flatItem (items : List Node)
  | blockKey (entries : List (Node × Node))
  | blockValue (entries : List (Node × Node)) (key : Node)
  | flowItem (items : List Node)
  | flowKey (entries : List (Node × Node))
  /-- A key without a value. -/
  | flowLoneKey (entries : List (Node × Node))
  | flowValue (entries : List (Node × Node)) (key : Node)
  /-- The key and the value of a mapping that is one item of a flow sequence. -/
  | pairKey (items : List Node)
  | pairValue (items : List Node) (key : Node)

inductive State
  | start
  /-- The node of a document is due. -/
  | root
  /-- The node of the innermost frame is due. -/
  | node (frame : Frame) (outer : List Frame)
  | blockSequence (items : List Node) (outer : List Frame)
  | flatSequence (items : List Node) (outer : List Frame)
  | blockMapping (entries : List (Node × Node)) (outer : List Frame)
  /-- A key is read, and its colon may follow. -/
  | blockKeyed (entries : List (Node × Node)) (key : Node) (outer : List Frame)
  /-- In a flow collection, `fresh` until it has an item or entry. -/
  | flowSequence (fresh : Bool) (items : List Node) (outer : List Frame)
  | flowMapping (fresh : Bool) (entries : List (Node × Node)) (outer : List Frame)
  | flowKeyed (entries : List (Node × Node)) (key : Node) (outer : List Frame)
  | pairKeyed (items : List Node) (key : Node) (outer : List Frame)
  /-- The node of the document is complete. -/
  | complete (n : Node)
  /-- The document is marked as ended. -/
  | ended (n : Node)

namespace State

/-- The state after a node is complete. -/
def fill (n : Node) : List Frame → State
  | [] => complete n
  | .blockItem items :: outer => blockSequence (n :: items) outer
  | .flatItem items :: outer => flatSequence (n :: items) outer
  | .blockKey entries :: outer => blockKeyed entries n outer
  | .blockValue entries key :: outer => blockMapping ((key, n) :: entries) outer
  | .flowItem items :: outer => flowSequence false (n :: items) outer
  | .flowKey entries :: outer => flowKeyed entries n outer
  | .flowLoneKey entries :: outer => flowMapping false ((n, .empty) :: entries) outer
  | .flowValue entries key :: outer => flowMapping false ((key, n) :: entries) outer
  | .pairKey items :: outer => pairKeyed items n outer
  | .pairValue items key :: outer => flowSequence false (.mapping [(key, n)] :: items) outer

/-! ## Nodes -/

/-- The state after the first token of a node; block collections start in block context only. -/
def startNode (inBlock : Bool) (outer : List Frame) : Token → Option State
  | .scalar plain text => some (fill (.scalar plain text) outer)
  | .openSequence => some (flowSequence true [] outer)
  | .openMapping => some (flowMapping true [] outer)
  | .blockSequence => if inBlock then some (blockSequence [] outer) else none
  | .blockMapping => if inBlock then some (blockMapping [] outer) else none
  | _ => none

/-- The node of a frame is left out when this token follows. -/
def leavesOut : Frame → Token → Bool
  | .blockItem _, t => [.item, .blockEnd].contains t
  | .flatItem _, t => [.item, .key, .value, .blockEnd].contains t
  | .blockKey _, t => [.key, .value, .blockEnd].contains t
  | .blockValue .., t => [.key, .value, .blockEnd].contains t
  | .flowKey _, t => [.value, .comma, .closeMapping].contains t
  | .flowValue .., t => [.comma, .closeMapping].contains t
  | .pairKey _, t => [.value, .comma, .closeSequence].contains t
  | .pairValue .., t => [.comma, .closeSequence].contains t
  | _, _ => false

/-! ## Between nodes -/

def stepBlockMapping (entries : List (Node × Node)) (outer : List Frame) : Token → Option State
  | .key => some (node (.blockKey entries) outer)
  | .blockEnd => some (fill (.mapping entries.reverse) outer)
  | _ => none

def stepBlockKeyed (entries : List (Node × Node)) (key : Node) (outer : List Frame) :
    Token → Option State
  | .value => some (node (.blockValue entries key) outer)
  | t => stepBlockMapping ((key, .empty) :: entries) outer t

def stepBlockSequence (items : List Node) (outer : List Frame) : Token → Option State
  | .item => some (node (.blockItem items) outer)
  | .blockEnd => some (fill (.sequence items.reverse) outer)
  | _ => none

/-- The end of a flat sequence is a token of the mapping around it. -/
def stepFlatSequence (items : List Node) (outer : List Frame) : Token → Option State
  | .item => some (node (.flatItem items) outer)
  | t =>
    match fill (.sequence items.reverse) outer with
    | blockMapping entries outer => stepBlockMapping entries outer t
    | blockKeyed entries key outer => stepBlockKeyed entries key outer t
    | _ => none

/-- The first token of an item of a flow sequence. -/
def startFlowItem (items : List Node) (outer : List Frame) : Token → Option State
  | .key => some (node (.pairKey items) outer)
  | .closeSequence => some (fill (.sequence items.reverse) outer)
  | t => startNode false (.flowItem items :: outer) t

def stepFlowSequence (fresh : Bool) (items : List Node) (outer : List Frame) :
    Token → Option State
  | .closeSequence => some (fill (.sequence items.reverse) outer)
  | .comma => if fresh then none else some (node (.flowItem items) outer)
  | t => if fresh then startFlowItem items outer t else none

def stepPairKeyed (items : List Node) (key : Node) (outer : List Frame) : Token → Option State
  | .value => some (node (.pairValue items key) outer)
  | t => stepFlowSequence false (.mapping [(key, .empty)] :: items) outer t

/-- The first token of an entry of a flow mapping. -/
def startFlowEntry (entries : List (Node × Node)) (outer : List Frame) : Token → Option State
  | .key => some (node (.flowKey entries) outer)
  | .closeMapping => some (fill (.mapping entries.reverse) outer)
  | t => startNode false (.flowLoneKey entries :: outer) t

def stepFlowMapping (fresh : Bool) (entries : List (Node × Node)) (outer : List Frame) :
    Token → Option State
  | .closeMapping => some (fill (.mapping entries.reverse) outer)
  | .comma => if fresh then none else some (node (.flowLoneKey entries) outer)
  | t => if fresh then startFlowEntry entries outer t else none

def stepFlowKeyed (entries : List (Node × Node)) (key : Node) (outer : List Frame) :
    Token → Option State
  | .value => some (node (.flowValue entries key) outer)
  | t => stepFlowMapping false ((key, .empty) :: entries) outer t

/-- A token between the nodes of a collection. -/
def stepBetween : State → Token → Option State
  | blockSequence items outer, t => stepBlockSequence items outer t
  | flatSequence items outer, t => stepFlatSequence items outer t
  | blockMapping entries outer, t => stepBlockMapping entries outer t
  | blockKeyed entries key outer, t => stepBlockKeyed entries key outer t
  | flowSequence fresh items outer, t => stepFlowSequence fresh items outer t
  | flowMapping fresh entries outer, t => stepFlowMapping fresh entries outer t
  | flowKeyed entries key outer, t => stepFlowKeyed entries key outer t
  | pairKeyed items key outer, t => stepPairKeyed items key outer t
  | _, _ => none

/-! ## All states -/

/-- The token where the node of a frame is due. After a comma an item or entry may start in any
way, or the collection may end. -/
def stepNode (frame : Frame) (outer : List Frame) (t : Token) : Option State :=
  if leavesOut frame t then stepBetween (fill .empty (frame :: outer)) t
  else
    match frame, t with
    | .flowItem items, t => startFlowItem items outer t
    | .flowLoneKey entries, t => startFlowEntry entries outer t
    | .blockKey _, .item => some (node (.flatItem []) (frame :: outer))
    | .blockValue .., .item => some (node (.flatItem []) (frame :: outer))
    | .blockItem _, t => startNode true (frame :: outer) t
    | .flatItem _, t => startNode true (frame :: outer) t
    | .blockKey _, t => startNode true (frame :: outer) t
    | .blockValue .., t => startNode true (frame :: outer) t
    | _, t => startNode false (frame :: outer) t

/-- One document only is read. -/
def step : State → Token → Option State
  | start, .documentStart => some root
  | start, t => startNode true [] t
  | root, .documentStart => none
  | root, .documentEnd => some (ended .empty)
  | root, t => startNode true [] t
  | node frame outer, t => stepNode frame outer t
  | complete n, .documentEnd => some (ended n)
  | complete _, _ => none
  | ended n, .documentEnd => some (ended n)
  | ended _, _ => none
  | state, t => stepBetween state t

/-- The node of the document, if nothing is open; an empty text has an empty node. -/
def finish : State → Option Node
  | start => some .empty
  | root => some .empty
  | complete n => some n
  | ended n => some n
  | _ => none

end State

/-- The node of a text that holds one document. The tokens in front of a fault are read first, so
a fault among them comes before it. -/
def Node.read (text : List Char) : Reading Node :=
  let (tokens, fault) := scan text
  match tokens.foldlM State.step State.start, fault with
  | none, _ => malformed
  | some _, some fault => .error fault
  | some state, none => Reading.ofOption state.finish

end Stylesheet.Document.Yaml
