/-
A reader for a part of YAML: block and flow collections, and scalars without quotes or in quotes.
It refuses tags, anchors, aliases, block scalars, directives and keys that are collections. Scalars
without quotes get their kinds, and a merge key puts the entries of other mappings in front of its
own. Nothing is proved of it: what is said of loaded documents holds of any reader.
-/
import Stylesheet.Document.Format
import Stylesheet.Document.Yaml.Node
import Stylesheet.Document.Yaml.Scalar

namespace Stylesheet.Document.Yaml

namespace Node

/-- The scalar of a key; a lone equals sign is text here. -/
def key : Node → Reading Scalar
  | scalar true ['='] => .ok (.text "=")
  | scalar true text => Scalar.ofPlain text
  | scalar false text => .ok (.text (String.ofList text))
  | _ => malformed

def isMerge : Node → Bool
  | scalar true ['<', '<'] => true
  | _ => false

def entriesOf : Data → Reading Data.Entries
  | .mapping entries => .ok entries
  | _ => malformed

/-- The mappings that a merge key brings in, the last to count first. -/
def merged : Data → Reading (List Data.Entries)
  | .mapping entries => .ok [entries]
  | .list items => List.reverse <$> items.mapM entriesOf
  | _ => malformed

/-- Gives each key its value in turn. -/
def insertAll (entries : Data.Entries) (into : Data.Entries) : Data.Entries :=
  entries.foldl (fun all (key, value) => Data.insert key value all) into

mutual

/-- The data that a node stands for, if its scalars and keys stand for something. -/
def toData : Node → Reading Data
  | scalar true text => (Scalar.ofPlain text).map .scalar
  | scalar false text => .ok (.scalar (.text (String.ofList text)))
  | sequence items => (itemsToData items).map .list
  | mapping entries => do
    let (front, own) ← entriesToData entries
    .ok (.mapping (insertAll own (front.foldl (fun all more => insertAll more all) [])))

def itemsToData : List Node → Reading (List Data)
  | [] => .ok []
  | item :: rest => do
    let value ← toData item
    let values ← itemsToData rest
    .ok (value :: values)

/-- The merged mappings and the entries of their own keys. -/
def entriesToData : List (Node × Node) → Reading (List Data.Entries × Data.Entries)
  | [] => .ok ([], [])
  | (k, v) :: rest =>
    if k.isMerge then do
      let value ← toData v
      let more ← merged value
      let (front, own) ← entriesToData rest
      .ok (more ++ front, own)
    else do
      let name ← key k
      let value ← toData v
      let (front, own) ← entriesToData rest
      .ok (front, (name, value) :: own)

end

end Node

/-- The data that YAML text holds. -/
def read (text : List Char) : Reading Data := Node.read text >>= Node.toData

/-- Reads YAML documents, and no others. -/
def reader : Reader
  | .yaml, text => read text
  | .json, _ => malformed

end Stylesheet.Document.Yaml
