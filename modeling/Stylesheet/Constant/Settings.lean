/-
Settings of a table of constants: which types hold lists, whether everything has to resolve, and
the limits of formulas. A record of settings is checked field by field, and every fault is told.
-/
import Stylesheet.Document.Data
import Stylesheet.Document.FieldError
import Stylesheet.Formula.Limits

namespace Stylesheet

open Document (Data Scalar FieldError FieldFault)

structure Settings where
  /-- The types whose values are lists of words, in order and without repetition. -/
  listTypes : List String := ["Border", "Insets"]
  /-- Constants that do not resolve are an error. -/
  strict : Bool := true
  limits : Formula.Limits := {}
deriving DecidableEq, Repr, Inhabited

namespace Settings

/-- Values of this type are lists of words; a value without type is none. -/
def isListType (settings : Settings) : Option String → Bool
  | some type => settings.listTypes.contains type
  | none => false

/-! ## Reading settings -/

/-- Puts a name in its place of an ordered list without repetition. -/
def insertOrdered (name : String) : List String → List String
  | [] => [name]
  | head :: rest =>
    if name < head then name :: head :: rest
    else if name = head then head :: rest
    else head :: insertOrdered name rest

/-- The words for true and false, in lower case. -/
def trueWords : List String := ["1", "on", "t", "true", "y", "yes"]

def falseWords : List String := ["0", "off", "f", "false", "n", "no"]

/-- A truth value: itself, one of its words in any case, or the number one or zero. Other numbers
are refused as such only if they are whole and fit into 64 bits. -/
def readBool : Data → Except FieldFault Bool
  | .scalar (.bool value) => .ok value
  | .scalar (.text word) =>
    let lower := String.ofList (word.toList.map Char.toLower)
    if trueWords.contains lower then .ok true
    else if falseWords.contains lower then .ok false
    else .error .noSuchBoolean
  | .scalar (.int value) => ofNumber (.int value)
  | .scalar (.float value) => ofNumber (.float value)
  | _ => .error .notABoolean
where
  ofNumber (value : Scalar) : Except FieldFault Bool :=
    match value.whole? with
    | some 0 => .ok false
    | some 1 => .ok true
    | some n => if -Int.pow 2 63 ≤ n ∧ n < Int.pow 2 63 then .error .noSuchBoolean else .error .notABoolean
    | none => .error .notABoolean

def listTypesField : String := "multi_valued_types"

def strictField : String := "strict"

def limitsField : String := "limits"

/-- The faults of a list of type names, each at its index. -/
def listTypesErrors (items : List Data) : List FieldError :=
  (items.zipIdx.filter fun (item, _) => item.text?.isNone).map fun (_, i) =>
    ⟨[listTypesField, toString i], .notText⟩

def readListTypes (entries : Data.Entries) : Except (List FieldError) (List String) :=
  match Data.field? listTypesField entries with
  | none => .ok ({} : Settings).listTypes
  | some (.list items) =>
    match listTypesErrors items with
    | [] => .ok ((items.filterMap Data.text?).foldr insertOrdered [])
    | errors => .error errors
  | some _ => .error [⟨[listTypesField], .notASet⟩]

def readStrict (entries : Data.Entries) : Except (List FieldError) Bool :=
  match Data.field? strictField entries with
  | none => .ok ({} : Settings).strict
  | some value =>
    match readBool value with
    | .ok strict => .ok strict
    | .error fault => .error [⟨[strictField], fault⟩]

/-- Fields that settings do not have, in the order in which they stand. -/
def unknownFields (entries : Data.Entries) : List FieldError :=
  let known := [listTypesField, strictField, limitsField]
  (entries.filter fun (key, _) => !known.contains key.label).map fun (key, _) =>
    ⟨[key.label], .unknownField⟩

/-- The settings that a record gives, or all its faults: list types, strictness, unknown fields. -/
def read (entries : Data.Entries) (limits : Formula.Limits) : Except (List FieldError) Settings :=
  match readListTypes entries, readStrict entries, unknownFields entries with
  | .ok listTypes, .ok strict, [] => .ok { listTypes, strict, limits }
  | listTypes, strict, unknown =>
    .error (FieldError.all listTypes ++ FieldError.all strict ++ unknown)

end Settings

end Stylesheet
