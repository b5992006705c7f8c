/-
Extents: whole lengths with a unit.
-/

namespace Stylesheet

inductive ExtentUnit
  | centimetre
  | em
  | ex
  | inch
  | millimetre
  | pica
  | percent
  | point
  | pixel
deriving DecidableEq, Repr

namespace ExtentUnit

def all : List ExtentUnit :=
  [centimetre, em, ex, inch, millimetre, pica, percent, point, pixel]

def name : ExtentUnit → String
  | centimetre => "cm"
  | em => "em"
  | ex => "ex"
  | inch => "in"
  | millimetre => "mm"
  | pica => "pc"
  | percent => "percent"
  | point => "pt"
  | pixel => "px"

/-- What stands behind a number. -/
def suffix : ExtentUnit → String
  | percent => "%"
  | unit => unit.name

/-- The unit of a name or suffix. -/
def ofText? (text : String) : Option ExtentUnit :=
  all.find? fun unit => unit.name == text || unit.suffix == text

end ExtentUnit

structure Extent where
  value : Int
  unit : ExtentUnit
deriving DecidableEq, Repr

namespace Extent

def text (e : Extent) : String := toString e.value ++ e.unit.suffix

/-- The type of the constants that are extents. -/
def typeName : String := "Extent"

end Extent

end Stylesheet
