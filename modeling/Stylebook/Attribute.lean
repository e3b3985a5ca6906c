import Stylebook.Event
import Stylebook.Number.Numeral
import Stylebook.Number.Shortest
import Stylebook.Ordered
import Stylebook.Stylesheet
import Stylebook.Text.Blank
import Stylebook.Text.CamelCase

/-! Attributes of elements: their names, the kinds of their values, and which of them are inherited. -/
namespace Stylebook

/-- The kind of value that an attribute is registered for. -/
inductive Kind
  | string
  | int
  | double
  deriving DecidableEq

def Kind.text : Kind → String
  | .string => "String"
  | .int => "Int"
  | .double => "Double"

/-- A value of any kind; the fields of the other kinds are empty or zero. -/
structure Value where
  string : String
  int : Int32
  double : Binary64
  deriving DecidableEq

namespace Value

def ofString (s : String) : Value := ⟨s, 0, .zero⟩

def ofInt (n : Int32) : Value := ⟨"", n, .zero⟩

def ofDouble (x : Binary64) : Value := ⟨"", 0, x⟩

/-- Doubles are always written positionally. -/
def doubleLayout : Layout :=
  { tie := .up, least := none, most := none, pointZero := false, plusSign := false }

/-- The first field that is not empty or zero, the double if none is. -/
def text (v : Value) : String :=
  if !v.string.isEmpty then v.string
  else if v.int ≠ 0 then s!"{v.int.toInt}"
  else doubleLayout.render v.double

/-- The value of the given kind that a text stands for. Blanks around a number do not count. -/
def ofText? (kind : Kind) (raw : String) : Option Value :=
  match kind with
  | .string => some (ofString raw)
  | .int => (Numeral.int32? (Text.trim raw.toList)).map ofInt
  | .double => (Numeral.binary64? (Text.trim raw.toList)).map ofDouble

end Value

structure Attribute where
  name : String
  value : Value
  deriving DecidableEq

/-- The kinds of attributes by their names, which increase. All others are strings. -/
structure Registry where
  kinds : List (String × Kind)
  deriving DecidableEq

namespace Registry

def empty : Registry := ⟨[]⟩

def register (r : Registry) (name : String) (kind : Kind) : Registry :=
  ⟨Ordered.put Ordered.word Prod.fst (name, kind) r.kinds⟩

/-- A registry from property names, taken in increasing order; of two that name one attribute the later
counts. -/
def ofEntries (entries : List (String × Kind)) : Registry :=
  (Ordered.ofEntries Ordered.word Prod.fst entries).foldl
    (fun r (name, kind) => r.register (Text.camelCase name) kind) empty

def defaultEntries : List (String × Kind) :=
  [("aspectRatio", .double), ("flexGrow", .double), ("flexShrink", .double), ("numberOfLines", .int),
    ("opacity", .double), ("zIndex", .int)]

def standard : Registry := ofEntries defaultEntries

def kindOf (r : Registry) (name : String) : Kind := (r.kinds.lookup name).getD .string

/-- The value of an attribute. A text that is no value of the attribute's kind is kept as a string. -/
def valueOf (r : Registry) (name raw : String) : Value :=
  (Value.ofText? (r.kindOf name) raw).getD (.ofString raw)

/-- The warning due when a text is no value of the attribute's kind. -/
def warning? (r : Registry) (name raw : String) : Option Event :=
  match Value.ofText? (r.kindOf name) raw with
  | some _ => none
  | none =>
    let kind := (r.kindOf name).text
    some ⟨.warn, s!"'{raw}' is not a valid {kind} value for '{name}'"⟩

/-- The attribute that a setting in a stylesheet gives. -/
def typed (r : Registry) (s : Setting) : Attribute :=
  let name := Text.camelCase s.property
  ⟨name, r.valueOf name s.value⟩

def typedAll (r : Registry) (ss : List Setting) : List Attribute := ss.map r.typed

def warnings (r : Registry) (ss : List Setting) : List Event :=
  ss.filterMap fun s => r.warning? (Text.camelCase s.property) s.value

end Registry

/-- The names of the attributes that an element takes from its parent when nothing sets them. -/
structure Inherited where
  names : List String
  deriving DecidableEq

namespace Inherited

def none : Inherited := ⟨[]⟩

/-- From property or attribute names. -/
def ofNames (names : List String) : Inherited := ⟨Ordered.ofList Ordered.word (names.map Text.camelCase)⟩

def defaultNames : List String :=
  ["color", "cursor", "direction", "font", "fontFamily", "fontSize", "fontStyle", "fontWeight",
    "letterSpacing", "lineHeight", "textAlign", "textDecoration", "textTransform", "visibility",
    "whiteSpace", "wordSpacing"]

def standard : Inherited := ofNames defaultNames

def contains (i : Inherited) (name : String) : Bool := i.names.contains name

end Inherited

end Stylebook
