import Stylebook.Attribute
import Stylebook.Json.Reader

/-! What can be chosen about a compile, and its written form. -/
namespace Stylebook

structure Options where
  inheritedProperties : List String
  /-- Kinds by property name, in increasing order. -/
  attributeTypes : List (String × Kind)
  /-- What all class identifiers start with. -/
  classPrefix : Option String
  deriving DecidableEq

namespace Options

def standard : Options := ⟨Inherited.defaultNames, Registry.defaultEntries, none⟩

def registry (o : Options) : Registry := .ofEntries o.attributeTypes

def inherited (o : Options) : Inherited := .ofNames o.inheritedProperties

def kindText : Kind → String
  | .string => "string"
  | .int => "int"
  | .double => "double"

def kind? : String → Option Kind
  | "string" => some .string
  | "int" => some .int
  | "double" => some .double
  | _ => none

def toJson (o : Options) : Json :=
  .object [("inheritedProperties", .array (o.inheritedProperties.map Json.ofString)),
    ("attributeTypes", .object (o.attributeTypes.map fun (name, kind) =>
      (Json.escape name, .string (kindText kind)))),
    ("classPrefix", o.classPrefix.elim .null Json.ofString)]

def text (o : Options) : String := o.toJson.compact

def readString? : Json → Option String
  | .string written => Json.unescape? written
  | _ => none

def readStrings? : Json → Option (List String)
  | .array items => items.mapM readString?
  | _ => none

/-- A kind is written as its name, or as the name with nothing. -/
def readKind? : Json → Option Kind
  | .string written => Json.unescape? written >>= kind?
  | .object [(written, .null)] => Json.unescape? written >>= kind?
  | _ => none

/-- Of fields with one name the last counts. -/
def readKinds? : Json → Option (List (String × Kind))
  | .object fields => do
    let entries ← fields.mapM fun (written, j) => do return (← Json.unescape? written, ← readKind? j)
    return Ordered.ofEntries Ordered.word Prod.fst entries
  | _ => none

def readPrefix? : Json → Option (Option String)
  | .null => some none
  | .string written => (Json.unescape? written).map some
  | _ => none

/-- The values given so far for the three fields. -/
structure Draft where
  inheritedProperties : Option (List String)
  attributeTypes : Option (List (String × Kind))
  classPrefix : Option (Option String)

namespace Draft

def empty : Draft := ⟨none, none, none⟩

/-- Takes one more field. Unknown fields are passed over, and none can be given twice. -/
def add? (d : Draft) (name : String) (j : Json) : Option Draft :=
  if name = "inheritedProperties" then
    if d.inheritedProperties.isSome then none
    else (readStrings? j).map fun v => { d with inheritedProperties := some v }
  else if name = "attributeTypes" then
    if d.attributeTypes.isSome then none
    else (readKinds? j).map fun v => { d with attributeTypes := some v }
  else if name = "classPrefix" then
    if d.classPrefix.isSome then none
    else (readPrefix? j).map fun v => { d with classPrefix := some v }
  else some d

/-- Fields that are not given are as in the standard options. -/
def finish (d : Draft) : Options where
  inheritedProperties := d.inheritedProperties.getD standard.inheritedProperties
  attributeTypes := d.attributeTypes.getD standard.attributeTypes
  classPrefix := d.classPrefix.getD standard.classPrefix

end Draft

def fieldNames : List String := ["inheritedProperties", "attributeTypes", "classPrefix"]

/-- Options are an object, or a list of the fields' values in order from which the last may be missing. -/
def ofJson? : Json → Option Options
  | .object fields => do
    let d ← fields.foldlM (fun (d : Draft) (written, j) => do d.add? (← Json.unescape? written) j) .empty
    return d.finish
  | .array items =>
    if items.length ≤ fieldNames.length then
      ((fieldNames.zip items).foldlM (fun (d : Draft) (name, j) => d.add? name j) .empty).map Draft.finish
    else none
  | _ => none

def ofText? (text : String) : Option Options := Json.parse? text >>= ofJson?

end Options

end Stylebook
