import Stylebook.Json
import Stylebook.Wire

/-! Nodes as structured text for people to read. -/
namespace Stylebook

/-- Doubles between `1e-5` and `1e16` are written with a point, others with an exponent and its sign. -/
def WireValue.doubleLayout : Layout :=
  { tie := .even, least := some (-5), most := some 15, pointZero := true, plusSign := true }

/-- What is no number is written as nothing. -/
def WireValue.doubleJson (x : Binary64) : Json :=
  if x.isFinite then .number (doubleLayout.render x) else .null

def WireValue.json : WireValue → Json
  | .string s => .object [("String", .ofString s)]
  | .int n => .object [("Int", .ofInt n.toInt)]
  | .double x => .object [("Double", doubleJson x)]

def WireDeclaration.json (d : WireDeclaration) : Json :=
  .object [("attribute", .object [("name", .ofString d.name), ("value", d.value.json)]),
    ("priority", .ofInt d.priority.toInt), ("order", .ofInt d.order.toInt), ("id", .ofInt d.id.toInt)]

namespace RuleIndex

def optionJson {α : Type} (f : α → Json) : Option α → Json
  | none => .null
  | some a => f a

def namedJson (r : NamedRule Json) : Json := .object [("name", .ofString r.name), ("node", r.node)]

def attributeJson (r : AttributeRule Json) : Json :=
  .object [("attribute", .ofString r.name), ("value", .ofString r.value), ("kind", .string "Equals"),
    ("node", r.node)]

def nthJson (r : NthRule Json) : Json :=
  let int := optionJson fun n : Int32 => .ofInt n.toInt
  .object [("n", int r.step), ("offset", int r.offset), ("node", r.node)]

def json (r : RuleIndex Json) : Json :=
  .object [("id_rules", .array (r.ids.map namedJson)), ("class_rules", .array (r.classes.map namedJson)),
    ("tag_rules", .array (r.tags.map namedJson)),
    ("attribute_rules", .array (r.attributes.map attributeJson)),
    ("first_child_rule", optionJson id r.firstChild), ("last_child_rule", optionJson id r.lastChild),
    ("nth_child_rules", .array (r.nths.map nthJson)),
    ("direct_parent_rules", optionJson id r.parent), ("ancestor_rules", optionJson id r.ancestor)]

end RuleIndex

namespace WireNode

def json : WireNode → Json :=
  fold fun index styles => .object [("rule_index", RuleIndex.optionJson RuleIndex.json index),
    ("styles", .array (styles.map WireDeclaration.json))]

def text (node : WireNode) : String := node.json.pretty 0

end WireNode

end Stylebook
