import Stylebook.Matching
import Stylebook.Rule

/-! Rules in a row, tried one after the other: each counts with its strongest selector that holds. -/
namespace Stylebook

/-- A selector of a rule with the rule's declarations as stamped for it. -/
structure CascadeSelector where
  term : Term
  priority : Nat
  declarations : List Declaration
  deriving DecidableEq

/-- The selectors of each rule, and the number of declarations stamped so far. -/
structure Cascade where
  rules : List (List CascadeSelector)
  issued : Nat
  deriving DecidableEq

namespace CascadeSelector

/-- Each selector takes the attributes anew, with stamps of its own. -/
def stampAll (attributes : List Attribute) : Nat → List Term → List CascadeSelector
  | _, [] => []
  | first, t :: ts =>
    let priority := t.specificity.priority
    ⟨t, priority, Declaration.stamp priority first attributes⟩ ::
      stampAll attributes (first + attributes.length) ts

/-- The later of two selectors, unless the earlier one is stronger. -/
def stronger (best : Option CascadeSelector) (s : CascadeSelector) : Option CascadeSelector :=
  match best with
  | some b => if s.priority < b.priority then some b else some s
  | none => some s

/-- The strongest selector that holds of an element, the last of equally strong ones. -/
def best? (doc : ElementTree) (n : NodeId) (ss : List CascadeSelector) : Option CascadeSelector :=
  (ss.filter fun s => s.term.holds doc n).foldl stronger none

end CascadeSelector

namespace Cascade

def empty : Cascade := ⟨[], 0⟩

def addRule (c : Cascade) (r : Rule) : Cascade where
  rules := c.rules ++ [CascadeSelector.stampAll r.attributes c.issued r.terms]
  issued := c.issued + r.declarationCount

def addRules (c : Cascade) (rs : List Rule) : Cascade := rs.foldl addRule c

/-- Adds the rules of a stylesheet up to the first that cannot be made ready. The selectors are not given
back. -/
def addStylesheet (c : Cascade) (registry : Registry) (sheet : Stylesheet) :
    Cascade × Except TermError Unit :=
  let (c, answer) := StyleRule.addAllTo addRule registry c sheet.rules
  (c, answer.map fun _ => ())

theorem fst_addStylesheet (c : Cascade) (registry : Registry) (sheet : Stylesheet) :
    (c.addStylesheet registry sheet).1 = c.addRules (Rule.ofStyleRules registry sheet.rules).1 := by
  rw [addStylesheet, StyleRule.addAllTo_eq, addRules]

def ruleEvents (r : Rule) : List Event := r.warnings

/-- A rule that holds of an element: its position, the selectors it has, and the one that counts. -/
structure Hit where
  index : Nat
  selectors : List CascadeSelector
  selector : CascadeSelector
  deriving DecidableEq

/-- The rules that hold of an element, in order. -/
def rulesFor (c : Cascade) (doc : ElementTree) (n : NodeId) : List Hit :=
  c.rules.zipIdx.filterMap fun (ss, index) =>
    (CascadeSelector.best? doc n ss).map fun s => ⟨index, ss, s⟩

def matched (c : Cascade) (doc : ElementTree) (n : NodeId) : Styles :=
  .strongest ((c.rulesFor doc n).flatMap fun hit => hit.selector.declarations)

end Cascade

end Stylebook
