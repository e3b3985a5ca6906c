import Stylebook.ElementTree
import Stylebook.Term

/-! When a selector in canonical form holds of an element. -/
namespace Stylebook

namespace ElementTree

def hasId (doc : ElementTree) (n : NodeId) (name : String) : Bool :=
  (doc.element? n).any fun e => e.id == some name

def hasClass (doc : ElementTree) (n : NodeId) (name : String) : Bool :=
  (doc.element? n).any fun e => e.hasClass name

def hasTag (doc : ElementTree) (n : NodeId) (name : String) : Bool :=
  (doc.element? n).any fun e => e.tag == name

def hasAttribute (doc : ElementTree) (n : NodeId) (name value : String) : Bool :=
  (doc.element? n).any fun e => e.getAttribute? name == some value

def isFirstChild (doc : ElementTree) (n : NodeId) : Bool := doc.siblingIndex? n == some 0

def isLastChild (doc : ElementTree) (n : NodeId) : Bool :=
  (doc.siblingIndex? n).any fun i => i + 1 == doc.siblingCount n

def isNthChild (doc : ElementTree) (n : NodeId) (nth : NthChild) : Bool :=
  (doc.siblingIndex? n).any nth.matchesIndex

end ElementTree

/-- All predicates of the compound hold of the element, which must exist. -/
def Compound.holds (doc : ElementTree) (c : Compound) (n : NodeId) : Bool :=
  doc.contains n && c.ids.all (doc.hasId n) && c.classes.all (doc.hasClass n) &&
    c.tag.all (doc.hasTag n) && c.attributes.all (fun (name, value) => doc.hasAttribute n name value) &&
    (!c.firstChild || doc.isFirstChild n) && (!c.lastChild || doc.isLastChild n) &&
    c.nths.all (doc.isNthChild n)

/-- The elements that the compound on the left may stand for. -/
def Link.targets (doc : ElementTree) (n : NodeId) : Link → List NodeId
  | .child => (doc.parent? n).toList
  | .descendant => doc.ancestors n

namespace Term

/-- The outer compounds can be placed on ancestors of an element, each within reach of the one before. -/
def outerHolds (doc : ElementTree) : List (Link × Compound) → NodeId → Bool
  | [], _ => true
  | (link, c) :: outer, n =>
    (link.targets doc n).any fun m => c.holds doc m && outerHolds doc outer m

def holds (doc : ElementTree) (t : Term) (n : NodeId) : Bool :=
  t.head.holds doc n && outerHolds doc t.outer n

end Term

end Stylebook
