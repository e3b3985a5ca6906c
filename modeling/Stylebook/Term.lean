import Stylebook.NthChild
import Stylebook.Ordered
import Stylebook.Selector

/-! Selectors in canonical form: a chain of compounds, each a set of predicates, so that selectors
that differ only in how they were written are equal. -/
namespace Stylebook

/-- The predicates of one compound, each kind in increasing order and without repetition. -/
structure Compound where
  /-- More than one id is allowed, though no element has two. -/
  ids : List String
  classes : List String
  tag : Option String
  /-- Names with the value they must have. -/
  attributes : List (String × String)
  firstChild : Bool
  lastChild : Bool
  nths : List NthChild
  deriving DecidableEq

namespace Compound

/-- No predicate at all, which holds of every element. -/
def universal : Compound := ⟨[], [], none, [], false, false, []⟩

instance : Inhabited Compound := ⟨universal⟩

def isUniversal (c : Compound) : Bool := c = universal

def specificity (c : Compound) : Specificity where
  ids := .ofNat c.ids.length
  classes := .ofNat (c.classes.length + c.attributes.length + c.nths.length + c.firstChild.toNat +
    c.lastChild.toNat)
  types := if c.tag.isSome then 1 else 0

def text (c : Compound) : String :=
  if c.isUniversal then "*"
  else
    let ids := c.ids.map fun i => s!"#{i}"
    let classes := c.classes.map fun k => s!".{k}"
    let attributes := c.attributes.map fun (name, value) => s!"[{name}=\"{value}\"]"
    let nths := c.nths.map fun n => s!":nth-child({n.text})"
    c.tag.getD "" ++ String.join (ids ++ classes ++ attributes) ++
      (if c.firstChild then ":first-child" else "") ++ (if c.lastChild then ":last-child" else "") ++
      String.join nths

end Compound

/-- How a compound is tied to the one on its left. -/
inductive Link
  | child
  | descendant
  deriving DecidableEq

def Link.text : Link → String
  | .child => " > "
  | .descendant => " "

/-- The rightmost compound, and those to its left, nearest first. -/
structure Term where
  head : Compound
  outer : List (Link × Compound)
  deriving DecidableEq

namespace Term

/-- The chain in which a further compound, still without predicates, follows on the right. -/
def extend (t : Term) (link : Link) : Term := ⟨.universal, (link, t.head) :: t.outer⟩

def specificity (t : Term) : Specificity :=
  t.head.specificity + .sum (t.outer.map fun (_, c) => c.specificity)

/-- The classes of all compounds, from right to left. -/
def allClasses (t : Term) : List String := t.head.classes ++ t.outer.flatMap fun (_, c) => c.classes

def text (t : Term) : String :=
  String.join (t.outer.reverse.map fun (link, c) => c.text ++ link.text) ++ t.head.text

end Term

end Stylebook
