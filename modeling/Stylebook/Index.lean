import Stylebook.Matching
import Stylebook.Rule

/-! The index of declarations: a trie whose paths are selectors, predicate by predicate, from the
rightmost compound outward. A look-up starts from what an element is and walks to its ancestors. -/
namespace Stylebook

/-- One step of a path: a predicate of the current element, or a step outward. -/
inductive Edge
  | id (name : String)
  | className (name : String)
  | tag (name : String)
  | attr (name value : String)
  | firstChild
  | lastChild
  | nthChild (nth : NthChild)
  | parent
  | ancestor
  deriving DecidableEq

/-- The edges that an element is looked up by: its id, its classes and its tag. -/
def Element.labels (e : Element) : List Edge :=
  e.id.toList.map .id ++ e.classes.map .className ++ [.tag e.tag]

def ElementTree.labels (doc : ElementTree) (n : NodeId) : List Edge :=
  ((doc.element? n).map Element.labels).getD []

namespace Edge

/-- The elements at which a look-up goes on behind the edge. -/
def targets (doc : ElementTree) (n : NodeId) : Edge → List NodeId
  | id name => if id name ∈ doc.labels n then [n] else []
  | className name => if className name ∈ doc.labels n then [n] else []
  | tag name => if tag name ∈ doc.labels n then [n] else []
  | attr name value => if doc.hasAttribute n name value then [n] else []
  | firstChild => if doc.isFirstChild n then [n] else []
  | lastChild => if doc.isLastChild n then [n] else []
  | nthChild nth => if doc.isNthChild n nth then [n] else []
  | parent => (doc.parent? n).toList
  | ancestor => doc.ancestors n

def id? : Edge → Option String
  | id name => some name
  | _ => none

def className? : Edge → Option String
  | className name => some name
  | _ => none

def tag? : Edge → Option String
  | tag name => some name
  | _ => none

def attr? : Edge → Option (String × String)
  | attr name value => some (name, value)
  | _ => none

def nthChild? : Edge → Option NthChild
  | nthChild nth => some nth
  | _ => none

def ofLink : Link → Edge
  | .child => parent
  | .descendant => ancestor

end Edge

/-- The predicates of a compound in a fixed order, so that equal compounds have equal paths. -/
def Compound.path (c : Compound) : List Edge :=
  c.ids.map .id ++ c.classes.map .className ++ (c.tag.map Edge.tag).toList ++
    c.attributes.map (fun (name, value) => .attr name value) ++
    (if c.firstChild then [.firstChild] else []) ++ (if c.lastChild then [.lastChild] else []) ++
    c.nths.map .nthChild

def Term.path (t : Term) : List Edge :=
  t.head.path ++ t.outer.flatMap fun (link, c) => .ofLink link :: c.path

/-- The edges out of a node, in the order of their creation, each with the node it leads to. -/
inductive Branches
  | none
  | branch (edge : Edge) (declarations : List Declaration) (children siblings : Branches)
  deriving DecidableEq

/-- Declarations of the selectors that end here, and what lies further. -/
structure IndexNode where
  declarations : List Declaration
  branches : Branches
  deriving DecidableEq

namespace Branches

def toList : Branches → List (Edge × IndexNode)
  | none => []
  | branch edge declarations children siblings =>
    (edge, ⟨declarations, children⟩) :: siblings.toList

/-- The number of nodes behind the edges. -/
def size : Branches → Nat
  | none => 0
  | branch _ _ children siblings => 1 + children.size + siblings.size

def declarationCount : Branches → Nat
  | none => 0
  | branch _ declarations children siblings =>
    declarations.length + children.declarationCount + siblings.declarationCount

/-- Changes the node behind an edge, which is made if it is missing. -/
def modify (edge : Edge) (f : IndexNode → IndexNode) : Branches → Branches
  | none =>
    let node := f ⟨[], none⟩
    branch edge node.declarations node.branches none
  | branch e declarations children siblings =>
    if e = edge then
      let node := f ⟨declarations, children⟩
      branch e node.declarations node.branches siblings
    else branch e declarations children (siblings.modify edge f)

/-- The declarations that a look-up meets behind the edges. -/
def visit (doc : ElementTree) : Branches → NodeId → List Declaration
  | none, _ => []
  | branch edge declarations children siblings, n =>
    (edge.targets doc n).flatMap (fun m => declarations ++ children.visit doc m) ++
      siblings.visit doc n

end Branches

namespace IndexNode

def empty : IndexNode := ⟨[], .none⟩

def isLeaf (node : IndexNode) : Bool := node.branches = .none

/-- Adds declarations at the end of a path. -/
def insert (ds : List Declaration) : List Edge → IndexNode → IndexNode
  | [], node => { node with declarations := node.declarations ++ ds }
  | edge :: path, node => { node with branches := node.branches.modify edge (insert ds path) }

/-- The declarations that a look-up meets from here on. -/
def visit (doc : ElementTree) (node : IndexNode) (n : NodeId) : List Declaration :=
  node.declarations ++ node.branches.visit doc n

end IndexNode

/-- The root of the trie, and the number of declarations stamped so far. -/
structure Index where
  root : IndexNode
  issued : Nat
  deriving DecidableEq

namespace Index

def empty : Index := ⟨.empty, 0⟩

/-- The number of nodes, the root among them. -/
def size (i : Index) : Nat := 1 + i.root.branches.size

def isEmpty (i : Index) : Bool := i.size == 1 && i.root.declarations.isEmpty

def declarationCount (i : Index) : Nat :=
  i.root.declarations.length + i.root.branches.declarationCount

/-- Stamps attributes and puts them at the end of the selector's path. -/
def insert (i : Index) (attributes : List Attribute) (t : Term) (s : Specificity) : Index where
  root := i.root.insert (Declaration.stamp s.priority i.issued attributes) t.path
  issued := i.issued + attributes.length

def addRule (i : Index) (r : Rule) : Index :=
  r.terms.foldl (fun i t => i.insert r.attributes t t.specificity) i

def addRules (i : Index) (rs : List Rule) : Index := rs.foldl addRule i

/-- Adds the rules of a stylesheet up to the first that cannot be made ready. If there is none, the
selectors of all rules are the answer. -/
def addStylesheet (i : Index) (registry : Registry) (sheet : Stylesheet) :
    Index × Except TermError (List Term) :=
  StyleRule.addAllTo addRule registry i sheet.rules

theorem fst_addStylesheet (i : Index) (registry : Registry) (sheet : Stylesheet) :
    (i.addStylesheet registry sheet).1 = i.addRules (Rule.ofStyleRules registry sheet.rules).1 := by
  rw [addStylesheet, StyleRule.addAllTo_eq, addRules]

/-- What is reported when attributes are put under a selector. -/
def insertEvent (attributes : List Attribute) (t : Term) (s : Specificity) : Event :=
  let priority := String.ofList (Nat.toDigits 16 s.priority)
  ⟨.trace, s!"Indexing {attributes.length} declaration(s) under '{t.text}' with priority 0x{priority}"⟩

def ruleEvents (r : Rule) : List Event :=
  r.warnings ++ r.terms.map fun t => insertEvent r.attributes t t.specificity

def visit (doc : ElementTree) (i : Index) (n : NodeId) : List Declaration := i.root.visit doc n

/-- The strongest declaration of each name among those met by a look-up. -/
def matched (i : Index) (doc : ElementTree) (n : NodeId) : Styles := .strongest (i.visit doc n)

end Index

end Stylebook
