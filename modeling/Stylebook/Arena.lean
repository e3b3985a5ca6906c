import Stylebook.Index

/-! The index laid out as a row of nodes. An edge names the node it leads to by its number, and every kind
of edge has a table of its own; a node that an insertion misses is put at the end of the row. -/
namespace Stylebook

/-- Enters a value under a key, instead of the one that is there. -/
def Table.put {κ ν : Type} [DecidableEq κ] (key : κ) (value : ν) : List (κ × ν) → List (κ × ν)
  | [] => [(key, value)]
  | (k, v) :: entries => if k = key then (key, value) :: entries else (k, v) :: put key value entries

/-- A node: declarations of the selectors that end here, and the numbers of the nodes behind its edges.
Names have one entry each; attributes and progressions are listed in the order of their creation. -/
structure ArenaNode where
  declarations : List Declaration
  ids : List (String × UInt32)
  classes : List (String × UInt32)
  tags : List (String × UInt32)
  attributes : List ((String × String) × UInt32)
  firstChild : Option UInt32
  lastChild : Option UInt32
  nths : List (NthChild × UInt32)
  parent : Option UInt32
  ancestor : Option UInt32
  deriving DecidableEq

namespace ArenaNode

def empty : ArenaNode := ⟨[], [], [], [], [], none, none, [], none, none⟩

instance : Inhabited ArenaNode := ⟨empty⟩

/-- The number of the node behind an edge. -/
def target? (node : ArenaNode) : Edge → Option UInt32
  | .id name => node.ids.lookup name
  | .className name => node.classes.lookup name
  | .tag name => node.tags.lookup name
  | .attr name value => node.attributes.lookup (name, value)
  | .firstChild => node.firstChild
  | .lastChild => node.lastChild
  | .nthChild nth => node.nths.lookup nth
  | .parent => node.parent
  | .ancestor => node.ancestor

/-- Lets an edge lead to a node. What is listed in order of creation is not looked through again. -/
def setTarget (node : ArenaNode) (edge : Edge) (child : UInt32) : ArenaNode :=
  match edge with
  | .id name => { node with ids := Table.put name child node.ids }
  | .className name => { node with classes := Table.put name child node.classes }
  | .tag name => { node with tags := Table.put name child node.tags }
  | .attr name value => { node with attributes := node.attributes ++ [((name, value), child)] }
  | .firstChild => { node with firstChild := some child }
  | .lastChild => { node with lastChild := some child }
  | .nthChild nth => { node with nths := node.nths ++ [(nth, child)] }
  | .parent => { node with parent := some child }
  | .ancestor => { node with ancestor := some child }

/-- All edges with the nodes they lead to, table by table. -/
def edges (node : ArenaNode) : List (Edge × UInt32) :=
  node.ids.map (fun p => (Edge.id p.1, p.2)) ++ node.classes.map (fun p => (Edge.className p.1, p.2)) ++
    node.tags.map (fun p => (Edge.tag p.1, p.2)) ++
    node.attributes.map (fun p => (Edge.attr p.1.1 p.1.2, p.2)) ++
    node.firstChild.toList.map (fun k => (Edge.firstChild, k)) ++
    node.lastChild.toList.map (fun k => (Edge.lastChild, k)) ++
    node.nths.map (fun p => (Edge.nthChild p.1, p.2)) ++
    node.parent.toList.map (fun k => (Edge.parent, k)) ++ node.ancestor.toList.map (fun k => (Edge.ancestor, k))

def isLeaf (node : ArenaNode) : Bool := node.edges.isEmpty

/-- The nodes behind the edges whose predicates hold of an element. Its id, its classes and its tag are looked up;
attributes and progressions are tried one by one. -/
def held (doc : ElementTree) (node : ArenaNode) (n : NodeId) (e : Element) : List UInt32 :=
  e.id.toList.filterMap (node.ids.lookup ·) ++ e.classes.filterMap (node.classes.lookup ·) ++
    (node.tags.lookup e.tag).toList ++
    (node.attributes.filter fun p => e.getAttribute? p.1.1 == some p.1.2).map Prod.snd ++
    (if doc.isFirstChild n then node.firstChild.toList else []) ++
    (if doc.isLastChild n then node.lastChild.toList else []) ++
    (node.nths.filter fun p => doc.isNthChild n p.1).map Prod.snd

/-- Where a look-up goes on from here, and with which element. With an element that is not there it ends. -/
def steps (doc : ElementTree) (node : ArenaNode) (n : NodeId) : List (UInt32 × NodeId) :=
  match doc.element? n with
  | none => []
  | some e =>
    (node.held doc n e).map (fun k => (k, n)) ++
      node.parent.toList.flatMap (fun k => (doc.parent? n).toList.map fun m => (k, m)) ++
      node.ancestor.toList.flatMap (fun k => (doc.ancestors n).map fun m => (k, m))

end ArenaNode

/-- The nodes, the root first, and the number of declarations stamped so far. -/
structure Arena where
  nodes : Array ArenaNode
  issued : Nat
  deriving DecidableEq

namespace Arena

def empty : Arena := ⟨#[.empty], 0⟩

def rootNumber : UInt32 := 0

def size (a : Arena) : Nat := a.nodes.size

def declarationCount (a : Arena) : Nat := a.nodes.foldl (fun k node => k + node.declarations.length) 0

def get? (a : Arena) (n : UInt32) : Option ArenaNode := a.nodes[n.toNat]?

/-- The number of the node behind an edge of a node. -/
def target? (a : Arena) (n : UInt32) (edge : Edge) : Option UInt32 := (a.get? n).bind (·.target? edge)

/-- Nothing but a root that holds nothing. -/
def isEmpty (a : Arena) : Bool := a.size == 1 && (a.get? rootNumber).all (·.declarations.isEmpty)

def modify (a : Arena) (n : UInt32) (f : ArenaNode → ArenaNode) : Arena :=
  { a with nodes := a.nodes.modify n.toNat f }

/-- Puts a new node at the end of the row and lets an edge lead to it. Numbers have 32 bits. -/
def grow (a : Arena) (n : UInt32) (edge : Edge) : Arena × UInt32 :=
  let child := UInt32.ofNat a.size
  ({ a with nodes := a.nodes.push .empty }.modify n (·.setTarget edge child), child)

/-- Follows an edge, behind which a node is made if there is none. -/
def child (a : Arena) (n : UInt32) (edge : Edge) : Arena × UInt32 :=
  match a.target? n edge with
  | some m => (a, m)
  | none => a.grow n edge

/-- Follows a path to its end, with all that it misses made. -/
def descend (a : Arena) (n : UInt32) : List Edge → Arena × UInt32
  | [] => (a, n)
  | edge :: path =>
    let (b, m) := a.child n edge
    b.descend m path

/-- The node at which declarations of a selector are put. -/
def place (a : Arena) (t : Term) : UInt32 := (a.descend rootNumber t.path).2

/-- Puts declarations at a node, behind those that are there. -/
def addDeclarations (a : Arena) (n : UInt32) (ds : List Declaration) : Arena :=
  a.modify n fun node => { node with declarations := node.declarations ++ ds }

/-- Stamps attributes and puts them at the end of the selector's path. -/
def insert (a : Arena) (attributes : List Attribute) (t : Term) (s : Specificity) : Arena :=
  let (b, n) := a.descend rootNumber t.path
  let ds := Declaration.stamp s.priority a.issued attributes
  { b.addDeclarations n ds with issued := a.issued + attributes.length }

def addRule (a : Arena) (r : Rule) : Arena :=
  r.terms.foldl (fun a t => a.insert r.attributes t t.specificity) a

/-- Adds the rules of a stylesheet up to the first that cannot be made ready. -/
def addStylesheet (a : Arena) (registry : Registry) (sheet : Stylesheet) :
    Arena × Except TermError (List Term) :=
  StyleRule.addAllTo addRule registry a sheet.rules

theorem lt_size_of_get? {a : Arena} {n : UInt32} {node : ArenaNode} (h : a.get? n = some node) :
    n.toNat < a.size :=
  (Array.getElem?_eq_some_iff.mp h).1

/-- The declarations that a look-up meets from a node on. Edges lead forward, so that it comes to an end. -/
def visitFrom (doc : ElementTree) (a : Arena) (n : UInt32) (m : NodeId) : List Declaration :=
  match _hnode : a.get? n with
  | none => []
  | some node =>
    node.declarations ++ (node.steps doc m).flatMap fun step =>
      if _hlt : n < step.1 then a.visitFrom doc step.1 step.2 else []
termination_by a.size - n.toNat
decreasing_by
  have hsize := lt_size_of_get? _hnode
  have hforward := UInt32.lt_iff_toNat_lt.mp _hlt
  omega

def visit (doc : ElementTree) (a : Arena) (n : NodeId) : List Declaration := a.visitFrom doc rootNumber n

/-- The strongest declaration of each name among those met by a look-up. -/
def matched (a : Arena) (doc : ElementTree) (n : NodeId) : Styles := .strongest (a.visit doc n)

end Arena

end Stylebook
