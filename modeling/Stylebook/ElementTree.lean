import Stylebook.Element

/-! Elements with parents and children. Nodes are numbered in the order of their creation; a node
without a parent is the root, or detached until it is appended somewhere. -/
namespace Stylebook

abbrev NodeId := Nat

def nodeText (n : NodeId) : String := s!"NodeId({n})"

structure Node where
  element : Element
  parent : Option NodeId
  children : List NodeId
  deriving DecidableEq

/-- Why a tree cannot be changed as asked. -/
inductive TreeError
  | nodeNotFound (node : NodeId)
  | alreadyAttached (child parent : NodeId)
  | invalidAppend (child parent : NodeId)
  deriving DecidableEq

def TreeError.message : TreeError → String
  | nodeNotFound node => s!"Node not found: {node}"
  | alreadyAttached child parent => s!"Node {child} already has parent {parent}"
  | invalidAppend child parent =>
    s!"Invalid operation: cannot append {nodeText child} under {nodeText parent}"

structure ElementTree where
  nodes : Array Node
  deriving DecidableEq

namespace ElementTree

def rootId : NodeId := 0

def ofRoot (root : Element) : ElementTree := ⟨#[⟨root, none, []⟩]⟩

def size (t : ElementTree) : Nat := t.nodes.size

/-- Nothing but the root. -/
def isEmpty (t : ElementTree) : Bool := t.size ≤ 1

def get? (t : ElementTree) (n : NodeId) : Option Node := t.nodes[n]?

def contains (t : ElementTree) (n : NodeId) : Bool := n < t.size

def element? (t : ElementTree) (n : NodeId) : Option Element := (t.get? n).map Node.element

def parent? (t : ElementTree) (n : NodeId) : Option NodeId := (t.get? n).bind Node.parent

def children (t : ElementTree) (n : NodeId) : List NodeId := ((t.get? n).map Node.children).getD []

/-- At most `k` ancestors of a node, nearest first. -/
def climb (t : ElementTree) : Nat → NodeId → List NodeId
  | 0, _ => []
  | k + 1, n =>
    match t.parent? n with
    | none => []
    | some p => p :: t.climb k p

/-- The ancestors of a node, nearest first. There are fewer of them than nodes. -/
def ancestors (t : ElementTree) (n : NodeId) : List NodeId := t.climb t.size n

/-- The position of a node among its parent's children, from zero. A node without a parent is first. -/
def siblingIndex? (t : ElementTree) (n : NodeId) : Option Nat :=
  match t.get? n with
  | none => none
  | some node =>
    match node.parent with
    | none => some 0
    | some p => (t.get? p).bind fun parent => parent.children.findIdx? (· == n)

/-- The number of its parent's children, or one for a node without a parent. -/
def siblingCount (t : ElementTree) (n : NodeId) : Nat :=
  match t.parent? n with
  | some p => (t.children p).length
  | none => if t.contains n then 1 else 0

def modifyElement (t : ElementTree) (n : NodeId) (f : Element → Element) : ElementTree :=
  ⟨t.nodes.modify n fun node => { node with element := f node.element }⟩

/-- A new detached node. -/
def create (t : ElementTree) (e : Element) : NodeId × ElementTree :=
  (t.size, ⟨t.nodes.push ⟨e, none, []⟩⟩)

@[simp] theorem size_create (t : ElementTree) (e : Element) : (t.create e).2.size = t.size + 1 := by
  simp [create, size]

/-- Names a parent in a node, of which the parent does not know yet. -/
def setParent (t : ElementTree) (child parent : NodeId) : ElementTree :=
  ⟨t.nodes.modify child fun node => { node with parent := some parent }⟩

/-- Enters a node as the last one in a parent's list. -/
def pushChild (t : ElementTree) (parent child : NodeId) : ElementTree :=
  ⟨t.nodes.modify parent fun node => { node with children := node.children ++ [child] }⟩

/-- Ties a child, as the last one, to a parent. -/
def attach (t : ElementTree) (parent child : NodeId) : ElementTree :=
  (t.setParent child parent).pushChild parent child

@[simp] theorem size_attach (t : ElementTree) (parent child : NodeId) :
    (t.attach parent child).size = t.size := by
  simp [attach, setParent, pushChild, size]

/-- Appends a detached node to a parent, and tells what tree is left and whether that failed. Neither the root
nor the parent itself nor an ancestor of it can become a child. The child is changed first, then the parent,
which is looked up once more. -/
def putChild (t : ElementTree) (parent child : NodeId) : ElementTree × Except TreeError Unit :=
  if !t.contains parent then (t, .error (.nodeNotFound parent))
  else if child = rootId || child = parent || (t.ancestors parent).contains child then
    (t, .error (.invalidAppend child parent))
  else match t.get? child with
    | none => (t, .error (.nodeNotFound child))
    | some node =>
      match node.parent with
      | some p => (t, .error (.alreadyAttached child p))
      | none =>
        let t := t.setParent child parent
        match t.get? parent with
        | none => (t, .error (.nodeNotFound parent))
        | some _ => (t.pushChild parent child, .ok ())

/-- Makes a new node and appends it to a parent. -/
def putElement (t : ElementTree) (parent : NodeId) (e : Element) :
    ElementTree × Except TreeError NodeId :=
  if !t.contains parent then (t, .error (.nodeNotFound parent))
  else
    let (child, t) := t.create e
    match t.putChild parent child with
    | (t, .error e) => (t, .error e)
    | (t, .ok ()) => (t, .ok child)

/-- The tree with a detached node appended to a parent. -/
def appendChild (t : ElementTree) (parent child : NodeId) : Except TreeError ElementTree :=
  match t.putChild parent child with
  | (t, .ok ()) => .ok t
  | (_, .error e) => .error e

/-- A new node below a parent. -/
def appendElement (t : ElementTree) (parent : NodeId) (e : Element) :
    Except TreeError (NodeId × ElementTree) :=
  match t.putElement parent e with
  | (t, .ok child) => .ok (child, t)
  | (_, .error e) => .error e

end ElementTree

end Stylebook
