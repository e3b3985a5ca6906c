import Stylebook.Arena

/-! The form in which an index is handed on: nodes with their children grouped by the kind of edge,
each group in increasing order. -/
namespace Stylebook

/-- A value of one kind. -/
inductive WireValue
  | string (s : String)
  | int (n : Int32)
  | double (x : Binary64)
  deriving DecidableEq

/-- The first field that is not empty or zero, the double if none is. -/
def Value.wire (v : Value) : WireValue :=
  if !v.string.isEmpty then .string v.string
  else if v.int ≠ 0 then .int v.int
  else .double v.double

structure WireDeclaration where
  name : String
  value : WireValue
  priority : Int32
  order : Int32
  id : Int32
  deriving DecidableEq

def Declaration.wire (d : Declaration) : WireDeclaration :=
  ⟨d.name, d.value.wire, .ofInt d.priority, .ofInt d.order, .ofInt d.id⟩

structure NamedRule (ν : Type) where
  name : String
  node : ν

structure AttributeRule (ν : Type) where
  name : String
  value : String
  node : ν

/-- A step or offset of zero is left out. -/
structure NthRule (ν : Type) where
  step : Option Int32
  offset : Option Int32
  node : ν

/-- The children of a node by the kind of edge that leads to them. -/
structure RuleIndex (ν : Type) where
  ids : List (NamedRule ν)
  classes : List (NamedRule ν)
  tags : List (NamedRule ν)
  attributes : List (AttributeRule ν)
  firstChild : Option ν
  lastChild : Option ν
  nths : List (NthRule ν)
  parent : Option ν
  ancestor : Option ν

/-- A node; one without children need not have an index of them. -/
inductive WireNode
  | mk (index : Option (RuleIndex WireNode)) (styles : List WireDeclaration)

namespace RuleIndex

variable {ν μ : Type}

def map (f : ν → μ) (r : RuleIndex ν) : RuleIndex μ where
  ids := r.ids.map fun x => ⟨x.name, f x.node⟩
  classes := r.classes.map fun x => ⟨x.name, f x.node⟩
  tags := r.tags.map fun x => ⟨x.name, f x.node⟩
  attributes := r.attributes.map fun x => ⟨x.name, x.value, f x.node⟩
  firstChild := r.firstChild.map f
  lastChild := r.lastChild.map f
  nths := r.nths.map fun x => ⟨x.step, x.offset, f x.node⟩
  parent := r.parent.map f
  ancestor := r.ancestor.map f

/-- The children in order. -/
def children (r : RuleIndex ν) : List ν :=
  (r.ids ++ r.classes ++ r.tags).map NamedRule.node ++ r.attributes.map AttributeRule.node ++
    r.firstChild.toList ++ r.lastChild.toList ++ r.nths.map NthRule.node ++ r.parent.toList ++
    r.ancestor.toList

def nonZero (n : Int32) : Option Int32 := if n = 0 then none else some n

/-- Children from tables by the kind of edge, each table brought into order. -/
def ofTables (ids classes tags : List (String × ν)) (attributes : List ((String × String) × ν))
    (firstChild lastChild : Option ν) (nths : List (NthChild × ν)) (parent ancestor : Option ν) :
    RuleIndex ν where
  ids := (Ordered.sortBy Ordered.word Prod.fst ids).map fun p => ⟨p.1, p.2⟩
  classes := (Ordered.sortBy Ordered.word Prod.fst classes).map fun p => ⟨p.1, p.2⟩
  tags := (Ordered.sortBy Ordered.word Prod.fst tags).map fun p => ⟨p.1, p.2⟩
  attributes := (Ordered.sortBy (Ordered.pair Ordered.word Ordered.word) Prod.fst attributes).map fun p =>
    ⟨p.1.1, p.1.2, p.2⟩
  firstChild
  lastChild
  nths := (Ordered.sortBy NthChild.lt Prod.fst nths).map fun p => ⟨nonZero p.1.step, nonZero p.1.offset, p.2⟩
  parent
  ancestor

/-- The labelled children behind one kind of edge, by what the edges say. -/
def table {κ : Type} (key? : Edge → Option κ) (es : List (Edge × ν)) : List (κ × ν) :=
  es.filterMap fun p => (key? p.1).map fun k => (k, p.2)

/-- Groups labelled children. -/
def ofEdges (es : List (Edge × ν)) : RuleIndex ν :=
  ofTables (table Edge.id? es) (table Edge.className? es) (table Edge.tag? es) (table Edge.attr? es)
    (es.lookup .firstChild) (es.lookup .lastChild) (table Edge.nthChild? es) (es.lookup .parent)
    (es.lookup .ancestor)

end RuleIndex

namespace WireNode

mutual

/-- Replaces nodes by values from the leaves up. -/
def fold {α : Type} (f : Option (RuleIndex α) → List WireDeclaration → α) : WireNode → α
  | mk index styles => f (foldIndex f index) styles

def foldIndex {α : Type} (f : Option (RuleIndex α) → List WireDeclaration → α) :
    Option (RuleIndex WireNode) → Option (RuleIndex α)
  | none => none
  | some ⟨ids, classes, tags, attributes, firstChild, lastChild, nths, parent, ancestor⟩ =>
    some ⟨foldNamed f ids, foldNamed f classes, foldNamed f tags, foldAttributes f attributes,
      foldOption f firstChild, foldOption f lastChild, foldNths f nths, foldOption f parent,
      foldOption f ancestor⟩

def foldNamed {α : Type} (f : Option (RuleIndex α) → List WireDeclaration → α) :
    List (NamedRule WireNode) → List (NamedRule α)
  | [] => []
  | ⟨name, node⟩ :: rs => ⟨name, fold f node⟩ :: foldNamed f rs

def foldAttributes {α : Type} (f : Option (RuleIndex α) → List WireDeclaration → α) :
    List (AttributeRule WireNode) → List (AttributeRule α)
  | [] => []
  | ⟨name, value, node⟩ :: rs => ⟨name, value, fold f node⟩ :: foldAttributes f rs

def foldNths {α : Type} (f : Option (RuleIndex α) → List WireDeclaration → α) :
    List (NthRule WireNode) → List (NthRule α)
  | [] => []
  | ⟨step, offset, node⟩ :: rs => ⟨step, offset, fold f node⟩ :: foldNths f rs

def foldOption {α : Type} (f : Option (RuleIndex α) → List WireDeclaration → α) :
    Option WireNode → Option α
  | none => none
  | some node => some (fold f node)

end

section

variable {α : Type} (f : Option (RuleIndex α) → List WireDeclaration → α)

theorem foldNamed_eq_map (rs : List (NamedRule WireNode)) :
    foldNamed f rs = rs.map fun r => ⟨r.name, fold f r.node⟩ := by
  induction rs with
  | nil => rfl
  | cons r rs ih => simp [foldNamed, ih]

theorem foldAttributes_eq_map (rs : List (AttributeRule WireNode)) :
    foldAttributes f rs = rs.map fun r => ⟨r.name, r.value, fold f r.node⟩ := by
  induction rs with
  | nil => rfl
  | cons r rs ih => simp [foldAttributes, ih]

theorem foldNths_eq_map (rs : List (NthRule WireNode)) :
    foldNths f rs = rs.map fun r => ⟨r.step, r.offset, fold f r.node⟩ := by
  induction rs with
  | nil => rfl
  | cons r rs ih => simp [foldNths, ih]

theorem foldOption_eq_map (o : Option WireNode) : foldOption f o = o.map (fold f) := by
  cases o <;> rfl

/-- A fold maps the children and then joins the results. -/
theorem fold_mk (index : Option (RuleIndex WireNode)) (styles : List WireDeclaration) :
    fold f (mk index styles) = f (index.map (RuleIndex.map (fold f))) styles := by
  cases index with
  | none => rfl
  | some r =>
    simp [fold, foldIndex, RuleIndex.map, foldNamed_eq_map, foldAttributes_eq_map, foldNths_eq_map,
      foldOption_eq_map]

end

/-- The number of declarations here and below. -/
def declarationCount : WireNode → Nat :=
  fold fun index styles => styles.length + index.elim 0 fun r => r.children.foldr (· + ·) 0

/-- A node from its declarations and labelled children. -/
def ofEdges (ds : List Declaration) (es : List (Edge × WireNode)) : WireNode :=
  mk (if es.isEmpty then none else some (.ofEdges es)) (ds.map Declaration.wire)

end WireNode

/-- The nodes behind the edges, each in its form for handing on. -/
def Branches.wire : Branches → List (Edge × WireNode)
  | none => []
  | branch edge declarations children siblings =>
    (edge, .ofEdges declarations children.wire) :: siblings.wire

def Index.wire (i : Index) : WireNode := .ofEdges i.root.declarations i.root.branches.wire

/-- The children of a numbered node, given what to make of each. -/
def ArenaNode.ruleIndex {ν : Type} (child : UInt32 → ν) (node : ArenaNode) : RuleIndex ν :=
  .ofTables (node.ids.map fun p => (p.1, child p.2)) (node.classes.map fun p => (p.1, child p.2))
    (node.tags.map fun p => (p.1, child p.2)) (node.attributes.map fun p => (p.1, child p.2))
    (node.firstChild.map child) (node.lastChild.map child) (node.nths.map fun p => (p.1, child p.2))
    (node.parent.map child) (node.ancestor.map child)

namespace Arena

/-- A node of the row in its form for handing on, with all that lies behind its edges. A node that is missing is
handed on as an empty one. -/
def wireFrom (a : Arena) (n : UInt32) : WireNode :=
  match _hnode : a.get? n with
  | none => .mk none []
  | some node =>
    let child (m : UInt32) : WireNode := if _hlt : n < m then a.wireFrom m else .mk none []
    .mk (if node.isLeaf then none else some (node.ruleIndex child)) (node.declarations.map Declaration.wire)
termination_by a.size - n.toNat
decreasing_by
  have hsize := lt_size_of_get? _hnode
  have hforward := UInt32.lt_iff_toNat_lt.mp _hlt
  omega

def wire (a : Arena) : WireNode := a.wireFrom rootNumber

end Arena

end Stylebook
