import Mathlib.Logic.Relation
import Stylebook.Proofs.IndexPaths
import Stylebook.Proofs.OrderedList
import Stylebook.Proofs.WireTree
import Stylebook.Wire.Binary

/-! The form for handing on shows the index just as it is. It has the same paths with the same declarations,
its rules are in increasing order at every node, and nothing but the paths and their declarations decides
what it looks like. -/
namespace Stylebook

/-- A step or offset that is left out is zero. -/
def NthRule.nth {ν : Type} (r : NthRule ν) : NthChild := ⟨r.step.getD 0, r.offset.getD 0⟩

namespace RuleIndex

variable {ν : Type}

/-- The rules of each group are in strictly increasing order: by the name, by the name and the value, and
by the step and the offset, where one that is left out is zero. -/
structure Increasing (r : RuleIndex ν) : Prop where
  ids : r.ids.Pairwise (fun a b => a.name < b.name)
  classes : r.classes.Pairwise (fun a b => a.name < b.name)
  tags : r.tags.Pairwise (fun a b => a.name < b.name)
  attributes : r.attributes.Pairwise (fun a b => toLex (a.name, a.value) < toLex (b.name, b.value))
  nths : r.nths.Pairwise (fun a b => a.nth.position < b.nth.position)

/-- The children with the edges that lead to them. -/
def edges (r : RuleIndex ν) : List (Edge × ν) :=
  r.ids.map (fun x => (Edge.id x.name, x.node)) ++ r.classes.map (fun x => (Edge.className x.name, x.node)) ++
    r.tags.map (fun x => (Edge.tag x.name, x.node)) ++
    r.attributes.map (fun x => (Edge.attr x.name x.value, x.node)) ++
    r.firstChild.toList.map (fun x => (Edge.firstChild, x)) ++
    r.lastChild.toList.map (fun x => (Edge.lastChild, x)) ++
    r.nths.map (fun x => (Edge.nthChild x.nth, x.node)) ++ r.parent.toList.map (fun x => (Edge.parent, x)) ++
    r.ancestor.toList.map (fun x => (Edge.ancestor, x))

lemma map_snd_edges (r : RuleIndex ν) : r.edges.map Prod.snd = r.children := by
  simp [edges, children, Function.comp_def]

@[simp] lemma getD_nonZero (n : Int32) : (nonZero n).getD 0 = n := by
  unfold nonZero
  split_ifs with hn
  · exact hn.symm
  · rfl

section Tables
variable {ids ids' classes classes' tags tags' : List (String × ν)}
  {attributes attributes' : List ((String × String) × ν)} {firstChild lastChild parent ancestor : Option ν}
  {nths nths' : List (NthChild × ν)}
  (hids : (ids.map Prod.fst).Nodup) (hclasses : (classes.map Prod.fst).Nodup) (htags : (tags.map Prod.fst).Nodup)
  (hattributes : (attributes.map Prod.fst).Nodup) (hnths : (nths.map Prod.fst).Nodup)
include hids hclasses htags hattributes hnths

/-- Tables without repeated keys give rules in strictly increasing order. -/
lemma increasing_ofTables :
    (ofTables ids classes tags attributes firstChild lastChild nths parent ancestor).Increasing where
  ids := List.pairwise_map.mpr (Ordered.pairwise_sortBy Prod.fst (fun _ _ => Ordered.word_iff _ _) hids)
  classes := List.pairwise_map.mpr (Ordered.pairwise_sortBy Prod.fst (fun _ _ => Ordered.word_iff _ _) hclasses)
  tags := List.pairwise_map.mpr (Ordered.pairwise_sortBy Prod.fst (fun _ _ => Ordered.word_iff _ _) htags)
  attributes := List.pairwise_map.mpr
    (Ordered.pairwise_sortBy (fun p : (String × String) × ν => toLex p.1)
      (fun _ _ => Ordered.pair_word_iff _ _) hattributes)
  nths := by
    apply List.pairwise_map.mpr
    simp only [NthRule.nth, getD_nonZero]
    exact Ordered.pairwise_sortBy Prod.fst (fun _ _ => NthChild.lt_iff _ _) hnths

/-- The order of the entries of a table plays no part. -/
lemma ofTables_eq_of_perm (pids : ids.Perm ids') (pclasses : classes.Perm classes') (ptags : tags.Perm tags')
    (pattributes : attributes.Perm attributes') (pnths : nths.Perm nths') :
    ofTables ids classes tags attributes firstChild lastChild nths parent ancestor =
      ofTables ids' classes' tags' attributes' firstChild lastChild nths' parent ancestor := by
  have hword (b c : String × ν) : Ordered.word b.1 c.1 = true ↔ b.1 < c.1 := Ordered.word_iff _ _
  have hpair (b c : (String × String) × ν) :
      Ordered.pair Ordered.word Ordered.word b.1 c.1 = true ↔ toLex b.1 < toLex c.1 := Ordered.pair_word_iff _ _
  have hnth (b c : NthChild × ν) : NthChild.lt b.1 c.1 = true ↔ b.1 < c.1 := NthChild.lt_iff _ _
  simp only [ofTables, Ordered.sortBy_eq_of_perm Prod.fst hword hids pids,
    Ordered.sortBy_eq_of_perm Prod.fst hword hclasses pclasses,
    Ordered.sortBy_eq_of_perm Prod.fst hword htags ptags,
    Ordered.sortBy_eq_of_perm (fun p : (String × String) × ν => toLex p.1) hpair hattributes pattributes,
    Ordered.sortBy_eq_of_perm Prod.fst hnth hnths pnths]

end Tables

section Edges
variable {es fs : List (Edge × ν)}

section Table
variable {κ : Type} {key? : Edge → Option κ} {edge : κ → Edge} (hkey : ∀ e k, key? e = some k ↔ e = edge k)
include hkey

/-- A table holds just the children behind its kind of edge. -/
lemma mem_table {p : κ × ν} : p ∈ table key? es ↔ (edge p.1, p.2) ∈ es := by
  rw [table, List.mem_filterMap]
  constructor
  · rintro ⟨⟨e, x⟩, hmem, hp⟩
    obtain ⟨k, hk, rfl⟩ := Option.map_eq_some_iff.mp hp
    rw [← (hkey e k).mp hk]
    exact hmem
  · intro hmem
    exact ⟨_, hmem, Option.map_eq_some_iff.mpr ⟨p.1, (hkey _ _).mpr rfl, rfl⟩⟩

/-- The entries of a table come from different edges. -/
lemma nodup_table (hes : (es.map Prod.fst).Nodup) : ((table key? es).map Prod.fst).Nodup := by
  have hsub : (((table key? es).map Prod.fst).map edge).Sublist (es.map Prod.fst) := by
    clear hes
    unfold table
    induction es with
    | nil => exact .slnil
    | cons p es ih =>
      cases hp : key? p.1 with
      | none =>
        rw [List.filterMap_cons_none (by rw [hp, Option.map_none])]
        exact ih.cons p.1
      | some k =>
        rw [List.filterMap_cons_some (by rw [hp, Option.map_some]), List.map_cons, List.map_cons, List.map_cons,
          ← (hkey _ _).mp hp]
        exact ih.cons_cons _
  exact (hes.sublist hsub).of_map edge

end Table

lemma id?_eq_some_iff (e : Edge) (name : String) : e.id? = some name ↔ e = .id name := by
  cases e <;> simp [Edge.id?]

lemma className?_eq_some_iff (e : Edge) (name : String) : e.className? = some name ↔ e = .className name := by
  cases e <;> simp [Edge.className?]

lemma tag?_eq_some_iff (e : Edge) (name : String) : e.tag? = some name ↔ e = .tag name := by
  cases e <;> simp [Edge.tag?]

lemma attr?_eq_some_iff (e : Edge) (q : String × String) : e.attr? = some q ↔ e = .attr q.1 q.2 := by
  cases e <;> simp [Edge.attr?, Prod.ext_iff]

lemma nthChild?_eq_some_iff (e : Edge) (nth : NthChild) : e.nthChild? = some nth ↔ e = .nthChild nth := by
  cases e <;> simp [Edge.nthChild?]

/-- Grouping loses no edge and adds none. -/
lemma mem_edges_ofEdges (hes : (es.map Prod.fst).Nodup) {p : Edge × ν} : p ∈ (ofEdges es).edges ↔ p ∈ es := by
  obtain ⟨e, x⟩ := p
  have hfound (e : Edge) : es.lookup e = some x ↔ (e, x) ∈ es := lookup_eq_some_iff_mem hes
  cases e with
  | id name => simp [edges, ofEdges, ofTables, mem_table id?_eq_some_iff]
  | className name => simp [edges, ofEdges, ofTables, mem_table className?_eq_some_iff]
  | tag name => simp [edges, ofEdges, ofTables, mem_table tag?_eq_some_iff]
  | attr name value => simp [edges, ofEdges, ofTables, mem_table attr?_eq_some_iff, and_assoc]
  | firstChild => simp [edges, ofEdges, ofTables, hfound]
  | lastChild => simp [edges, ofEdges, ofTables, hfound]
  | nthChild nth => simp [edges, ofEdges, ofTables, NthRule.nth, mem_table nthChild?_eq_some_iff]
  | parent => simp [edges, ofEdges, ofTables, hfound]
  | ancestor => simp [edges, ofEdges, ofTables, hfound]

lemma increasing_ofEdges (hes : (es.map Prod.fst).Nodup) : (ofEdges es).Increasing :=
  increasing_ofTables (nodup_table id?_eq_some_iff hes) (nodup_table className?_eq_some_iff hes)
    (nodup_table tag?_eq_some_iff hes) (nodup_table attr?_eq_some_iff hes)
    (nodup_table nthChild?_eq_some_iff hes)

end Edges

/-- Rules in strictly increasing order stand for different edges. -/
lemma Increasing.nodup_edges {r : RuleIndex ν} (h : r.Increasing) : (r.edges.map Prod.fst).Nodup := by
  have hgroup {ρ κ : Type} [LinearOrder κ] {key : ρ → κ} {edge : ρ → Edge}
      (hedge : ∀ a b, edge a = edge b → key a = key b) {rs : List ρ}
      (h : rs.Pairwise (fun a b => key a < key b)) : (rs.map edge).Nodup := by
    refine List.pairwise_map.mpr (h.imp ?_)
    intro a b hab heq
    exact hab.ne (hedge a b heq)
  have hids : (r.ids.map (fun x => Edge.id x.name)).Nodup :=
    hgroup (fun _ _ heq => Edge.id.inj heq) h.ids
  have hclasses : (r.classes.map (fun x => Edge.className x.name)).Nodup :=
    hgroup (fun _ _ heq => Edge.className.inj heq) h.classes
  have htags : (r.tags.map (fun x => Edge.tag x.name)).Nodup :=
    hgroup (fun _ _ heq => Edge.tag.inj heq) h.tags
  have hattributes : (r.attributes.map (fun x => Edge.attr x.name x.value)).Nodup :=
    hgroup (fun _ _ heq => congrArg toLex (Prod.ext_iff.mpr (Edge.attr.inj heq))) h.attributes
  have hnths : (r.nths.map (fun x => Edge.nthChild x.nth)).Nodup :=
    hgroup (fun _ _ heq => congrArg NthChild.position (Edge.nthChild.inj heq)) h.nths
  -- What is left is that edges of different kinds differ.
  simp only [edges, List.append_assoc, List.map_append, List.map_map, Function.comp_def, List.map_const',
    List.nodup_append, hids, hclasses, htags, hattributes, hnths, List.nodup_replicate,
    Option.length_toList_le, List.mem_replicate, ne_eq, List.length_eq_zero_iff, Option.toList_eq_nil_iff,
    List.mem_map, List.mem_append, or_imp, and_imp, forall_and, forall_eq_apply_imp_iff,
    forall_exists_index, forall_apply_eq_imp_iff₂, reduceCtorEq, not_false_eq_true, implies_true, and_self]

section Edges
variable {es fs : List (Edge × ν)}

lemma edges_ofEdges_perm (hes : (es.map Prod.fst).Nodup) : (ofEdges es).edges.Perm es := by
  have hnodup : (ofEdges es).edges.Nodup := (increasing_ofEdges hes).nodup_edges.of_map Prod.fst
  rw [List.perm_ext_iff_of_nodup hnodup (hes.of_map Prod.fst)]
  exact fun _ => mem_edges_ofEdges hes

/-- The order of the edges plays no part in grouping them. -/
lemma ofEdges_eq_of_perm (hes : (es.map Prod.fst).Nodup) (h : es.Perm fs) : ofEdges es = ofEdges fs := by
  have hsingle (e : Edge) : es.lookup e = fs.lookup e := lookup_eq_of_perm hes h e
  simp only [ofEdges, hsingle]
  exact ofTables_eq_of_perm (nodup_table id?_eq_some_iff hes) (nodup_table className?_eq_some_iff hes)
    (nodup_table tag?_eq_some_iff hes) (nodup_table attr?_eq_some_iff hes) (nodup_table nthChild?_eq_some_iff hes)
    (h.filterMap _) (h.filterMap _) (h.filterMap _) (h.filterMap _) (h.filterMap _)

end Edges

end RuleIndex

namespace WireNode

def index : WireNode → Option (RuleIndex WireNode)
  | mk index _ => index

def styles : WireNode → List WireDeclaration
  | mk _ styles => styles

/-- The edges to the nodes one level down. -/
def edges (n : WireNode) : List (Edge × WireNode) := n.index.elim [] RuleIndex.edges

/-- The nodes one level down. -/
def children (n : WireNode) : List WireNode := n.index.elim [] RuleIndex.children

lemma map_snd_edges (n : WireNode) : n.edges.map Prod.snd = n.children := by
  unfold edges children
  cases n.index with
  | none => rfl
  | some r => exact r.map_snd_edges

/-- The node to which a path leads. -/
def at? : List Edge → WireNode → Option WireNode
  | [], n => some n
  | edge :: path, n => (n.edges.lookup edge).bind (at? path)

lemma declarationCount_mk (index : Option (RuleIndex WireNode)) (styles : List WireDeclaration) :
    (mk index styles).declarationCount =
      styles.length + index.elim 0 fun r => (r.children.map declarationCount).sum := by
  rw [declarationCount, fold_mk]
  cases index with
  | none => rfl
  | some r =>
    simp only [Option.map_some, Option.elim_some, RuleIndex.children_map]
    rfl

lemma declarationCount_eq (n : WireNode) :
    n.declarationCount = n.styles.length + (n.edges.map fun p => p.2.declarationCount).sum := by
  obtain ⟨index, styles⟩ := n
  rw [declarationCount_mk]
  cases index with
  | none => rfl
  | some r =>
    rw [Option.elim_some, ← RuleIndex.map_snd_edges, List.map_map]
    rfl

section OfEdges
variable {ds ds' : List Declaration} {es fs : List (Edge × WireNode)}

@[simp] lemma styles_ofEdges : (ofEdges ds es).styles = ds.map Declaration.wire := rfl

lemma index_ofEdges_eq_none_iff : (ofEdges ds es).index = none ↔ es = [] := by
  cases es with
  | nil => exact iff_of_true rfl rfl
  | cons p es => exact iff_of_false (Option.some_ne_none _) (List.cons_ne_nil _ _)

lemma increasing_of_index_ofEdges {r : RuleIndex WireNode} (hes : (es.map Prod.fst).Nodup)
    (h : (ofEdges ds es).index = some r) : r.Increasing := by
  cases es with
  | nil => cases h
  | cons p es =>
    obtain rfl := Option.some.inj h
    exact RuleIndex.increasing_ofEdges hes

lemma edges_ofEdges_perm (hes : (es.map Prod.fst).Nodup) : (ofEdges ds es).edges.Perm es := by
  cases es with
  | nil => exact .refl _
  | cons p es => exact RuleIndex.edges_ofEdges_perm hes

lemma ofEdges_eq_of_perm (hds : ds.map Declaration.wire = ds'.map Declaration.wire)
    (hes : (es.map Prod.fst).Nodup) (h : es.Perm fs) : ofEdges ds es = ofEdges ds' fs := by
  simp only [ofEdges, hds, RuleIndex.ofEdges_eq_of_perm hes h, h.isEmpty_eq]

end OfEdges

end WireNode

/-- A node in its form for handing on. -/
def IndexNode.wire (node : IndexNode) : WireNode := .ofEdges node.declarations node.branches.wire

namespace Branches

lemma wire_eq (bs : Branches) : bs.wire = bs.toList.map fun p => (p.1, p.2.wire) := by
  induction bs with
  | none => rfl
  | branch edge ds children siblings _ ih =>
    rw [wire, ih]
    rfl

lemma map_fst_wire (bs : Branches) : bs.wire.map Prod.fst = bs.toList.map Prod.fst := by
  rw [wire_eq, List.map_map]
  rfl

lemma Distinct.nodup_wire {bs : Branches} (h : bs.Distinct) : (bs.wire.map Prod.fst).Nodup := by
  rw [map_fst_wire]
  exact h.nodup

lemma Distinct.of_mem_wire {bs : Branches} (h : bs.Distinct) {edge : Edge} {n : WireNode}
    (hmem : (edge, n) ∈ bs.wire) : ∃ node : IndexNode, node.branches.Distinct ∧ n = node.wire := by
  rw [wire_eq] at hmem
  obtain ⟨⟨e, node⟩, hnode, heq⟩ := List.mem_map.mp hmem
  obtain ⟨-, rfl⟩ := Prod.mk.inj heq
  exact ⟨node, h.of_mem hnode, rfl⟩

end Branches

namespace IndexNode

variable {node : IndexNode}

lemma index_wire_eq_none_iff (node : IndexNode) :
    node.wire.index = none ↔ node.branches.toList = [] := by
  rw [wire, WireNode.index_ofEdges_eq_none_iff, Branches.wire_eq, List.map_eq_nil_iff]

lemma edges_wire_perm (h : node.branches.Distinct) : node.wire.edges.Perm node.branches.wire :=
  WireNode.edges_ofEdges_perm h.nodup_wire

/-- Paths lead to the same nodes in both forms. -/
lemma at?_wire (h : node.branches.Distinct) (path : List Edge) :
    node.wire.at? path = (node.at? path).map wire := by
  induction path generalizing node with
  | nil => rfl
  | cons edge path ih =>
    have hperm := edges_wire_perm h
    have hnodup : (node.wire.edges.map Prod.fst).Nodup := (hperm.map _).nodup_iff.mpr h.nodup_wire
    rw [WireNode.at?, at?, lookup_eq_of_perm hnodup hperm, Branches.wire_eq, lookup_map_snd]
    cases hlookup : node.branches.toList.lookup edge with
    | none => rfl
    | some child => exact ih (h.of_mem (mem_of_lookup_eq_some hlookup))

/-- Each node below is the form of a node of the index. -/
lemma exists_of_reflTransGen (h : node.branches.Distinct) {n : WireNode}
    (hn : Relation.ReflTransGen (fun n m => m ∈ WireNode.children n) node.wire n) :
    ∃ node' : IndexNode, node'.branches.Distinct ∧ n = node'.wire := by
  induction hn with
  | refl => exact ⟨node, h, rfl⟩
  | tail _ hm ih =>
    obtain ⟨node', h', rfl⟩ := ih
    rw [← WireNode.map_snd_edges] at hm
    obtain ⟨⟨edge, m⟩, hmem, rfl⟩ := List.mem_map.mp hm
    exact h'.of_mem_wire ((edges_wire_perm h').mem_iff.mp hmem)

lemma declarationCount_wire_eq_sum (h : node.branches.Distinct) :
    node.wire.declarationCount =
      node.declarations.length + (node.branches.wire.map fun p => p.2.declarationCount).sum := by
  have hsum := ((edges_wire_perm h).map fun p => p.2.declarationCount).sum_nat
  rw [WireNode.declarationCount_eq, hsum, wire, WireNode.styles_ofEdges, List.length_map]

end IndexNode

/-- Handing on keeps every declaration and doubles none. -/
lemma Branches.Distinct.sum_declarationCount_wire {bs : Branches} (h : bs.Distinct) :
    (bs.wire.map fun p => p.2.declarationCount).sum = bs.declarationCount := by
  induction bs with
  | none => rfl
  | branch edge ds children siblings ihChildren ihSiblings =>
    obtain ⟨-, hchildren, hsiblings⟩ := h
    have hnode := @IndexNode.declarationCount_wire_eq_sum ⟨ds, children⟩ hchildren
    rw [ihChildren hchildren] at hnode
    simp only [wire, List.map_cons, List.sum_cons, ihSiblings hsiblings, declarationCount]
    exact congrArg (· + siblings.declarationCount) hnode

lemma Index.declarationCount_wire {i : Index} (h : i.root.branches.Distinct) :
    i.wire.declarationCount = i.declarationCount := by
  have hnode := IndexNode.declarationCount_wire_eq_sum h
  rw [h.sum_declarationCount_wire] at hnode
  exact hnode

lemma Branches.size_lt_of_mem {bs : Branches} {edge : Edge} {node : IndexNode}
    (hmem : (edge, node) ∈ bs.toList) : node.branches.size < bs.size := by
  induction bs with
  | none => cases hmem
  | branch e ds children siblings _ ih =>
    rw [size]
    rcases List.mem_cons.mp hmem with heq | hmem
    · obtain ⟨-, rfl⟩ := Prod.mk.inj heq
      dsimp only
      omega
    · have hlt := ih hmem
      omega

/-- Nothing but the paths and the declarations at their ends decides the form. -/
lemma IndexNode.wire_eq_of_at?_eq {node node' : IndexNode} (h : node.branches.Distinct)
    (h' : node'.branches.Distinct)
    (hsame : ∀ path, (node.at? path).map declarations = (node'.at? path).map declarations) :
    node.wire = node'.wire := by
  -- The induction is on the number of nodes below: behind an edge there are fewer.
  induction hsize : node.branches.size using Nat.strong_induction_on generalizing node node' with
  | _ k ih =>
    have hds : node.declarations = node'.declarations := Option.some.inj (hsame [])
    have hbehind (edge : Edge) : (node.branches.toList.lookup edge).map wire =
        (node'.branches.toList.lookup edge).map wire := by
      have hedge := hsame [edge]
      have hpath (path : List Edge) := hsame (edge :: path)
      simp only [at?] at hedge hpath
      cases hchild : node.branches.toList.lookup edge with
      | none =>
        cases hchild' : node'.branches.toList.lookup edge with
        | none => rfl
        | some child' => simp [hchild, hchild'] at hedge
      | some child =>
        cases hchild' : node'.branches.toList.lookup edge with
        | none => simp [hchild, hchild'] at hedge
        | some child' =>
          simp only [hchild, hchild', Option.bind_some] at hpath
          have hmem := mem_of_lookup_eq_some hchild
          have hmem' := mem_of_lookup_eq_some hchild'
          have hlt := Branches.size_lt_of_mem hmem
          rw [Option.map_some, Option.map_some,
            ih _ (hsize ▸ hlt) (h.of_mem hmem) (h'.of_mem hmem') hpath rfl]
    have hperm : node.branches.wire.Perm node'.branches.wire := by
      rw [List.perm_ext_iff_of_nodup (h.nodup_wire.of_map _) (h'.nodup_wire.of_map _)]
      rintro ⟨edge, n⟩
      rw [← lookup_eq_some_iff_mem h.nodup_wire, ← lookup_eq_some_iff_mem h'.nodup_wire, Branches.wire_eq,
        Branches.wire_eq, lookup_map_snd, lookup_map_snd, hbehind]
    exact WireNode.ofEdges_eq_of_perm (congrArg _ hds) h.nodup_wire hperm

/-- The one value that is handed on of the three that a declaration has room for: a string that is not empty, an
integer other than zero if there is none, and else the double. -/
inductive Value.EncodedAs (v : Value) : WireValue → Prop
  | string (hs : v.string ≠ "") : EncodedAs v (.string v.string)
  | int (hs : v.string = "") (hn : v.int ≠ 0) : EncodedAs v (.int v.int)
  | double (hs : v.string = "") (hn : v.int = 0) : EncodedAs v (.double v.double)

/-- A declaration and what is handed on for it. Weights, and orders below the capacity of their field, are the
same numbers. -/
structure Declaration.HandedOn (d : Declaration) (w : WireDeclaration) : Prop where
  name : w.name = d.name
  value : d.value.EncodedAs w.value
  priority : w.priority.toInt = d.priority
  order : d.order < 2 ^ 31 → w.order.toInt = d.order ∧ w.id.toInt = d.id

lemma Value.encodedAs_wire (v : Value) : v.EncodedAs v.wire := by
  unfold wire
  split_ifs with hs hn
  · exact .string (by simpa using hs)
  · exact .int (by simpa using hs) hn
  · exact .double (by simpa using hs) (not_not.mp hn)

/-- The numbers of a declaration are small enough to be handed on as they are. -/
lemma Declaration.Numbered.handedOn_wire {d : Declaration} (h : d.Numbered) : d.HandedOn d.wire := by
  have hpriority : -2 ^ 31 ≤ d.priority ∧ d.priority < 2 ^ 31 := by
    obtain ⟨hnonneg, hlt, -⟩ := h
    omega
  have horder : -2 ^ 31 ≤ d.order := by
    have hnonneg := h.order_nonneg
    omega
  refine ⟨rfl, d.value.encodedAs_wire, Int32.toInt_ofInt_of_le hpriority.1 hpriority.2, fun hlt => ?_⟩
  exact ⟨Int32.toInt_ofInt_of_le horder hlt, Int32.toInt_ofInt_of_le horder hlt⟩

end Stylebook
