import Stylebook.Proofs.IndexWalk
import Stylebook.Proofs.RuleCalls
import Stylebook.Proofs.WireForm

/-! The row of nodes read as a trie. Below each node lies the trie that its edges span; a look-up in the row is
one in that trie, and handing on the row is handing on that trie. So whatever numbers the nodes have, and in
whatever order edges are listed, nothing but paths and declarations counts. -/
namespace Stylebook

namespace Branches

/-- Edges to given nodes. -/
def ofList : List (Edge × IndexNode) → Branches
  | [] => none
  | p :: ps => branch p.1 p.2.declarations p.2.branches (ofList ps)

@[simp] lemma toList_ofList (ps : List (Edge × IndexNode)) : (ofList ps).toList = ps := by
  induction ps with
  | nil => rfl
  | cons p ps ih => rw [ofList, toList, ih]

lemma distinct_ofList {ps : List (Edge × IndexNode)} (hps : (ps.map Prod.fst).Nodup)
    (hbelow : ∀ p ∈ ps, p.2.branches.Distinct) : (ofList ps).Distinct := by
  induction ps with
  | nil => trivial
  | cons p ps ih =>
    obtain ⟨hp, hps⟩ := List.nodup_cons.mp hps
    obtain ⟨hfirst, hbelow⟩ := List.forall_mem_cons.mp hbelow
    refine ⟨?_, hfirst, ih hps hbelow⟩
    rw [toList_ofList]
    exact hp

lemma visit_eq (doc : ElementTree) (bs : Branches) (n : NodeId) :
    bs.visit doc n = bs.toList.flatMap fun p => (p.1.targets doc n).flatMap fun m => p.2.visit doc m := by
  induction bs with
  | none => rfl
  | branch edge ds children siblings _ ih =>
    rw [visit, ih]
    rfl

end Branches

/-! ## Looking up in a trie -/

namespace IndexNode

variable {doc : ElementTree} {d : Declaration}

/-- A look-up meets the declarations at the ends of the paths that can be followed from the element. -/
lemma mem_visit_iff {node : IndexNode} (h : node.branches.Distinct) {n : NodeId} :
    d ∈ node.visit doc n ↔ ∃ path, Edge.walks doc path n = true ∧ d ∈ node.declarationsAt path := by
  -- The induction is on the number of nodes below.
  induction hsize : node.branches.size using Nat.strong_induction_on generalizing node n with
  | _ k ih =>
    have hbehind {edge : Edge} {child : IndexNode} (hchild : (edge, child) ∈ node.branches.toList) (m : NodeId) :=
      ih _ (hsize ▸ Branches.size_lt_of_mem hchild) (h.of_mem hchild) (n := m) rfl
    rw [visit, Branches.visit_eq, List.mem_append, List.mem_flatMap]
    constructor
    · rintro (hd | ⟨⟨edge, child⟩, hchild, hd⟩)
      · exact ⟨[], rfl, hd⟩
      · obtain ⟨m, hm, hd⟩ := List.mem_flatMap.mp hd
        obtain ⟨path, hwalk, hd⟩ := (hbehind hchild m).mp hd
        refine ⟨edge :: path, Edge.walks_cons.mpr ⟨m, hm, hwalk⟩, ?_⟩
        rw [declarationsAt_cons, (lookup_eq_some_iff_mem h.nodup).mpr hchild]
        exact hd
    · rintro ⟨path, hwalk, hd⟩
      cases path with
      | nil => exact .inl hd
      | cons edge path =>
        obtain ⟨m, hm, hwalk⟩ := Edge.walks_cons.mp hwalk
        rw [declarationsAt_cons] at hd
        cases hchild : node.branches.toList.lookup edge with
        | none =>
          rw [hchild] at hd
          cases path <;> simp [declarationsAt, at?, empty, Branches.toList] at hd
        | some child =>
          rw [hchild] at hd
          have hmem := mem_of_lookup_eq_some hchild
          exact .inr ⟨_, hmem, List.mem_flatMap.mpr ⟨m, hm, (hbehind hmem m).mpr ⟨path, hwalk, hd⟩⟩⟩

end IndexNode

/-! ## One node of the row -/

/-- Some edge is of one of the kinds. -/
lemma Edge.exists_iff {P : Edge → Prop} : (∃ e, P e) ↔ (∃ name, P (.id name)) ∨ (∃ name, P (.className name)) ∨
    (∃ name, P (.tag name)) ∨ (∃ name value, P (.attr name value)) ∨ P .firstChild ∨ P .lastChild ∨
    (∃ nth, P (.nthChild nth)) ∨ P .parent ∨ P .ancestor := by
  constructor
  · rintro ⟨e, he⟩
    cases e <;> grind
  · grind

namespace ArenaNode

variable {doc : ElementTree} {n m : NodeId} {k : UInt32} {node : ArenaNode}

/-- What holds of the element, kind by kind. -/
lemma mem_held {e : Element} : k ∈ node.held doc n e ↔
    (∃ name, e.id = some name ∧ node.ids.lookup name = some k) ∨
    (∃ name ∈ e.classes, node.classes.lookup name = some k) ∨ node.tags.lookup e.tag = some k ∨
    (∃ name value, ((name, value), k) ∈ node.attributes ∧ e.getAttribute? name = some value) ∨
    (doc.isFirstChild n = true ∧ node.firstChild = some k) ∨ (doc.isLastChild n = true ∧ node.lastChild = some k) ∨
    ∃ nth, (nth, k) ∈ node.nths ∧ doc.isNthChild n nth = true := by
  have hflag (test : Bool) (o : Option UInt32) :
      k ∈ (if test then o.toList else []) ↔ test = true ∧ o = some k := by
    cases test <;> simp
  simp only [held, List.mem_append, List.mem_filterMap, Option.mem_toList, List.mem_map, List.mem_filter, hflag,
    Prod.exists, exists_eq_right, beq_iff_eq, or_assoc]

/-- A look-up goes on behind an edge just where the edge leads. -/
lemma mem_steps (h : (node.edges.map Prod.fst).Nodup) :
    (k, m) ∈ node.steps doc n ↔ ∃ edge, (edge, k) ∈ node.edges ∧ m ∈ edge.targets doc n := by
  -- An id, a class and a tag are found in their tables if they are there at all.
  have hid (name : String) : (.id name, k) ∈ node.edges ↔ node.ids.lookup name = some k := by
    rw [← lookup_eq_some_iff_mem h, ← target?_eq_lookup, target?]
  have hclass (name : String) : (.className name, k) ∈ node.edges ↔ node.classes.lookup name = some k := by
    rw [← lookup_eq_some_iff_mem h, ← target?_eq_lookup, target?]
  have htag (name : String) : (.tag name, k) ∈ node.edges ↔ node.tags.lookup name = some k := by
    rw [← lookup_eq_some_iff_mem h, ← target?_eq_lookup, target?]
  have hattr (name value : String) : (.attr name value, k) ∈ node.edges ↔ ((name, value), k) ∈ node.attributes := by
    simp [edges]
  have hnth (nth : NthChild) : (.nthChild nth, k) ∈ node.edges ↔ (nth, k) ∈ node.nths := by simp [edges]
  have hfirst : (.firstChild, k) ∈ node.edges ↔ node.firstChild = some k := by simp [edges]
  have hlast : (.lastChild, k) ∈ node.edges ↔ node.lastChild = some k := by simp [edges]
  have hparent : (.parent, k) ∈ node.edges ↔ node.parent = some k := by simp [edges]
  have hancestor : (.ancestor, k) ∈ node.edges ↔ node.ancestor = some k := by simp [edges]
  unfold steps
  cases he : doc.element? n with
  | none =>
    have habsent : doc.contains n = false := by
      have hnone : doc.nodes[n]? = none := Option.map_eq_none_iff.mp he
      exact decide_eq_false (Nat.not_lt.mpr (Array.getElem?_eq_none_iff.mp hnone))
    simp [Edge.targets_of_absent habsent]
  | some e =>
    have htest (test : Prop) [Decidable test] : m ∈ (if test then [n] else []) ↔ test ∧ m = n := by
      split_ifs with ht <;> simp [ht]
    rw [Edge.exists_iff]
    simp only [Edge.targets, ElementTree.labels, ElementTree.hasAttribute, he, Option.map_some, Option.getD_some,
      Option.any_some, Element.labels, htest, List.mem_append, List.mem_map, Edge.id.injEq, Edge.className.injEq,
      Edge.tag.injEq, List.mem_singleton, reduceCtorEq, and_false, exists_false, or_false, false_or, exists_eq_right,
      Option.mem_toList, hid, hclass, htag, hattr, hnth, hfirst, hlast, hparent, hancestor, mem_held, beq_iff_eq,
      List.mem_flatMap, Prod.mk.injEq]
    by_cases hm : m = n
    · subst hm
      simp [or_assoc, and_comm]
    · simp [hm, Ne.symm hm]

/-- Grouping the edges of a node is sorting its tables. -/
lemma ruleIndex_eq {ν : Type} (child : UInt32 → ν) (node : ArenaNode) :
    node.ruleIndex child = .ofEdges (node.edges.map fun p => (p.1, child p.2)) := by
  have hsingle (edge : Edge) : (node.edges.map fun p => (p.1, child p.2)).lookup edge =
      (node.target? edge).map child := by
    rw [lookup_map_snd, target?_eq_lookup]
  simp only [ruleIndex, RuleIndex.ofEdges, hsingle, target?]
  simp [RuleIndex.table, edges, List.filterMap_map, Function.comp_def, Edge.id?, Edge.className?, Edge.tag?, Edge.attr?,
    Edge.nthChild?]

end ArenaNode

/-! ## The trie below a node -/

namespace Arena

variable {a b : Arena} {n : UInt32}

/-- The trie that the edges of a node span. -/
def toNode (a : Arena) (n : UInt32) : IndexNode :=
  ⟨a.declarationsOf n, .ofList ((a.links n).map fun p =>
    (p.1, if _hlt : n.toNat < p.2.toNat ∧ p.2.toNat < a.size then a.toNode p.2 else .empty))⟩
termination_by a.size - n.toNat

namespace WellFormed

/-- One step of the reading: behind an edge lies the trie of the node it leads to. -/
lemma toNode_eq (h : a.WellFormed) (n : UInt32) :
    a.toNode n = ⟨a.declarationsOf n, .ofList ((a.links n).map fun p => (p.1, a.toNode p.2))⟩ := by
  rw [toNode]
  congr 2
  refine List.map_congr_left (fun p hp => ?_)
  rw [dif_pos (h.forward hp)]

/-- What is shown of a node may be taken for granted behind its edges. -/
lemma induction_on_links (h : a.WellFormed) {P : UInt32 → Prop}
    (step : ∀ n, (∀ e m, (e, m) ∈ a.links n → P m) → P n) (n : UInt32) : P n := by
  induction hk : a.size - n.toNat using Nat.strong_induction_on generalizing n with
  | _ k ih =>
    refine step n (fun e m hm => ?_)
    have hlt := h.forward hm
    exact ih _ (by omega) m rfl

lemma distinct_toNode (h : a.WellFormed) (n : UInt32) : (a.toNode n).branches.Distinct := by
  induction n using h.induction_on_links with
  | step n ih =>
    rw [h.toNode_eq]
    apply Branches.distinct_ofList
    · rw [List.map_map]
      exact h.distinct n
    · intro p hp
      obtain ⟨⟨e, m⟩, hm, rfl⟩ := List.mem_map.mp hp
      exact ih e m hm

/-- Paths lead to the same places in the row and in the trie. -/
lemma at?_toNode (h : a.WellFormed) (path : List Edge) (n : UInt32) :
    (a.toNode n).at? path = (a.find? path n).map a.toNode := by
  induction path generalizing n with
  | nil => rfl
  | cons edge path ih =>
    rw [IndexNode.at?, find?, h.toNode_eq, Branches.toList_ofList, lookup_map_snd, target?_eq_lookup]
    cases (a.links n).lookup edge with
    | none => rfl
    | some m => exact ih m

lemma declarations_at?_toNode (h : a.WellFormed) (path : List Edge) (n : UInt32) :
    ((a.toNode n).at? path).map IndexNode.declarations = (a.find? path n).map a.declarationsOf := by
  have hnode (m : UInt32) : (a.toNode m).declarations = a.declarationsOf m := by rw [h.toNode_eq]
  rw [h.at?_toNode, Option.map_map]
  exact congrArg (Option.map · _) (funext hnode)

/-- A look-up in the row meets the declarations that one in the trie meets. -/
lemma mem_visitFrom (h : a.WellFormed) (doc : ElementTree) (n : UInt32) (m : NodeId) (d : Declaration) :
    d ∈ a.visitFrom doc n m ↔ d ∈ (a.toNode n).visit doc m := by
  induction n using h.induction_on_links generalizing m with
  | step n ih =>
    rw [h.toNode_eq, IndexNode.visit, Branches.visit_eq, Branches.toList_ofList, visitFrom]
    split
    · next hnone => simp [declarationsOf, links, hnone]
    · next node hnode =>
      have hlinks : a.links n = node.edges := by simp [links, hnode]
      have hds : a.declarationsOf n = node.declarations := by simp [declarationsOf, hnode]
      have hforward {e : Edge} {k : UInt32} (hk : (e, k) ∈ node.edges) : n < k :=
        UInt32.lt_iff_toNat_lt.mpr (h.forward (hlinks ▸ hk)).1
      have hsteps {k : UInt32} {m' : NodeId} : (k, m') ∈ node.steps doc m ↔
          ∃ edge, (edge, k) ∈ node.edges ∧ m' ∈ edge.targets doc m := ArenaNode.mem_steps (hlinks ▸ h.distinct n)
      rw [hds, hlinks, List.mem_append, List.mem_append, List.mem_flatMap, List.mem_flatMap]
      apply or_congr Iff.rfl
      constructor
      · rintro ⟨⟨k, m'⟩, hstep, hd⟩
        obtain ⟨edge, hedge, hm'⟩ := hsteps.mp hstep
        rw [dif_pos (hforward hedge)] at hd
        refine ⟨(edge, a.toNode k), List.mem_map.mpr ⟨_, hedge, rfl⟩, List.mem_flatMap.mpr ⟨m', hm', ?_⟩⟩
        exact (ih edge k (hlinks ▸ hedge) m').mp hd
      · rintro ⟨p, hp, hd⟩
        obtain ⟨⟨edge, k⟩, hedge, rfl⟩ := List.mem_map.mp hp
        obtain ⟨m', hm', hd⟩ := List.mem_flatMap.mp hd
        refine ⟨(k, m'), hsteps.mpr ⟨edge, hedge, hm'⟩, ?_⟩
        rw [dif_pos (hforward hedge)]
        exact (ih edge k (hlinks ▸ hedge) m').mpr hd

/-- Handing on the row is handing on the trie. -/
lemma wireFrom_eq (h : a.WellFormed) (n : UInt32) : a.wireFrom n = (a.toNode n).wire := by
  induction n using h.induction_on_links with
  | step n ih =>
    rw [h.toNode_eq, IndexNode.wire, Branches.wire_eq, Branches.toList_ofList, List.map_map, wireFrom]
    split
    · next hnone =>
      simp only [declarationsOf, links, hnone, Option.map_none, Option.getD_none, List.map_nil]
      rfl
    · next node hnode =>
      have hlinks : a.links n = node.edges := by simp [links, hnode]
      have hds : a.declarationsOf n = node.declarations := by simp [declarationsOf, hnode]
      have hchildren : node.edges.map (fun p => (p.1, if _ : n < p.2 then a.wireFrom p.2 else .mk none [])) =
          node.edges.map (fun p => (p.1, (a.toNode p.2).wire)) := by
        refine List.map_congr_left (fun p hp => ?_)
        have hmem : (p.1, p.2) ∈ a.links n := hlinks ▸ hp
        rw [dif_pos (UInt32.lt_iff_toNat_lt.mpr (h.forward hmem).1), ih p.1 p.2 hmem]
      rw [hds, hlinks]
      dsimp only
      rw [ArenaNode.ruleIndex_eq, hchildren, WireNode.ofEdges, ArenaNode.isLeaf, List.isEmpty_map]
      rfl

/-- What comes first in the row is handed on with all that lies below it. -/
lemma wire_eq (h : a.WellFormed) : a.wire = (a.toNode rootNumber).wire := h.wireFrom_eq rootNumber

end WellFormed

lemma links_eq_nil_iff : a.links n = [] ↔ ∀ edge, a.target? n edge = none := by
  simp only [target?_eq_lookup]
  constructor
  · intro hlinks edge
    rw [hlinks]
    rfl
  · intro hnone
    cases hlinks : a.links n with
    | nil => rfl
    | cons p ps =>
      have hp := hnone p.1
      rw [hlinks, lookup_cons_eq_ite, if_pos rfl] at hp
      cases hp

/-- Rows with the same paths and declarations are handed on in the same form. -/
lemma wire_eq_of_find?_eq (ha : a.WellFormed) (hb : b.WellFormed)
    (hsame : ∀ path, (b.find? path rootNumber).map b.declarationsOf = (a.find? path rootNumber).map a.declarationsOf) :
    b.wire = a.wire := by
  rw [ha.wire_eq, hb.wire_eq]
  refine IndexNode.wire_eq_of_at?_eq (hb.distinct_toNode _) (ha.distinct_toNode _) (fun path => ?_)
  rw [hb.declarations_at?_toNode, ha.declarations_at?_toNode, hsame]

/-! ## The index that a row holds -/

namespace LaysOut

variable {i : Index}

lemma declarations_at? (h : a.LaysOut i) (path : List Edge) :
    ((a.toNode rootNumber).at? path).map IndexNode.declarations =
      (i.root.at? path).map IndexNode.declarations := by
  rw [h.wellFormed.declarations_at?_toNode]
  have hsome := h.isSome_iff path
  cases hrow : a.find? path rootNumber with
  | none =>
    rw [hrow, Option.isSome_none] at hsome
    have hnone : i.root.at? path = none := by
      rw [← Option.not_isSome_iff_eq_none, ← hsome]
      exact Bool.false_ne_true
    rw [hnone]
    rfl
  | some m =>
    obtain ⟨node, hnode⟩ := Option.isSome_iff_exists.mp (hsome.mp (by rw [hrow]; rfl))
    have hds := h.declarationsOf_eq hrow
    rw [IndexNode.declarationsAt, hnode] at hds
    rw [hnode, Option.map_some, Option.map_some, hds]
    rfl

/-- The row is handed on in the form of its index. -/
lemma wire_eq (h : a.LaysOut i) (hi : i.root.branches.Distinct) : a.wire = i.wire := by
  rw [h.wellFormed.wire_eq]
  exact IndexNode.wire_eq_of_at?_eq (h.wellFormed.distinct_toNode _) hi h.declarations_at?

/-- A look-up in the row meets what a look-up in its index meets. -/
lemma mem_visit (h : a.LaysOut i) (hi : i.root.branches.Distinct) (doc : ElementTree) (n : NodeId)
    (d : Declaration) : d ∈ a.visit doc n ↔ d ∈ i.visit doc n := by
  have hsame (path : List Edge) : (a.toNode rootNumber).declarationsAt path = i.root.declarationsAt path := by
    rw [IndexNode.declarationsAt, IndexNode.declarationsAt, h.declarations_at?]
  rw [visit, h.wellFormed.mem_visitFrom, IndexNode.mem_visit_iff (h.wellFormed.distinct_toNode _), Index.visit,
    IndexNode.mem_visit_iff hi]
  simp only [hsame]

end LaysOut

lemma LaysOut.insert {i : Index} (h : a.LaysOut i) (hissued : a.issued = i.issued) (s : Insertion)
    (hsize : (a.insert s.attributes s.term s.specificity).size ≤ 2 ^ 32) :
    (a.insert s.attributes s.term s.specificity).LaysOut (i.insert s.attributes s.term s.specificity) := by
  have hcall := h.call (a.issued, s) hsize
  have hindex : i.insertEach [(a.issued, s)] = i.insert s.attributes s.term s.specificity := by
    rw [hissued]
    rfl
  rw [hindex] at hcall
  exact hcall

/-- Insertions in a row keep a row of nodes and an index in step. -/
lemma laysOut_insertAll (is : List Insertion) (hsize : (empty.insertAll is).size ≤ 2 ^ 32) :
    (empty.insertAll is).LaysOut (Index.empty.insertAll is) := by
  induction is using List.reverseRecOn with
  | nil => exact laysOut_empty
  | append_singleton is s ih =>
    have hrow : empty.insertAll (is ++ [s]) =
        (empty.insertAll is).insert s.attributes s.term s.specificity := by simp [insertAll]
    have hindex : Index.empty.insertAll (is ++ [s]) =
        (Index.empty.insertAll is).insert s.attributes s.term s.specificity := by simp [Index.insertAll]
    rw [hrow] at hsize ⊢
    rw [hindex]
    have hbefore : (empty.insertAll is).size ≤ 2 ^ 32 := by
      have hgrow := size_le_descend (empty.insertAll is) rootNumber s.term.path
      rw [← size_insert s.attributes s.term s.specificity] at hgrow
      exact hgrow.trans hsize
    exact (ih hbefore).insert (by rw [issued_insertAll, Index.issued_insertAll]; rfl) s hsize

/-- After any calls, failing ones among them, look-ups in the row of nodes and in the index give the same styles to
every node of every tree, and both are handed on in the same form. -/
theorem performAll_agrees (calls : List IndexCall) (hsize : (empty.performAll calls).size ≤ 2 ^ 32) :
    (∀ doc n, (empty.performAll calls).matched doc n = (Index.empty.performAll calls).matched doc n) ∧
      (empty.performAll calls).wire = (Index.empty.performAll calls).wire := by
  rw [performAll_eq] at hsize ⊢
  rw [Index.performAll_eq]
  generalize calls.flatMap IndexCall.insertions = is at hsize ⊢
  have hlays := laysOut_insertAll is hsize
  have hindex : (Index.empty.insertAll is).root.branches.Distinct := Index.insertAll_distinct is trivial
  refine ⟨fun doc n => ?_, hlays.wire_eq hindex⟩
  have hmem := hlays.mem_visit hindex doc n
  have happart : Declaration.ToldApart ((empty.insertAll is).visit doc n) := by
    apply Insertion.toldApart_of_subset 0 is
    intro d hd
    obtain ⟨path, -, hd⟩ := (IndexNode.mem_visit_iff hindex).mp ((hmem d).mp hd)
    rw [Index.declarationsAt_insertAll, Index.declarationsAt_empty, List.nil_append, List.mem_flatMap] at hd
    obtain ⟨s, hs, hd⟩ := hd
    exact List.mem_flatMap.mpr ⟨s, List.mem_of_mem_filter hs, hd⟩
  exact Styles.strongest_congr happart hmem

/-- After any row of insertions there are as many declarations in the row of nodes as in the index. -/
lemma declarationCount_insertEach (calls : List (Nat × Insertion)) (hsize : (empty.insertEach calls).size ≤ 2 ^ 32) :
    (empty.insertEach calls).declarationCount = (Index.empty.insertEach calls).declarationCount := by
  induction calls using List.reverseRecOn with
  | nil => rfl
  | append_singleton calls call ih =>
    rw [insertEach_append] at hsize ⊢
    have hbefore := (size_le_insertEach (empty.insertEach calls) [call]).trans hsize
    have hwell := (laysOut_insertEach calls hbefore).wellFormed
    have hrow : ((empty.insertEach calls).insertEach [call]).declarationCount =
        (empty.insertEach calls).declarationCount + call.2.attributes.length :=
      declarationCount_insert (a := { empty.insertEach calls with issued := call.1 }) hwell.size_pos
        (fun _ _ _ hk => (hwell.forward hk).2) call.2.attributes call.2.term call.2.specificity
    have hindex : (Index.empty.insertEach (calls ++ [call])).declarationCount =
        (Index.empty.insertEach calls).declarationCount + call.2.attributes.length := by
      rw [Index.insertEach, List.foldl_append]
      exact Index.declarationCount_insert ..
    rw [hrow, hindex, ih hbefore]

/-- The form of a row that came about by insertions is canonical and loses nothing. At every node of it the rules
are in strictly increasing order. It has just the paths of the row; at the end of each it holds, in order, what is
handed on for the declarations there, and there are rules below it just where edges lead on. No declaration is lost
or doubled. The row is a tree whose edges lead forward, and any other row of that kind, whatever numbers its nodes
have and in whatever order it lists its edges, that has the same declarations at the same paths has the same form
and so the same bytes. -/
theorem wire_canonical (calls : List (Nat × Insertion)) (hsize : (empty.insertEach calls).size ≤ 2 ^ 32) :
    let a := empty.insertEach calls
    (∀ n, Relation.ReflTransGen (fun n m => m ∈ WireNode.children n) a.wire n →
      ∀ r, n.index = some r → r.Increasing) ∧
    (∀ path, Option.Rel (fun (n : WireNode) (k : UInt32) =>
      List.Forall₂ Declaration.HandedOn (a.declarationsOf k) n.styles ∧
        (n.index = none ↔ ∀ edge, a.target? k edge = none)) (a.wire.at? path) (a.find? path rootNumber)) ∧
    a.wire.declarationCount = a.declarationCount ∧
    a.WellFormed ∧
    ∀ b : Arena, b.WellFormed →
      (∀ path, (b.find? path rootNumber).map b.declarationsOf = (a.find? path rootNumber).map a.declarationsOf) →
      b.wire = a.wire ∧ b.wire.toBytes = a.wire.toBytes := by
  intro a
  have hlays : a.LaysOut (Index.empty.insertEach calls) := laysOut_insertEach calls hsize
  have ha := hlays.wellFormed
  have hroot := ha.distinct_toNode rootNumber
  have hindex : (Index.empty.insertEach calls).root.branches.Distinct := Index.insertEach_distinct calls trivial
  refine ⟨?_, ?_, ?_, ha, ?_⟩
  · intro n hn r hr
    rw [ha.wire_eq] at hn
    obtain ⟨node, hnode, rfl⟩ := IndexNode.exists_of_reflTransGen hroot hn
    exact WireNode.increasing_of_index_ofEdges hnode.nodup_wire hr
  · intro path
    rw [ha.wire_eq, IndexNode.at?_wire hroot, ha.at?_toNode]
    cases hfound : a.find? path rootNumber with
    | none => exact .none
    | some k =>
      have hds := hlays.declarationsOf_eq hfound
      refine .some ⟨?_, ?_⟩
      · have hstyles : (a.toNode k).wire.styles = (a.declarationsOf k).map Declaration.wire := by
          rw [ha.toNode_eq]
          rfl
        rw [hstyles, hds, List.forall₂_map_right_iff, List.forall₂_same]
        intro d hd
        exact (Index.insertEach_numbered calls Index.numbered_empty path d hd).handedOn_wire
      · rw [IndexNode.index_wire_eq_none_iff, ha.toNode_eq, Branches.toList_ofList, List.map_eq_nil_iff,
          links_eq_nil_iff]
  · rw [hlays.wire_eq hindex, Index.declarationCount_wire hindex, declarationCount_insertEach calls hsize]
  · intro b hb hsame
    have hwire := wire_eq_of_find?_eq ha hb hsame
    exact ⟨hwire, congrArg WireNode.toBytes hwire⟩

/-- Two selectors put in either order: nodes have other numbers, and the form is the same. -/
theorem wire_canonical_swapped :
    let label : Term := ⟨{ Compound.universal with tag := some "Label" }, []⟩
    let bold : Term := ⟨{ Compound.universal with classes := ["bold"] }, [(.child, Compound.universal)]⟩
    let first : Nat × Insertion := (0, ⟨[⟨"Width", .ofInt 3⟩], label, label.specificity⟩)
    let second : Nat × Insertion := (1, ⟨[⟨"Font", .ofString "Arial"⟩], bold, bold.specificity⟩)
    let a := empty.insertEach [first, second]
    let b := empty.insertEach [second, first]
    a.size = 4 ∧ a.place bold = 3 ∧ b.place bold = 2 ∧ b.wire = a.wire ∧ b.wire.toBytes = a.wire.toBytes := by
  intro label bold first second a b
  have ha : a.size ≤ 2 ^ 32 := by decide
  have hb : b.size ≤ 2 ^ 32 := by decide
  have hlaysA := laysOut_insertEach _ ha
  have hlaysB := laysOut_insertEach _ hb
  have hdistinct := Index.insertEach_distinct (i := .empty) [second, first] trivial
  have hswap : (Index.empty.insertEach [second, first]).root.branches.toList.Perm
      (Index.empty.insertEach [first, second]).root.branches.toList := .swap _ _ _
  refine ⟨by decide, by decide, by decide, (wire_canonical [first, second] ha).2.2.2.2 b hlaysB.wellFormed ?_⟩
  intro path
  rw [← hlaysB.wellFormed.declarations_at?_toNode, ← hlaysA.wellFormed.declarations_at?_toNode,
    hlaysB.declarations_at?, hlaysA.declarations_at?]
  cases path with
  | nil => decide +kernel
  | cons edge path => rw [IndexNode.at?, IndexNode.at?, lookup_eq_of_perm hdistinct.nodup hswap]

end Arena

end Stylebook
