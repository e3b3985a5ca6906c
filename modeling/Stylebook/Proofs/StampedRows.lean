import Stylebook.Proofs.ArenaShape
import Stylebook.Proofs.Stamps

/-! Stamps have no gaps. Wherever an insertion puts its declarations, it puts them at the end of what one
node holds; so the orders at each node increase, and those at all nodes together are the numbers from zero
up to the count of stamps, each once. -/
namespace Stylebook

open scoped List

/-- Rows of declarations in which one has become longer at its end. It may be one of several new ones. -/
def Grown (before after : List (List Declaration)) (ds : List Declaration) : Prop :=
  ∃ old rest k, (before ++ List.replicate k []).Perm (old :: rest) ∧ after.Perm ((old ++ ds) :: rest)

namespace Grown

variable {before after : List (List Declaration)} {ds : List Declaration}

lemma append_right (h : Grown before after ds) (more : List (List Declaration)) :
    Grown (before ++ more) (after ++ more) ds := by
  obtain ⟨old, rest, k, hbefore, hafter⟩ := h
  refine ⟨old, rest ++ more, k, ?_, hafter.append_right more⟩
  calc before ++ more ++ List.replicate k []
    _ = before ++ (more ++ List.replicate k []) := List.append_assoc ..
    _ ~ before ++ (List.replicate k [] ++ more) := List.perm_append_comm.append_left before
    _ = before ++ List.replicate k [] ++ more := (List.append_assoc ..).symm
    _ ~ old :: rest ++ more := hbefore.append_right more

lemma append_left (h : Grown before after ds) (more : List (List Declaration)) :
    Grown (more ++ before) (more ++ after) ds := by
  obtain ⟨old, rest, k, hbefore, hafter⟩ := h.append_right more
  refine ⟨old, rest, k, ?_, List.perm_append_comm.trans hafter⟩
  exact (List.perm_append_comm.append_right _).trans hbefore

/-- A row that was made on the way counts as new. -/
lemma of_replicate {k : Nat} (h : Grown (before ++ List.replicate k []) after ds) : Grown before after ds := by
  obtain ⟨old, rest, l, hbefore, hafter⟩ := h
  refine ⟨old, rest, k + l, ?_, hafter⟩
  rw [List.replicate_add, ← List.append_assoc]
  exact hbefore

lemma flatten_perm (h : Grown before after ds) : after.flatten.Perm (before.flatten ++ ds) := by
  obtain ⟨old, rest, k, hbefore, hafter⟩ := h
  have hsame : before.flatten.Perm (old ++ rest.flatten) := by
    have hflatten := hbefore.flatten
    simpa using hflatten
  calc after.flatten
    _ ~ old ++ ds ++ rest.flatten := hafter.flatten
    _ = old ++ (ds ++ rest.flatten) := List.append_assoc ..
    _ ~ old ++ (rest.flatten ++ ds) := List.perm_append_comm.append_left old
    _ = old ++ rest.flatten ++ ds := (List.append_assoc ..).symm
    _ ~ before.flatten ++ ds := hsame.symm.append_right ds

/-- Every row is as it was, or new and empty, except for one of these with the declarations at its end. -/
lemma of_mem (h : Grown before after ds) {row : List Declaration} (hrow : row ∈ after) :
    (row ∈ before ∨ row = []) ∨ ∃ old, (old ∈ before ∨ old = []) ∧ row = old ++ ds := by
  obtain ⟨old, rest, k, hbefore, hafter⟩ := h
  have hold (r : List Declaration) (hr : r ∈ old :: rest) : r ∈ before ∨ r = [] := by
    rcases List.mem_append.mp (hbefore.mem_iff.mpr hr) with hr | hr
    · exact .inl hr
    · exact .inr (List.eq_of_mem_replicate hr)
  rcases List.mem_cons.mp (hafter.mem_iff.mp hrow) with rfl | hrest
  · exact .inr ⟨old, hold old (List.mem_cons_self ..), rfl⟩
  · exact .inl (hold row (List.mem_cons_of_mem _ hrest))

end Grown

/-- Rows of declarations whose orders are the numbers below a count, each once, and increase in each row. -/
structure Stamped (rows : List (List Declaration)) (issued : ℕ) : Prop where
  orders : (rows.flatten.map Declaration.order).Perm ((List.range issued).map Int.ofNat)
  ids : ∀ d ∈ rows.flatten, d.id = d.order
  increasing : ∀ row ∈ rows, row.Pairwise fun d e => d.order < e.order

namespace Stamped

variable {rows after : List (List Declaration)} {issued : ℕ}

lemma length_flatten (h : Stamped rows issued) : rows.flatten.length = issued := by
  rw [← List.length_map Declaration.order, h.orders.length_eq, List.length_map, List.length_range]

lemma order_lt (h : Stamped rows issued) {d : Declaration} (hd : d ∈ rows.flatten) : d.order < issued := by
  have hmem := h.orders.mem_iff.mp (List.mem_map_of_mem hd)
  obtain ⟨k, hk, heq⟩ := List.mem_map.mp hmem
  rw [← heq]
  exact Int.ofNat_lt.mpr (List.mem_range.mp hk)

/-- Declarations that are stamped next keep it so, at whichever row they are put. -/
lemma grow (h : Stamped rows issued) {priority : Int} {as : List Attribute}
    (hg : Grown rows after (Declaration.stamp priority issued as)) : Stamped after (issued + as.length) := by
  have hstamps := Declaration.map_order_stamp priority issued as
  refine ⟨?_, fun _ _ => rfl, ?_⟩
  · calc after.flatten.map Declaration.order
      _ ~ (rows.flatten ++ Declaration.stamp priority issued as).map Declaration.order := hg.flatten_perm.map _
      _ = rows.flatten.map Declaration.order ++ (List.range' issued as.length).map Int.ofNat := by
        rw [List.map_append, hstamps]
      _ ~ (List.range issued).map Int.ofNat ++ (List.range' issued as.length).map Int.ofNat :=
        h.orders.append_right _
      _ = (List.range (issued + as.length)).map Int.ofNat := by
        rw [← List.map_append, List.range_eq_range', List.range_eq_range', ← List.range'_append_1,
          Nat.zero_add]
  · have hnew : (Declaration.stamp priority issued as).Pairwise fun d e => d.order < e.order := by
      rw [← List.pairwise_map (R := (· < ·)), hstamps]
      exact List.pairwise_map.mpr (.imp Int.ofNat_lt.mpr (List.pairwise_lt_range' 1))
    have hlater {e : Declaration} (he : e ∈ Declaration.stamp priority issued as) : (issued : Int) ≤ e.order := by
      have hmem := List.mem_map_of_mem (f := Declaration.order) he
      rw [hstamps] at hmem
      obtain ⟨k, hk, heq⟩ := List.mem_map.mp hmem
      rw [← heq]
      exact Int.ofNat_le.mpr (List.mem_range'_1.mp hk).1
    have hold (row : List Declaration) (hrow : row ∈ rows ∨ row = []) :
        row.Pairwise (fun d e => d.order < e.order) ∧ ∀ d ∈ row, d.order < issued := by
      rcases hrow with hrow | rfl
      · exact ⟨h.increasing row hrow, fun d hd => h.order_lt (List.mem_flatten.mpr ⟨row, hrow, hd⟩)⟩
      · simp
    intro row hrow
    rcases hg.of_mem hrow with hsame | ⟨old, hsame, rfl⟩
    · exact (hold row hsame).1
    · obtain ⟨hpairwise, hlt⟩ := hold old hsame
      exact List.pairwise_append.mpr ⟨hpairwise, hnew, fun d hd e he => (hlt d hd).trans_le (hlater he)⟩

end Stamped

/-! ## The nodes of the trie -/

/-- What the nodes behind the edges hold. -/
def Branches.rows : Branches → List (List Declaration)
  | none => []
  | branch _ declarations children siblings => declarations :: (children.rows ++ siblings.rows)

/-- What the nodes hold. -/
def IndexNode.rows (node : IndexNode) : List (List Declaration) := node.declarations :: node.branches.rows

lemma Branches.rows_branch (edge : Edge) (ds : List Declaration) (children siblings : Branches) :
    (branch edge ds children siblings).rows = IndexNode.rows ⟨ds, children⟩ ++ siblings.rows := rfl

lemma Branches.grown_modify {f : IndexNode → IndexNode} {ds : List Declaration}
    (hf : ∀ node : IndexNode, Grown node.rows (f node).rows ds) (edge : Edge) (bs : Branches) :
    Grown bs.rows (bs.modify edge f).rows ds := by
  induction bs with
  | none =>
    have hnew : Grown [[]] (f ⟨[], .none⟩).rows ds := hf ⟨[], .none⟩
    have hrows : (Branches.none.modify edge f).rows = (f ⟨[], .none⟩).rows := by
      simp [modify, rows, IndexNode.rows]
    rw [hrows]
    exact Grown.of_replicate (k := 1) hnew
  | branch e decls children siblings _ ih =>
    rw [modify, rows_branch]
    split
    · exact (hf ⟨decls, children⟩).append_right siblings.rows
    · exact ih.append_left _

lemma IndexNode.grown_insert (ds : List Declaration) (path : List Edge) (node : IndexNode) :
    Grown node.rows (node.insert ds path).rows ds := by
  induction path generalizing node with
  | nil => exact ⟨node.declarations, node.branches.rows, 0, by simp [rows], .refl _⟩
  | cons edge path ih =>
    exact (Branches.grown_modify ih edge node.branches).append_left [node.declarations]

lemma Branches.declarationCount_eq (bs : Branches) : bs.declarationCount = bs.rows.flatten.length := by
  induction bs with
  | none => rfl
  | branch e ds children siblings ihc ihs => simp [declarationCount, rows, ihc, ihs, Nat.add_assoc]

namespace Index

/-- What the nodes hold, the root first. -/
def rows (i : Index) : List (List Declaration) := i.root.rows

lemma declarationCount_eq (i : Index) : i.declarationCount = i.rows.flatten.length := by
  simp [declarationCount, rows, IndexNode.rows, Branches.declarationCount_eq]

lemma stamped_insertAll {i : Index} (h : Stamped i.rows i.issued) (is : List Insertion) :
    Stamped (i.insertAll is).rows (i.insertAll is).issued := by
  induction is generalizing i with
  | nil => exact h
  | cons s is ih =>
    rw [insertAll_cons]
    exact ih (h.grow (IndexNode.grown_insert _ s.term.path i.root))

lemma stamped_empty : Stamped empty.rows empty.issued :=
  ⟨.refl _, fun _ _ => rfl, by simp [rows, empty, IndexNode.rows, IndexNode.empty, Branches.rows]⟩

end Index

/-! ## The row of nodes -/

namespace Arena

variable {a b : Arena} {n m : UInt32} {edge : Edge}

/-- What the nodes hold, in the order of their numbers. -/
def rows (a : Arena) : List (List Declaration) := a.nodes.toList.map ArenaNode.declarations

@[simp] lemma rows_issued (a : Arena) (k : Nat) : ({ a with issued := k } : Arena).rows = a.rows := rfl

lemma declarationCount_eq (a : Arena) : a.declarationCount = a.rows.flatten.length := by
  have hfold (nodes : List ArenaNode) (k : Nat) :
      nodes.foldl (fun k node => k + node.declarations.length) k =
        k + (nodes.map ArenaNode.declarations).flatten.length := by
    induction nodes generalizing k with
    | nil => simp
    | cons node nodes ih =>
      rw [List.foldl_cons, ih]
      simp [Nat.add_assoc]
  rw [declarationCount, ← Array.foldl_toList, hfold, Nat.zero_add, rows]

lemma rows_modify {f : ArenaNode → ArenaNode} {g : List Declaration → List Declaration}
    (hf : ∀ node, (f node).declarations = g node.declarations) :
    (a.modify n f).rows = a.rows.modify n.toNat g := by
  simp only [rows, modify, Array.toList_modify]
  refine List.ext_getElem? (fun k => ?_)
  simp only [List.getElem?_map, List.getElem?_modify]
  split_ifs
  · cases a.nodes.toList[k]? <;> simp [hf]
  · simp

/-- A new node holds nothing. -/
lemma rows_grow : (a.grow n edge).1.rows = a.rows ++ [[]] := by
  have hkeep (node : ArenaNode) (child : UInt32) :
      (node.setTarget edge child).declarations = id node.declarations := by cases edge <;> rfl
  rw [grow, rows_modify (fun node => hkeep node _), List.modify_id]
  simp [rows, ArenaNode.empty]

/-- Every edge leads to a node. -/
def Closed (a : Arena) : Prop := ∀ m e k, (e, k) ∈ a.links m → k.toNat < a.size

/-- The one new edge leads to the new node. This is so even when numbers have come round. -/
lemma mem_links_of_grow (hnone : a.target? n edge = none) {k : UInt32} {e : Edge}
    (h : (e, k) ∈ (a.grow n edge).1.links m) : (e, k) ∈ a.links m ∨ k = (a.grow n edge).2 := by
  obtain ⟨node, hnode, hmem⟩ := exists_node_of_mem_links h
  let pushed : Arena := { a with nodes := a.nodes.push .empty }
  -- The node as it was before the edge was set: a new one, or one that was there.
  have hpushed (old : ArenaNode) (hold : pushed.get? m = some old) : old = .empty ∨ a.get? m = some old := by
    have hpush : pushed.get? m = if m.toNat = a.size then some .empty else a.get? m := Array.getElem?_push
    rw [hpush] at hold
    split_ifs at hold
    · exact .inl (Option.some.inj hold).symm
    · exact .inr hold
  have hkept (old : ArenaNode) (hold : pushed.get? m = some old) (hin : (e, k) ∈ old.edges) :
      (e, k) ∈ a.links m := by
    rcases hpushed old hold with rfl | hget
    · simp [ArenaNode.edges, ArenaNode.empty] at hin
    · simpa [links, hget] using hin
  have hget : (a.grow n edge).1.get? m = if m = n then
      (pushed.get? m).map (·.setTarget edge (a.grow n edge).2) else pushed.get? m := get?_modify _ m
  rw [← get?, hget] at hnode
  split_ifs at hnode with hm
  · obtain ⟨old, hold, rfl⟩ := Option.map_eq_some_iff.mp hnode
    have hfree : old.target? edge = none := by
      rcases hpushed old hold with rfl | hget
      · cases edge <;> rfl
      · rw [hm] at hget
        simpa [target?, hget] using hnone
    rcases List.mem_cons.mp ((ArenaNode.perm_edges_setTarget hfree _).mem_iff.mp hmem) with heq | hin
    · exact .inr (Prod.mk.inj heq).2
    · exact .inl (hkept old hold hin)
  · exact .inl (hkept node hnode hmem)

/-- What following a path does: nodes are added that hold nothing, and it ends at a node. -/
structure Reached (a b : Arena) (n : UInt32) : Prop where
  closed : b.Closed
  present : n.toNat < b.size
  rows : ∃ k, b.rows = a.rows ++ List.replicate k []

lemma reached_child (h : a.Closed) (n : UInt32) (edge : Edge) :
    a.Reached (a.child n edge).1 (a.child n edge).2 := by
  unfold child
  cases htarget : a.target? n edge with
  | some m =>
    rw [target?_eq_lookup] at htarget
    exact ⟨h, h n edge m (mem_of_lookup_eq_some htarget), 0, by simp⟩
  | none =>
    have hnew : (a.grow n edge).2.toNat < (a.grow n edge).1.size := by
      have hle : (UInt32.ofNat a.size).toNat ≤ a.size := by
        rw [UInt32.toNat_ofNat']
        exact Nat.mod_le _ _
      rw [size_grow]
      exact Nat.lt_succ_of_le hle
    refine ⟨fun m e k hk => ?_, hnew, 1, rows_grow⟩
    rcases mem_links_of_grow htarget hk with hk | rfl
    · rw [size_grow]
      exact Nat.lt_succ_of_lt (h m e k hk)
    · exact hnew

lemma reached_descend (h : a.Closed) (hn : n.toNat < a.size) (path : List Edge) :
    a.Reached (a.descend n path).1 (a.descend n path).2 := by
  induction path generalizing a n with
  | nil => exact ⟨h, hn, 0, by simp [descend]⟩
  | cons edge path ih =>
    obtain ⟨hclosed, hpresent, k, hrows⟩ := reached_child h n edge
    obtain ⟨hclosed', hpresent', l, hrows'⟩ := ih hclosed hpresent
    refine ⟨hclosed', hpresent', k + l, ?_⟩
    rw [descend, hrows', hrows, List.append_assoc, ← List.replicate_add]

lemma grown_addDeclarations (hn : n.toNat < a.size) (ds : List Declaration) :
    Grown a.rows (a.addDeclarations n ds).rows ds := by
  have hlength : n.toNat < a.rows.length := by simpa [rows, size] using hn
  rw [addDeclarations, rows_modify (g := (· ++ ds)) (fun _ => rfl)]
  obtain ⟨before, old, after, hrows, -, hmodify⟩ := List.exists_of_modify (· ++ ds) hlength
  rw [hmodify, hrows]
  refine ⟨old, before ++ after, 0, ?_, List.perm_middle⟩
  rw [List.replicate_zero, List.append_nil]
  exact List.perm_middle

/-- An insertion as a whole makes one of the rows longer. -/
lemma grown_insert (hsize : 0 < a.size) (hclosed : a.Closed) (attributes : List Attribute) (t : Term)
    (s : Specificity) :
    Grown a.rows (a.insert attributes t s).rows (Declaration.stamp s.priority a.issued attributes) := by
  obtain ⟨-, hpresent, k, hrows⟩ := reached_descend hclosed (n := rootNumber) hsize t.path
  have hgrown := grown_addDeclarations hpresent (Declaration.stamp s.priority a.issued attributes)
  rw [hrows] at hgrown
  rw [insert_eq, rows_issued]
  exact hgrown.of_replicate

lemma declarationCount_insert (hsize : 0 < a.size) (hclosed : a.Closed) (attributes : List Attribute) (t : Term)
    (s : Specificity) : (a.insert attributes t s).declarationCount = a.declarationCount + attributes.length := by
  rw [declarationCount_eq, declarationCount_eq, (grown_insert hsize hclosed attributes t s).flatten_perm.length_eq,
    List.length_append, Declaration.length_stamp]

/-- All that insertions keep about edges and stamps. -/
structure Kept (a : Arena) : Prop where
  size_pos : 0 < a.size
  closed : a.Closed
  stamped : Stamped a.rows a.issued

lemma Kept.insert (h : a.Kept) (attributes : List Attribute) (t : Term) (s : Specificity) :
    (a.insert attributes t s).Kept := by
  obtain ⟨hclosed, hpresent, -⟩ := reached_descend h.closed (n := rootNumber) h.size_pos t.path
  refine ⟨?_, ?_, h.stamped.grow (grown_insert h.size_pos h.closed attributes t s)⟩
  · rw [size_insert]
    omega
  · intro m e k hk
    rw [links_insert] at hk
    rw [size_insert]
    exact hclosed m e k hk

lemma kept_empty : empty.Kept where
  size_pos := by decide
  closed m e k hk := (wellFormed_empty.forward hk).2
  stamped := ⟨.refl _, fun _ _ => rfl, by simp [rows, empty, ArenaNode.empty]⟩

def insertAll (a : Arena) (is : List Insertion) : Arena :=
  is.foldl (fun a s => a.insert s.attributes s.term s.specificity) a

lemma Kept.insertAll (h : a.Kept) (is : List Insertion) : (a.insertAll is).Kept := by
  induction is generalizing a with
  | nil => exact h
  | cons s is ih =>
    rw [insertAll, List.foldl_cons]
    exact ih (h.insert s.attributes s.term s.specificity)

end Arena

end Stylebook
