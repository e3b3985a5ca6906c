import Mathlib.Algebra.Order.Ring.Int
import Mathlib.Data.List.Infix
import Mathlib.Data.List.Nodup
import Mathlib.Data.List.Perm.Basic
import Stylebook.Proofs.Stamps

/-! The index as a map from paths to declarations. No node has two edges that are equal, so that a path
leads to one node at most, and an insertion changes the declarations at the end of its own path only. -/
namespace Stylebook

namespace Branches

/-- No two edges of a node are equal, here and below. -/
def Distinct : Branches → Prop
  | none => True
  | branch edge _ children siblings =>
    edge ∉ siblings.toList.map Prod.fst ∧ children.Distinct ∧ siblings.Distinct

lemma Distinct.nodup {bs : Branches} (h : bs.Distinct) : (bs.toList.map Prod.fst).Nodup := by
  induction bs with
  | none => exact List.nodup_nil
  | branch edge ds children siblings _ ih => exact List.nodup_cons.mpr ⟨h.1, ih h.2.2⟩

lemma Distinct.of_mem {bs : Branches} (h : bs.Distinct) {edge : Edge} {node : IndexNode}
    (hmem : (edge, node) ∈ bs.toList) : node.branches.Distinct := by
  induction bs with
  | none => cases hmem
  | branch e ds children siblings _ ih =>
    rcases List.mem_cons.mp hmem with he | hmem
    · obtain ⟨-, rfl⟩ := Prod.mk.inj he
      exact h.2.1
    · exact ih h.2.2 hmem

section Modify
variable (edge : Edge) (f : IndexNode → IndexNode)

lemma mem_keys_modify {e : Edge} (bs : Branches) :
    e ∈ (bs.modify edge f).toList.map Prod.fst ↔ e = edge ∨ e ∈ bs.toList.map Prod.fst := by
  induction bs with
  | none => simp [modify, toList]
  | branch e' ds children siblings _ ih =>
    simp only [modify]
    split_ifs with he
    · simp [toList, he]
    · simp only [toList, List.map_cons, List.mem_cons, ih]
      tauto

/-- The node behind the edge is changed, and no other. -/
lemma lookup_modify (bs : Branches) (e : Edge) :
    (bs.modify edge f).toList.lookup e =
      if e = edge then some (f ((bs.toList.lookup edge).getD .empty)) else bs.toList.lookup e := by
  induction bs with
  | none => simp [modify, toList, lookup_cons_eq_ite, IndexNode.empty]
  | branch e' ds children siblings _ ih =>
    simp only [modify]
    by_cases he' : e' = edge
    · rw [if_pos he']
      simp only [toList, lookup_cons_eq_ite, he', if_true, Option.getD_some]
      split_ifs <;> rfl
    · rw [if_neg he']
      simp only [toList, lookup_cons_eq_ite, ih, if_neg (Ne.symm he')]
      by_cases he : e = e'
      · rw [if_pos he, if_pos he, if_neg (he ▸ he')]
      · rw [if_neg he, if_neg he]

variable {edge f}

lemma Distinct.modify {bs : Branches} (h : bs.Distinct)
    (hf : ∀ node : IndexNode, node.branches.Distinct → (f node).branches.Distinct) :
    (bs.modify edge f).Distinct := by
  induction bs with
  | none =>
    simp only [Branches.modify]
    exact ⟨by simp [toList], hf ⟨[], .none⟩ trivial, trivial⟩
  | branch e ds children siblings _ ih =>
    obtain ⟨he, hchildren, hsiblings⟩ := h
    simp only [Branches.modify]
    split_ifs with hedge
    · exact ⟨he, hf ⟨ds, children⟩ hchildren, hsiblings⟩
    · refine ⟨fun hmem => ?_, hchildren, ih hsiblings⟩
      rcases (mem_keys_modify edge f siblings).mp hmem with heq | hmem
      · exact hedge heq
      · exact he hmem

end Modify

end Branches

namespace IndexNode

/-- The node to which a path leads. -/
def at? : List Edge → IndexNode → Option IndexNode
  | [], node => some node
  | edge :: path, node => (node.branches.toList.lookup edge).bind (at? path)

/-- The declarations at the end of a path; none if the path leads nowhere. -/
def declarationsAt (node : IndexNode) (path : List Edge) : List Declaration :=
  ((node.at? path).map declarations).getD []

lemma declarationsAt_cons (node : IndexNode) (edge : Edge) (path : List Edge) :
    node.declarationsAt (edge :: path) =
      ((node.branches.toList.lookup edge).getD .empty).declarationsAt path := by
  cases h : node.branches.toList.lookup edge with
  | none => cases path <;> simp [declarationsAt, at?, h, empty, Branches.toList]
  | some child => simp [declarationsAt, at?, h]

lemma insert_distinct (ds : List Declaration) (path : List Edge) {node : IndexNode}
    (h : node.branches.Distinct) : (node.insert ds path).branches.Distinct := by
  induction path generalizing node with
  | nil => exact h
  | cons edge path ih => exact Branches.Distinct.modify h (fun _ => ih)

/-- An insertion adds declarations at the end of its path, and nowhere else. -/
lemma declarationsAt_insert (ds : List Declaration) (path : List Edge) (node : IndexNode)
    (path' : List Edge) : (node.insert ds path).declarationsAt path' =
      node.declarationsAt path' ++ if path' = path then ds else [] := by
  induction path generalizing node path' with
  | nil =>
    cases path' with
    | nil => rfl
    | cons edge' path' => simp [declarationsAt_cons, insert]
  | cons edge path ih =>
    cases path' with
    | nil => simp [declarationsAt, at?, insert]
    | cons edge' path' =>
      rw [declarationsAt_cons, declarationsAt_cons]
      simp only [insert, Branches.lookup_modify, List.cons.injEq]
      by_cases he : edge' = edge
      · simp [he, ih]
      · simp [he]

/-- An insertion makes the nodes along its path, and no others. -/
lemma isSome_at?_insert (ds : List Declaration) (path : List Edge) (node : IndexNode) (p : List Edge) :
    ((node.insert ds path).at? p).isSome ↔ (node.at? p).isSome ∨ p <+: path := by
  induction path generalizing node p with
  | nil =>
    cases p with
    | nil => simp [at?]
    | cons e p => simp [at?, insert]
  | cons edge path ih =>
    cases p with
    | nil => simp [at?]
    | cons e p =>
      simp only [at?, insert, Branches.lookup_modify, List.cons_prefix_cons]
      by_cases he : e = edge
      · cases hnode : node.branches.toList.lookup edge with
        | none =>
          have hempty : (empty.at? p).isSome → p <+: path := by
            cases p with
            | nil => simp
            | cons e p => simp [at?, empty, Branches.toList]
          simpa [he, hnode, ih] using hempty
        | some child => simp [he, hnode, ih]
      · simp [he]

end IndexNode

namespace Branches

/-- The paths to the nodes behind the edges. -/
def paths : Branches → List (List Edge)
  | none => []
  | branch edge _ children siblings => [edge] :: children.paths.map (edge :: ·) ++ siblings.paths

lemma length_paths (bs : Branches) : bs.paths.length = bs.size := by
  induction bs with
  | none => rfl
  | branch edge ds children siblings ihc ihs =>
    simp only [paths, size, List.cons_append, List.length_cons, List.length_append, List.length_map, ihc, ihs]
    omega

lemma mem_paths_iff {bs : Branches} (h : bs.Distinct) (ds : List Declaration) (p : List Edge) :
    p ∈ bs.paths ↔ p ≠ [] ∧ (IndexNode.at? p ⟨ds, bs⟩).isSome := by
  induction bs generalizing ds p with
  | none => cases p <;> simp [paths, IndexNode.at?, toList]
  | branch edge ds' children siblings ihc ihs =>
    obtain ⟨hedge, hchildren, hsiblings⟩ := h
    have hlookup := lookup_eq_none_of_notMem hedge
    cases p with
    | nil => simp [paths, ihs hsiblings ds]
    | cons e p =>
      by_cases he : e = edge
      · simp only [paths, List.cons_append, List.mem_cons, List.mem_append, List.mem_map, ihc hchildren ds',
          ihs hsiblings ds, IndexNode.at?, toList, lookup_cons_eq_ite, he, hlookup]
        cases p <;> simp [IndexNode.at?]
      · simp [paths, ihs hsiblings ds, IndexNode.at?, toList, lookup_cons_eq_ite, he, Ne.symm he]

lemma Distinct.nodup_paths {bs : Branches} (h : bs.Distinct) : bs.paths.Nodup := by
  induction bs with
  | none => exact List.nodup_nil
  | branch edge ds children siblings ihc ihs =>
    obtain ⟨hedge, hchildren, hsiblings⟩ := h
    have hnil : [] ∉ children.paths := fun hmem => ((mem_paths_iff hchildren [] []).mp hmem).1 rfl
    have hapart (p : List Edge) : edge :: p ∉ siblings.paths := by
      intro hmem
      have hsome := ((mem_paths_iff hsiblings [] _).mp hmem).2
      simp [IndexNode.at?, lookup_eq_none_of_notMem hedge] at hsome
    have hbelow : (children.paths.map (edge :: ·)).Nodup :=
      (ihc hchildren).map (fun _ _ => List.tail_eq_of_cons_eq)
    apply List.nodup_cons.mpr
    refine ⟨?_, hbelow.append (ihs hsiblings) ?_⟩
    · simpa [hapart] using hnil
    · intro p hp hp'
      obtain ⟨q, -, rfl⟩ := List.mem_map.mp hp
      exact hapart q hp'

end Branches

/-- The numbers of a declaration as they come about: a weight of three bytes, and an order from 0 on. -/
structure Declaration.Numbered (d : Declaration) : Prop where
  priority_nonneg : 0 ≤ d.priority
  priority_lt : d.priority < 2 ^ 24
  order_nonneg : 0 ≤ d.order

lemma Specificity.priority_lt (s : Specificity) : s.priority < 2 ^ 24 := by
  unfold priority
  omega

lemma Declaration.numbered_of_mem_stamp {s : Specificity} {first : Nat} {as : List Attribute}
    {d : Declaration} (h : d ∈ Declaration.stamp s.priority first as) : d.Numbered := by
  obtain ⟨j, hj⟩ := List.mem_iff_getElem?.mp h
  rw [getElem?_stamp] at hj
  obtain ⟨a, -, rfl⟩ := Option.map_eq_some_iff.mp hj
  have hlt := s.priority_lt
  constructor <;> dsimp only <;> omega

namespace Index

/-- Over a whole run, the end of a path gets the declarations stamped for the selectors that spell the path. -/
lemma declarationsAt_insertAll (i : Index) (is : List Insertion) (path : List Edge) :
    (i.insertAll is).root.declarationsAt path = i.root.declarationsAt path ++
      ((Insertion.stampAll i.issued is).filter fun s => s.term.path = path).flatMap (·.declarations) := by
  induction is generalizing i with
  | nil => simp [Insertion.stampAll]
  | cons s is ih =>
    rw [insertAll_cons, ih, insert, IndexNode.declarationsAt_insert, Insertion.stampAll, List.append_assoc]
    by_cases hpath : s.term.path = path
    · rw [if_pos hpath.symm, List.filter_cons_of_pos (by simpa using hpath), List.flatMap_cons]
    · rw [if_neg (Ne.symm hpath), List.filter_cons_of_neg (by simpa using hpath), List.nil_append]

lemma insertAll_distinct (is : List Insertion) {i : Index} (h : i.root.branches.Distinct) :
    (i.insertAll is).root.branches.Distinct := by
  induction is generalizing i with
  | nil => exact h
  | cons s is ih => exact ih (IndexNode.insert_distinct _ _ h)

/-- Puts attributes under selectors one after the other, each time stamped from a given number on. -/
def insertEach (i : Index) (calls : List (Nat × Insertion)) : Index :=
  calls.foldl (fun i (first, s) => { i with issued := first }.insert s.attributes s.term s.specificity) i

lemma insertEach_distinct (calls : List (Nat × Insertion)) {i : Index} (h : i.root.branches.Distinct) :
    (i.insertEach calls).root.branches.Distinct := by
  induction calls generalizing i with
  | nil => exact h
  | cons call calls ih => exact ih (IndexNode.insert_distinct _ _ h)

lemma declarationsAt_empty (path : List Edge) : empty.root.declarationsAt path = [] := by
  cases path <;> simp [empty, IndexNode.empty, IndexNode.declarationsAt, IndexNode.at?, Branches.toList]

lemma numbered_empty (path : List Edge) : ∀ d ∈ empty.root.declarationsAt path, d.Numbered := by
  simp [declarationsAt_empty]

lemma insertEach_numbered (calls : List (Nat × Insertion)) {i : Index}
    (h : ∀ path, ∀ d ∈ i.root.declarationsAt path, d.Numbered) :
    ∀ path, ∀ d ∈ (i.insertEach calls).root.declarationsAt path, d.Numbered := by
  induction calls generalizing i with
  | nil => exact h
  | cons call calls ih =>
    refine ih (fun path d hd => ?_)
    have hd := (IndexNode.declarationsAt_insert ..) ▸ hd
    rcases List.mem_append.mp hd with hd | hd
    · exact h path d hd
    · split_ifs at hd
      · exact Declaration.numbered_of_mem_stamp hd
      · cases hd

end Index

end Stylebook
