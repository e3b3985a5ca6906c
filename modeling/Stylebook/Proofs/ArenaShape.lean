import Mathlib.Data.Finset.Card
import Mathlib.Data.Finset.Image
import Mathlib.Data.List.Infix
import Stylebook.Arena
import Stylebook.Proofs.IndexPaths
import Stylebook.Proofs.SelectorPath

/-! The row of nodes is a tree rooted at its first node. Every edge leads forward, every node but the root
is entered by one edge, and no node has two edges that are equal; so paths from the root and nodes
correspond, and an insertion adds the nodes of those front parts of its path that were not there. -/
namespace Stylebook

lemma Table.put_of_lookup_eq_none {κ ν : Type} [DecidableEq κ] {key : κ} {entries : List (κ × ν)}
    (h : entries.lookup key = none) (value : ν) : put key value entries = entries ++ [(key, value)] := by
  induction entries with
  | nil => rfl
  | cons p entries ih =>
    obtain ⟨k, v⟩ := p
    rw [lookup_cons_eq_ite] at h
    split_ifs at h with hk
    rw [put, if_neg (Ne.symm hk), ih h, List.cons_append]

section Keys
variable {κ κ' ν : Type} [DecidableEq κ'] {f : κ → κ'}

lemma lookup_map_fst [BEq κ] [LawfulBEq κ] (hf : Function.Injective f) (entries : List (κ × ν)) (k : κ) :
    (entries.map fun p => (f p.1, p.2)).lookup (f k) = entries.lookup k := by
  induction entries with
  | nil => rfl
  | cons p entries ih =>
    obtain ⟨l, v⟩ := p
    rw [List.map_cons, lookup_cons_eq_ite, List.lookup_cons, ih]
    by_cases hkl : k = l
    · simp [hkl]
    · have hne : (k == l) = false := beq_false_of_ne hkl
      simp [hne, hf.ne hkl]

lemma lookup_map_fst_of_ne {k : κ'} (hf : ∀ l, f l ≠ k) (entries : List (κ × ν)) :
    (entries.map fun p => (f p.1, p.2)).lookup k = none := by
  induction entries with
  | nil => rfl
  | cons p entries ih =>
    obtain ⟨l, v⟩ := p
    rw [List.map_cons, lookup_cons_eq_ite, if_neg (hf l).symm, ih]

lemma lookup_toList_map (e k : κ') (o : Option ν) :
    (o.toList.map fun v => (e, v)).lookup k = if k = e then o else none := by
  cases o with
  | none => simp
  | some v => simp [lookup_cons_eq_ite]

end Keys

namespace ArenaNode

/-- Looking an edge up in its table is looking it up among all edges. -/
lemma target?_eq_lookup (node : ArenaNode) (edge : Edge) : node.target? edge = node.edges.lookup edge := by
  have hid : Function.Injective Edge.id := fun _ _ => Edge.id.inj
  have hclass : Function.Injective Edge.className := fun _ _ => Edge.className.inj
  have htag : Function.Injective Edge.tag := fun _ _ => Edge.tag.inj
  have hnth : Function.Injective Edge.nthChild := fun _ _ => Edge.nthChild.inj
  let pair (q : String × String) : Edge := .attr q.1 q.2
  have hpair : Function.Injective pair := by
    intro p q h
    exact Prod.ext (Edge.attr.inj h).1 (Edge.attr.inj h).2
  have hattributes : node.attributes.map (fun p => (Edge.attr p.1.1 p.1.2, p.2)) =
      node.attributes.map (fun p => (pair p.1, p.2)) := rfl
  cases edge with
  | attr name value =>
    have hself : node.attributes.lookup (name, value) =
        (node.attributes.map fun p => (pair p.1, p.2)).lookup (.attr name value) :=
      (lookup_map_fst hpair node.attributes (name, value)).symm
    simp [target?, edges, List.lookup_append, lookup_toList_map, lookup_map_fst_of_ne, hattributes, hself]
  | _ =>
    simp [target?, edges, List.lookup_append, lookup_toList_map, lookup_map_fst_of_ne, lookup_map_fst, hid, hclass,
      htag, hnth, hattributes, pair]

/-- An edge that is not there yet is added, and no other is touched. -/
lemma perm_edges_setTarget {node : ArenaNode} {edge : Edge} (h : node.target? edge = none) (child : UInt32) :
    (node.setTarget edge child).edges.Perm ((edge, child) :: node.edges) := by
  rw [List.perm_iff_count]
  intro p
  rw [List.count_cons]
  cases edge <;> simp only [target?] at h <;>
    simp [edges, setTarget, h, Table.put_of_lookup_eq_none, List.count_cons] <;> omega

end ArenaNode

namespace Arena

/-- The edges out of a node. -/
def links (a : Arena) (n : UInt32) : List (Edge × UInt32) := ((a.get? n).map ArenaNode.edges).getD []

/-- The declarations at a node. -/
def declarationsOf (a : Arena) (n : UInt32) : List Declaration :=
  ((a.get? n).map ArenaNode.declarations).getD []

variable {a : Arena} {n : UInt32} {edge : Edge}

lemma target?_eq_lookup (a : Arena) (n : UInt32) (edge : Edge) :
    a.target? n edge = (a.links n).lookup edge := by
  unfold target? links
  cases a.get? n with
  | none => rfl
  | some node => exact node.target?_eq_lookup edge

lemma get?_eq_none_iff {m : UInt32} : a.get? m = none ↔ a.size ≤ m.toNat := by
  simp [get?, size]

@[simp] lemma size_modify (f : ArenaNode → ArenaNode) : (a.modify n f).size = a.size := by
  simp [size, modify]

lemma get?_modify (f : ArenaNode → ArenaNode) (m : UInt32) :
    (a.modify n f).get? m = if m = n then (a.get? m).map f else a.get? m := by
  simp only [get?, modify, Array.getElem?_modify, UInt32.toNat_inj, eq_comm]

section Grow

@[simp] lemma size_grow : (a.grow n edge).1.size = a.size + 1 := by
  simp [grow, size, modify]

lemma toNat_grow (n : UInt32) (edge : Edge) (hsize : a.size < 2 ^ 32) :
    (a.grow n edge).2.toNat = a.size := by
  simp only [grow, UInt32.toNat_ofNat']
  exact Nat.mod_eq_of_lt hsize

variable (hn : n.toNat < a.size) (hsize : a.size < 2 ^ 32)
include hn hsize

lemma get?_grow (m : UInt32) : (a.grow n edge).1.get? m =
    if m = n then (a.get? m).map (·.setTarget edge (a.grow n edge).2)
    else if m = (a.grow n edge).2 then some .empty else a.get? m := by
  have hnew := toNat_grow n edge hsize
  have hold (m : UInt32) : ({ a with nodes := a.nodes.push .empty } : Arena).get? m =
      if m = (a.grow n edge).2 then some .empty else a.get? m := by
    simp only [get?, Array.getElem?_push, ← UInt32.toNat_inj, hnew, size]
  have hne : n ≠ (a.grow n edge).2 := by
    intro heq
    rw [heq, hnew] at hn
    omega
  have hmodify := get?_modify (a := { a with nodes := a.nodes.push .empty }) (n := n)
    (·.setTarget edge (a.grow n edge).2) m
  rw [hold] at hmodify
  refine hmodify.trans ?_
  split_ifs with hm hc
  · exact absurd (hm.symm.trans hc) hne
  all_goals rfl

lemma declarationsOf_grow (m : UInt32) : (a.grow n edge).1.declarationsOf m = a.declarationsOf m := by
  have hnew := toNat_grow n edge hsize
  unfold declarationsOf
  rw [get?_grow hn hsize]
  split_ifs with hm hc
  · cases a.get? m with
    | none => rfl
    | some node => cases edge <;> rfl
  · have hnone : a.get? m = none := by
      rw [get?_eq_none_iff, hc, hnew]
    rw [hnone]
    rfl
  · rfl

lemma links_grow_of_ne {m : UInt32} (hm : m ≠ n) : (a.grow n edge).1.links m = a.links m := by
  have hnew := toNat_grow n edge hsize
  unfold links
  rw [get?_grow hn hsize, if_neg hm]
  split_ifs with hc
  · have hnone : a.get? m = none := by
      rw [get?_eq_none_iff, hc, hnew]
    rw [hnone]
    rfl
  · rfl

lemma perm_links_grow (hnone : a.target? n edge = none) :
    ((a.grow n edge).1.links n).Perm ((edge, (a.grow n edge).2) :: a.links n) := by
  unfold links
  rw [get?_grow hn hsize, if_pos rfl]
  cases hnode : a.get? n with
  | none =>
    rw [get?_eq_none_iff] at hnode
    omega
  | some node =>
    have hedge : node.target? edge = none := by simpa [target?, hnode] using hnone
    exact ArenaNode.perm_edges_setTarget hedge _

/-- One edge is added, to a node that has none. -/
lemma mem_links_grow (hnone : a.target? n edge = none) {m k : UInt32} {e : Edge} :
    (e, k) ∈ (a.grow n edge).1.links m ↔
      (e, k) ∈ a.links m ∨ m = n ∧ e = edge ∧ k = (a.grow n edge).2 := by
  by_cases hm : m = n
  · rw [hm, (perm_links_grow hn hsize hnone).mem_iff, List.mem_cons, Prod.mk.injEq]
    simp only [true_and]
    exact or_comm
  · rw [links_grow_of_ne hn hsize hm]
    simp [hm]

end Grow

/-- The shape that insertions keep: a tree whose edges lead forward in the row. -/
structure WellFormed (a : Arena) : Prop where
  size_pos : 0 < a.size
  size_le : a.size ≤ 2 ^ 32
  forward : ∀ {n m e}, (e, m) ∈ a.links n → n.toNat < m.toNat ∧ m.toNat < a.size
  distinct : ∀ n, ((a.links n).map Prod.fst).Nodup
  entered : ∀ m, m.toNat < a.size → m ≠ rootNumber → ∃ n e, (e, m) ∈ a.links n
  once : ∀ {n n' m e e'}, (e, m) ∈ a.links n → (e', m) ∈ a.links n' → n = n' ∧ e = e'

lemma wellFormed_empty : empty.WellFormed := by
  have hlinks (n : UInt32) : empty.links n = [] := by
    have hnode : empty.get? n = none ∨ empty.get? n = some .empty := by
      cases h : empty.get? n with
      | none => exact .inl rfl
      | some node =>
        have hmem : node ∈ empty.nodes := Array.mem_of_getElem? h
        exact .inr (by simpa [empty] using hmem)
    unfold links
    rcases hnode with hnode | hnode <;> rw [hnode] <;> rfl
  constructor
  · decide
  · decide
  · intro n m e h
    rw [hlinks] at h
    cases h
  · intro n
    rw [hlinks]
    exact List.nodup_nil
  · intro m hm hroot
    have hzero : m.toNat = 0 := Nat.lt_one_iff.mp hm
    exact absurd (UInt32.toNat_inj.mp hzero) hroot
  · intro n n' m e e' h
    rw [hlinks] at h
    cases h

namespace WellFormed

lemma target?_eq_some_iff (h : a.WellFormed) {m : UInt32} :
    a.target? n edge = some m ↔ (edge, m) ∈ a.links n := by
  rw [target?_eq_lookup, lookup_eq_some_iff_mem (h.distinct n)]

/-- The new node is entered by the new edge alone, and the edge was missing. -/
lemma grow (h : a.WellFormed) (hn : n.toNat < a.size) (hsize : a.size < 2 ^ 32)
    (hnone : a.target? n edge = none) : (a.grow n edge).1.WellFormed := by
  have hnew := toNat_grow n edge hsize
  have hmem {m k : UInt32} {e : Edge} := mem_links_grow hn hsize hnone (m := m) (k := k) (e := e)
  have hfresh {m : UInt32} {e : Edge} : (e, (a.grow n edge).2) ∉ a.links m := by
    intro hmem
    have hlt := (h.forward hmem).2
    omega
  constructor
  · rw [size_grow]
    omega
  · rw [size_grow]
    omega
  · intro m k e hk
    rw [size_grow]
    rcases hmem.mp hk with hk | ⟨rfl, -, rfl⟩
    · have hlt := h.forward hk
      omega
    · omega
  · intro m
    by_cases hm : m = n
    · rw [hm, ((perm_links_grow hn hsize hnone).map Prod.fst).nodup_iff]
      apply List.nodup_cons.mpr
      refine ⟨?_, h.distinct n⟩
      intro hkey
      obtain ⟨⟨e, k⟩, hk, rfl⟩ := List.mem_map.mp hkey
      rw [h.target?_eq_some_iff.mpr hk] at hnone
      cases hnone
    · rw [links_grow_of_ne hn hsize hm]
      exact h.distinct m
  · intro m hm hroot
    by_cases hc : m = (a.grow n edge).2
    · exact ⟨n, edge, hmem.mpr (.inr ⟨rfl, rfl, hc⟩)⟩
    · have hlt : m.toNat < a.size := by
        have hne : m.toNat ≠ a.size := by
          rw [← hnew]
          exact fun heq => hc (UInt32.toNat_inj.mp heq)
        rw [size_grow] at hm
        omega
      obtain ⟨k, e, hk⟩ := h.entered m hlt hroot
      exact ⟨k, e, hmem.mpr (.inl hk)⟩
  · intro k k' m e e' hk hk'
    rcases hmem.mp hk with hk | ⟨rfl, rfl, rfl⟩
    · rcases hmem.mp hk' with hk' | ⟨-, -, rfl⟩
      · exact h.once hk hk'
      · exact absurd hk hfresh
    · rcases hmem.mp hk' with hk' | ⟨rfl, rfl, -⟩
      · exact absurd hk' hfresh
      · exact ⟨rfl, rfl⟩

end WellFormed

/-- The node to which a path leads from another. -/
def find? (a : Arena) : List Edge → UInt32 → Option UInt32
  | [], n => some n
  | edge :: path, n => (a.target? n edge).bind (a.find? path)

lemma find?_append (a : Arena) (p q : List Edge) (n : UInt32) :
    a.find? (p ++ q) n = (a.find? p n).bind (a.find? q) := by
  induction p generalizing n with
  | nil => rfl
  | cons edge p ih =>
    simp only [List.cons_append, find?]
    cases a.target? n edge with
    | none => rfl
    | some m => exact ih m

lemma find?_concat_eq_some_iff {p : List Edge} {k : UInt32} :
    a.find? (p ++ [edge]) n = some k ↔ ∃ m, a.find? p n = some m ∧ a.target? m edge = some k := by
  rw [find?_append, Option.bind_eq_some_iff]
  simp [find?]

namespace WellFormed

lemma lt_of_find? (h : a.WellFormed) {p : List Edge} {m : UInt32} (hn : n.toNat < a.size)
    (hp : a.find? p n = some m) : m.toNat < a.size := by
  induction p using List.reverseRecOn generalizing m with
  | nil =>
    cases hp
    exact hn
  | append_singleton p e ih =>
    obtain ⟨k, -, hk⟩ := find?_concat_eq_some_iff.mp hp
    exact (h.forward (h.target?_eq_some_iff.mp hk)).2

/-- Different paths from the root lead to different nodes. -/
lemma find?_injective (h : a.WellFormed) {p q : List Edge} {m : UInt32}
    (hp : a.find? p rootNumber = some m) (hq : a.find? q rootNumber = some m) : p = q := by
  have hroot {r : List Edge} {e : Edge} : a.find? (r ++ [e]) rootNumber ≠ some rootNumber := by
    intro hr
    obtain ⟨k, -, hk⟩ := find?_concat_eq_some_iff.mp hr
    exact absurd (h.forward (h.target?_eq_some_iff.mp hk)).1 (Nat.not_lt_zero _)
  induction p using List.reverseRecOn generalizing q m with
  | nil =>
    cases hp
    cases q using List.reverseRecOn with
    | nil => rfl
    | append_singleton q e => exact absurd hq hroot
  | append_singleton p e ih =>
    cases q using List.reverseRecOn with
    | nil =>
      cases hq
      exact absurd hp hroot
    | append_singleton q e' =>
      obtain ⟨k, hk, he⟩ := find?_concat_eq_some_iff.mp hp
      obtain ⟨k', hk', he'⟩ := find?_concat_eq_some_iff.mp hq
      obtain ⟨rfl, rfl⟩ := h.once (h.target?_eq_some_iff.mp he) (h.target?_eq_some_iff.mp he')
      rw [ih hk hk']

/-- Every node is at the end of a path from the root. -/
lemma exists_find? (h : a.WellFormed) (m : UInt32) (hm : m.toNat < a.size) :
    ∃ p, a.find? p rootNumber = some m := by
  induction hk : m.toNat using Nat.strong_induction_on generalizing m with
  | _ k ih =>
    by_cases hroot : m = rootNumber
    · exact ⟨[], by rw [hroot]; rfl⟩
    · obtain ⟨n, e, hmem⟩ := h.entered m hm hroot
      have hlt := h.forward hmem
      obtain ⟨p, hp⟩ := ih n.toNat (by omega) n (by omega) rfl
      exact ⟨p ++ [e], find?_concat_eq_some_iff.mpr ⟨n, hp, h.target?_eq_some_iff.mpr hmem⟩⟩

/-- A new node is found behind its edge, and what was found before is found where it was. -/
lemma find?_grow (h : a.WellFormed) (hn : n.toNat < a.size) (hsize : a.size < 2 ^ 32)
    (hnone : a.target? n edge = none) {r p : List Edge} (hr : a.find? r rootNumber = some n) {m : UInt32} :
    (a.grow n edge).1.find? p rootNumber = some m ↔
      a.find? p rootNumber = some m ∨ p = r ++ [edge] ∧ m = (a.grow n edge).2 := by
  have hgrow := h.grow hn hsize hnone
  have hnew := toNat_grow n edge hsize
  have hleaf {k : UInt32} {e : Edge} : (a.grow n edge).1.target? (a.grow n edge).2 e ≠ some k := by
    intro hk
    have hlt := hgrow.forward (hgrow.target?_eq_some_iff.mp hk)
    rw [size_grow] at hlt
    omega
  have htarget {m k : UInt32} {e : Edge} : (a.grow n edge).1.target? m e = some k ↔
      a.target? m e = some k ∨ m = n ∧ e = edge ∧ k = (a.grow n edge).2 := by
    rw [hgrow.target?_eq_some_iff, h.target?_eq_some_iff, mem_links_grow hn hsize hnone]
  induction p using List.reverseRecOn generalizing m with
  | nil => simp [find?]
  | append_singleton p e ih =>
    constructor
    · intro hfound
      obtain ⟨k, hk, he⟩ := find?_concat_eq_some_iff.mp hfound
      rcases ih.mp hk with hold | ⟨-, rfl⟩
      · rcases htarget.mp he with he | ⟨rfl, rfl, rfl⟩
        · exact .inl (find?_concat_eq_some_iff.mpr ⟨k, hold, he⟩)
        · exact .inr ⟨by rw [h.find?_injective hold hr], rfl⟩
      · exact absurd he hleaf
    · rintro (hfound | ⟨heq, rfl⟩)
      · obtain ⟨k, hk, he⟩ := find?_concat_eq_some_iff.mp hfound
        exact find?_concat_eq_some_iff.mpr ⟨k, ih.mpr (.inl hk), htarget.mpr (.inl he)⟩
      · obtain ⟨rfl, he⟩ := List.append_inj' heq rfl
        obtain rfl := List.singleton_inj.mp he
        exact find?_concat_eq_some_iff.mpr ⟨n, ih.mpr (.inl hr), htarget.mpr (.inr ⟨rfl, rfl, rfl⟩)⟩

end WellFormed

/-- A later state of the row, in which a path from the root can be followed that perhaps could not before:
what was found is found where it was, and nothing else is found but the nodes along the path. -/
structure Extends (a b : Arena) (path : List Edge) : Prop where
  wellFormed : b.WellFormed
  found : ∀ {p m}, a.find? p rootNumber = some m → b.find? p rootNumber = some m
  isSome_iff : ∀ p, (b.find? p rootNumber).isSome ↔ (a.find? p rootNumber).isSome ∨ p <+: path

lemma isSome_find?_of_prefix {p q : List Edge} (hpq : p <+: q) (hq : (a.find? q n).isSome) :
    (a.find? p n).isSome := by
  obtain ⟨r, rfl⟩ := hpq
  rw [find?_append] at hq
  exact Option.isSome_of_isSome_bind hq

lemma Extends.refl {r : List Edge} (h : a.WellFormed) (hr : (a.find? r rootNumber).isSome) :
    a.Extends a r := by
  refine ⟨h, id, ?_⟩
  intro p
  have hprefix : p <+: r → (a.find? p rootNumber).isSome := fun hp => isSome_find?_of_prefix hp hr
  tauto

lemma Extends.trans {b c : Arena} {p q : List Edge} (hab : a.Extends b p) (hbc : b.Extends c q)
    (hpq : p <+: q) : a.Extends c q := by
  refine ⟨hbc.wellFormed, fun h => hbc.found (hab.found h), ?_⟩
  intro r
  have hprefix : r <+: p → r <+: q := fun hr => hr.trans hpq
  rw [hbc.isSome_iff, hab.isSome_iff]
  tauto

lemma size_le_child (a : Arena) (n : UInt32) (edge : Edge) : a.size ≤ (a.child n edge).1.size := by
  unfold child
  split
  · exact Nat.le_refl _
  · rw [size_grow]
    omega

lemma size_le_descend (a : Arena) (n : UInt32) (path : List Edge) : a.size ≤ (a.descend n path).1.size := by
  induction path generalizing a n with
  | nil => exact Nat.le_refl _
  | cons edge path ih => exact (a.size_le_child n edge).trans (ih _ _)

/-- One step of an insertion. -/
lemma child_extends (h : a.WellFormed) {r : List Edge} (hr : a.find? r rootNumber = some n)
    (hsize : (a.child n edge).1.size ≤ 2 ^ 32) :
    a.Extends (a.child n edge).1 (r ++ [edge]) ∧
      (a.child n edge).1.find? (r ++ [edge]) rootNumber = some (a.child n edge).2 ∧
      ∀ m, (a.child n edge).1.declarationsOf m = a.declarationsOf m := by
  have hroot : rootNumber.toNat < a.size := h.size_pos
  have hn : n.toNat < a.size := h.lt_of_find? hroot hr
  unfold child at hsize ⊢
  cases htarget : a.target? n edge with
  | some m =>
    have hfound : a.find? (r ++ [edge]) rootNumber = some m :=
      find?_concat_eq_some_iff.mpr ⟨n, hr, htarget⟩
    exact ⟨.refl h (by rw [hfound]; rfl), hfound, fun _ => rfl⟩
  | none =>
    rw [htarget] at hsize
    simp only [size_grow] at hsize ⊢
    have hlt : a.size < 2 ^ 32 := by omega
    have hfind {p : List Edge} {m : UInt32} := h.find?_grow hn hlt htarget hr (p := p) (m := m)
    refine ⟨⟨h.grow hn hlt htarget, fun hp => hfind.mpr (.inl hp), ?_⟩, hfind.mpr (.inr ⟨rfl, rfl⟩),
      declarationsOf_grow hn hlt⟩
    intro p
    have hprefix : p <+: r → (a.find? p rootNumber).isSome :=
      fun hp => isSome_find?_of_prefix hp (by rw [hr]; rfl)
    simp only [Option.isSome_iff_exists, hfind, exists_or, exists_and_left, exists_eq, and_true,
      List.prefix_concat_iff] at hprefix ⊢
    tauto

/-- All steps of an insertion: the path can be followed to the node that was reached. -/
lemma descend_extends (path : List Edge) (h : a.WellFormed) {r : List Edge}
    (hr : a.find? r rootNumber = some n) (hsize : (a.descend n path).1.size ≤ 2 ^ 32) :
    a.Extends (a.descend n path).1 (r ++ path) ∧
      (a.descend n path).1.find? (r ++ path) rootNumber = some (a.descend n path).2 ∧
      ∀ m, (a.descend n path).1.declarationsOf m = a.declarationsOf m := by
  induction path generalizing a n r with
  | nil =>
    rw [List.append_nil]
    exact ⟨.refl h (by rw [hr]; rfl), hr, fun _ => rfl⟩
  | cons edge path ih =>
    have hchild : (a.child n edge).1.size ≤ 2 ^ 32 := (size_le_descend _ _ path).trans hsize
    obtain ⟨hext, hfound, hds⟩ := child_extends h hr hchild
    obtain ⟨hext', hfound', hds'⟩ := ih hext.wellFormed hfound hsize
    rw [List.append_assoc, List.singleton_append] at hext' hfound'
    have hprefix : r ++ [edge] <+: r ++ edge :: path := ⟨path, by simp⟩
    exact ⟨hext.trans hext' hprefix, hfound', fun m => (hds' m).trans (hds m)⟩

section Stamped

/-- What is found depends on the edges only. -/
lemma find?_congr {b : Arena} (hlinks : ∀ m, b.links m = a.links m) (p : List Edge) (n : UInt32) :
    b.find? p n = a.find? p n := by
  induction p generalizing n with
  | nil => rfl
  | cons edge p ih =>
    simp only [find?, target?_eq_lookup, hlinks]
    exact congrArg _ (funext ih)

lemma WellFormed.congr {b : Arena} (h : a.WellFormed) (hsize : b.size = a.size)
    (hlinks : ∀ m, b.links m = a.links m) : b.WellFormed := by
  constructor
  · rw [hsize]
    exact h.size_pos
  · rw [hsize]
    exact h.size_le
  · intro n m e
    rw [hlinks, hsize]
    exact h.forward
  · intro n
    rw [hlinks]
    exact h.distinct n
  · intro m
    simp only [hlinks, hsize]
    exact h.entered m
  · intro n n' m e e'
    rw [hlinks, hlinks]
    exact h.once

@[simp] lemma size_issued (a : Arena) (k : Nat) : ({ a with issued := k } : Arena).size = a.size := rfl

@[simp] lemma links_issued (a : Arena) (k : Nat) (m : UInt32) :
    ({ a with issued := k } : Arena).links m = a.links m := rfl

@[simp] lemma declarationsOf_issued (a : Arena) (k : Nat) (m : UInt32) :
    ({ a with issued := k } : Arena).declarationsOf m = a.declarationsOf m := rfl

@[simp] lemma size_addDeclarations (ds : List Declaration) : (a.addDeclarations n ds).size = a.size :=
  size_modify _

lemma links_addDeclarations (ds : List Declaration) (m : UInt32) :
    (a.addDeclarations n ds).links m = a.links m := by
  unfold links addDeclarations
  rw [get?_modify]
  split_ifs
  · rw [Option.map_map]
    rfl
  · rfl

lemma declarationsOf_addDeclarations (hn : n.toNat < a.size) (ds : List Declaration) (m : UInt32) :
    (a.addDeclarations n ds).declarationsOf m = a.declarationsOf m ++ if m = n then ds else [] := by
  unfold declarationsOf addDeclarations
  rw [get?_modify]
  split_ifs with hm
  · cases hnode : a.get? m with
    | none =>
      rw [get?_eq_none_iff, hm] at hnode
      omega
    | some node => rfl
  · rw [List.append_nil]

variable (attributes : List Attribute) (t : Term) (s : Specificity)

lemma insert_eq : a.insert attributes t s =
    { (a.descend rootNumber t.path).1.addDeclarations (a.place t)
        (Declaration.stamp s.priority a.issued attributes) with
      issued := a.issued + attributes.length } := rfl

lemma size_insert : (a.insert attributes t s).size = (a.descend rootNumber t.path).1.size := by
  rw [insert_eq, size_issued, size_addDeclarations]

lemma links_insert (m : UInt32) :
    (a.insert attributes t s).links m = (a.descend rootNumber t.path).1.links m := by
  rw [insert_eq, links_issued, links_addDeclarations]

lemma declarationsOf_insert (h : a.WellFormed) (hsize : (a.insert attributes t s).size ≤ 2 ^ 32) (m : UInt32) :
    (a.insert attributes t s).declarationsOf m = a.declarationsOf m ++
      if m = a.place t then Declaration.stamp s.priority a.issued attributes else [] := by
  rw [size_insert] at hsize
  obtain ⟨hext, hfound, hds⟩ := descend_extends t.path h (r := []) rfl hsize
  have hroot : rootNumber.toNat < (a.descend rootNumber t.path).1.size := hext.wellFormed.size_pos
  have hplace : (a.place t).toNat < (a.descend rootNumber t.path).1.size :=
    hext.wellFormed.lt_of_find? hroot hfound
  rw [← hds m, insert_eq, declarationsOf_issued, declarationsOf_addDeclarations hplace]

/-- An insertion as a whole. -/
lemma insert_extends (h : a.WellFormed) (hsize : (a.insert attributes t s).size ≤ 2 ^ 32) :
    a.Extends (a.insert attributes t s) t.path ∧
      (a.insert attributes t s).find? t.path rootNumber = some (a.place t) := by
  have hdescend := hsize
  rw [size_insert] at hdescend
  obtain ⟨hext, hfound, -⟩ := descend_extends t.path h (r := []) rfl hdescend
  have hlinks := links_insert (a := a) attributes t s
  have hfind := find?_congr hlinks
  refine ⟨⟨hext.wellFormed.congr (size_insert attributes t s) hlinks, ?_, ?_⟩, ?_⟩
  · intro p m hp
    rw [hfind]
    exact hext.found hp
  · intro p
    rw [hfind]
    exact hext.isSome_iff p
  · rw [hfind]
    exact hfound

end Stamped

/-- Paths that can be followed from the root and nodes are the same number. -/
lemma WellFormed.size_eq_card (h : a.WellFormed) (paths : Finset (List Edge))
    (hpaths : ∀ p, p ∈ paths ↔ (a.find? p rootNumber).isSome) : a.size = paths.card := by
  have hroot : rootNumber.toNat < a.size := h.size_pos
  have hnumber {p : List Edge} (hp : p ∈ paths) : ∃ m, a.find? p rootNumber = some m :=
    Option.isSome_iff_exists.mp ((hpaths p).mp hp)
  rw [← Finset.card_range a.size]
  symm
  apply Finset.card_bij (fun p _ => ((a.find? p rootNumber).map UInt32.toNat).getD 0)
  · intro p hp
    obtain ⟨m, hm⟩ := hnumber hp
    simpa [hm] using h.lt_of_find? hroot hm
  · intro p hp q hq heq
    obtain ⟨m, hm⟩ := hnumber hp
    obtain ⟨k, hk⟩ := hnumber hq
    simp only [hm, hk, Option.map_some, Option.getD_some, UInt32.toNat_inj] at heq
    exact h.find?_injective hm (heq ▸ hk)
  · intro j hj
    have hsize := h.size_le
    have hlt := Finset.mem_range.mp hj
    have hj32 : (UInt32.ofNat j).toNat = j := by
      rw [UInt32.toNat_ofNat']
      exact Nat.mod_eq_of_lt (by omega)
    obtain ⟨p, hp⟩ := h.exists_find? (UInt32.ofNat j) (by omega)
    exact ⟨p, (hpaths p).mpr (by rw [hp]; rfl), by simp [hp, hj32]⟩

/-- Puts attributes under selectors one after the other, each time stamped from a given number on. -/
def insertEach (a : Arena) (calls : List (Nat × Insertion)) : Arena :=
  calls.foldl (fun a call =>
    { a with issued := call.1 }.insert call.2.attributes call.2.term call.2.specificity) a

lemma insertEach_cons (a : Arena) (call : Nat × Insertion) (calls : List (Nat × Insertion)) :
    a.insertEach (call :: calls) = ({ a with issued := call.1 }.insert call.2.attributes call.2.term
      call.2.specificity).insertEach calls := by
  simp only [insertEach, List.foldl_cons]

lemma insertEach_append (a : Arena) (calls more : List (Nat × Insertion)) :
    a.insertEach (calls ++ more) = (a.insertEach calls).insertEach more := by
  simp [insertEach]

lemma size_le_insertEach (a : Arena) (calls : List (Nat × Insertion)) : a.size ≤ (a.insertEach calls).size := by
  induction calls generalizing a with
  | nil => exact Nat.le_refl _
  | cons call calls ih =>
    have hdescend := size_le_descend { a with issued := call.1 } rootNumber call.2.term.path
    rw [size_issued, ← size_insert call.2.attributes call.2.term call.2.specificity] at hdescend
    rw [insertEach_cons]
    exact hdescend.trans (ih _)

lemma child_issued (a : Arena) (k : Nat) (n : UInt32) (edge : Edge) :
    ({ a with issued := k } : Arena).child n edge =
      ({ (a.child n edge).1 with issued := k }, (a.child n edge).2) := by
  have htarget : ({ a with issued := k } : Arena).target? n edge = a.target? n edge := rfl
  unfold child
  rw [htarget]
  cases a.target? n edge <;> rfl

/-- Where a selector's declarations are put does not depend on the count of stamps. -/
lemma place_issued (a : Arena) (k : Nat) (t : Term) : ({ a with issued := k } : Arena).place t = a.place t := by
  have hdescend (path : List Edge) (a : Arena) (n : UInt32) :
      ({ a with issued := k } : Arena).descend n path =
        ({ (a.descend n path).1 with issued := k }, (a.descend n path).2) := by
    induction path generalizing a n with
    | nil => rfl
    | cons edge path ih =>
      simp only [descend, child_issued]
      exact ih _ _
  unfold place
  rw [hdescend]

/-- One call, whatever number it stamps from. -/
lemma call_extends (h : a.WellFormed) (call : Nat × Insertion)
    (hsize : (a.insertEach [call]).size ≤ 2 ^ 32) :
    a.Extends (a.insertEach [call]) call.2.term.path ∧
      (a.insertEach [call]).find? call.2.term.path rootNumber = some (a.place call.2.term) ∧
      ∀ m, (a.insertEach [call]).declarationsOf m = a.declarationsOf m ++ if m = a.place call.2.term then
        Declaration.stamp call.2.specificity.priority call.1 call.2.attributes else [] := by
  have hfind (p : List Edge) : ({ a with issued := call.1 } : Arena).find? p rootNumber = a.find? p rootNumber :=
    find?_congr (links_issued a call.1) p rootNumber
  have hissued : ({ a with issued := call.1 } : Arena).WellFormed := h.congr rfl (links_issued a call.1)
  obtain ⟨hext, hfound⟩ := insert_extends call.2.attributes call.2.term call.2.specificity hissued hsize
  have hds := declarationsOf_insert call.2.attributes call.2.term call.2.specificity hissued hsize
  rw [place_issued] at hfound hds
  refine ⟨⟨hext.wellFormed, ?_, ?_⟩, hfound, hds⟩
  · intro p m hp
    exact hext.found ((hfind p).trans hp)
  · intro p
    rw [← hfind]
    exact hext.isSome_iff p

/-- The row holds an index: the same paths lead from the root, to the same declarations. -/
structure LaysOut (a : Arena) (i : Index) : Prop where
  wellFormed : a.WellFormed
  isSome_iff : ∀ p, (a.find? p rootNumber).isSome ↔ (i.root.at? p).isSome
  declarationsOf_eq : ∀ {p m}, a.find? p rootNumber = some m → a.declarationsOf m = i.root.declarationsAt p

lemma LaysOut.call {i : Index} (h : a.LaysOut i) (call : Nat × Insertion)
    (hsize : (a.insertEach [call]).size ≤ 2 ^ 32) : (a.insertEach [call]).LaysOut (i.insertEach [call]) := by
  obtain ⟨hext, hplace, hds⟩ := call_extends h.wellFormed call hsize
  have hroot : (i.insertEach [call]).root = i.root.insert
      (Declaration.stamp call.2.specificity.priority call.1 call.2.attributes) call.2.term.path := rfl
  refine ⟨hext.wellFormed, ?_, ?_⟩
  · intro p
    rw [hext.isSome_iff, h.isSome_iff, hroot, IndexNode.isSome_at?_insert]
  · intro p m hp
    have hiff : m = a.place call.2.term ↔ p = call.2.term.path := by
      constructor
      · intro hm
        exact hext.wellFormed.find?_injective hp (hm ▸ hplace)
      · intro hpath
        rw [hpath, hplace] at hp
        exact (Option.some.inj hp).symm
    have hold : a.declarationsOf m = i.root.declarationsAt p := by
      cases hbefore : a.find? p rootNumber with
      | some k =>
        have hk := hext.found hbefore
        rw [hp] at hk
        rw [Option.some.inj hk]
        exact h.declarationsOf_eq hbefore
      | none =>
        -- A path that is new leads to a node that is new, and so holds nothing yet.
        have hnew : a.get? m = none := by
          apply get?_eq_none_iff.mpr
          apply Nat.le_of_not_lt
          intro hlt
          obtain ⟨q, hq⟩ := h.wellFormed.exists_find? m hlt
          rw [hext.wellFormed.find?_injective hp (hext.found hq), hq] at hbefore
          cases hbefore
        have hnone : i.root.at? p = none := by
          rw [← Option.not_isSome_iff_eq_none, ← h.isSome_iff, hbefore]
          exact Bool.false_ne_true
        simp [declarationsOf, hnew, IndexNode.declarationsAt, hnone]
    rw [hds, hold, hroot, IndexNode.declarationsAt_insert]
    simp only [hiff]

lemma laysOut_empty : empty.LaysOut .empty := by
  refine ⟨wellFormed_empty, ?_, ?_⟩
  · intro p
    cases p with
    | nil => simp [find?, IndexNode.at?]
    | cons edge p =>
      have htarget : empty.target? rootNumber edge = none := by cases edge <;> rfl
      simp [find?, htarget, IndexNode.at?, Index.empty, IndexNode.empty, Branches.toList]
  · intro p m hp
    cases p with
    | nil =>
      cases hp
      rfl
    | cons edge p =>
      have htarget : empty.target? rootNumber edge = none := by cases edge <;> rfl
      simp [find?, htarget] at hp

/-- After any row of insertions the nodes hold the index that the same insertions make. -/
theorem laysOut_insertEach (calls : List (Nat × Insertion)) (hsize : (empty.insertEach calls).size ≤ 2 ^ 32) :
    (empty.insertEach calls).LaysOut (Index.empty.insertEach calls) := by
  induction calls using List.reverseRecOn with
  | nil => exact laysOut_empty
  | append_singleton calls call ih =>
    rw [insertEach_append] at hsize ⊢
    have hindex : Index.empty.insertEach (calls ++ [call]) =
        (Index.empty.insertEach calls).insertEach [call] := by simp [Index.insertEach]
    rw [hindex]
    have hbefore := size_le_insertEach (empty.insertEach calls) [call]
    exact (ih (hbefore.trans hsize)).call call hsize

end Arena

namespace Index

lemma isSome_at?_insertEach (i : Index) (calls : List (Nat × Insertion)) (p : List Edge) :
    ((i.insertEach calls).root.at? p).isSome ↔
      (i.root.at? p).isSome ∨ ∃ call ∈ calls, p <+: call.2.term.path := by
  induction calls generalizing i with
  | nil => simp [insertEach]
  | cons call calls ih =>
    have hcons : i.insertEach (call :: calls) = (i.insertEach [call]).insertEach calls := by
      simp [insertEach]
    have hroot : (i.insertEach [call]).root = i.root.insert
        (Declaration.stamp call.2.specificity.priority call.1 call.2.attributes) call.2.term.path := rfl
    rw [hcons, ih, hroot, IndexNode.isSome_at?_insert]
    simp only [List.mem_cons, exists_eq_or_imp, or_assoc]

/-- The front parts of the paths that selectors spell, without the empty one. -/
def fronts (calls : List (Nat × Insertion)) : Finset (List Edge) :=
  (calls.flatMap fun call => call.2.term.path.inits).toFinset.erase []

lemma mem_fronts {calls : List (Nat × Insertion)} {p : List Edge} :
    p ∈ fronts calls ↔ p ≠ [] ∧ ∃ call ∈ calls, p <+: call.2.term.path := by
  simp [fronts, List.mem_inits]

lemma isSome_at?_empty_insertEach (calls : List (Nat × Insertion)) (p : List Edge) :
    ((empty.insertEach calls).root.at? p).isSome ↔ p = [] ∨ p ∈ fronts calls := by
  rw [isSome_at?_insertEach, mem_fronts]
  cases p with
  | nil => simp [IndexNode.at?]
  | cons edge p => simp [IndexNode.at?, empty, IndexNode.empty, Branches.toList]

/-- The index has a node for each front part of a path. -/
lemma size_empty_insertEach (calls : List (Nat × Insertion)) :
    (empty.insertEach calls).size = 1 + (fronts calls).card := by
  have hdistinct : (empty.insertEach calls).root.branches.Distinct := insertEach_distinct calls trivial
  have hpaths : (empty.insertEach calls).root.branches.paths.toFinset = fronts calls := by
    ext p
    have hmem := Branches.mem_paths_iff hdistinct (empty.insertEach calls).root.declarations p
    have hsome := isSome_at?_empty_insertEach calls p
    have hnil : p ∈ fronts calls → p ≠ [] := fun hp => (mem_fronts.mp hp).1
    rw [List.mem_toFinset, hmem, hsome]
    tauto
  rw [size, ← Branches.length_paths, ← hpaths, List.toFinset_card_of_nodup hdistinct.nodup_paths]

end Index

namespace Arena

/-- The row has as many nodes as the index that it holds. -/
lemma size_insertEach_eq (calls : List (Nat × Insertion)) (hsize : (empty.insertEach calls).size ≤ 2 ^ 32) :
    (empty.insertEach calls).size = (Index.empty.insertEach calls).size := by
  have hlayout := laysOut_insertEach calls hsize
  have hpaths (p : List Edge) : p ∈ Insert.insert [] (Index.fronts calls) ↔
      ((empty.insertEach calls).find? p rootNumber).isSome := by
    rw [hlayout.isSome_iff, Index.isSome_at?_empty_insertEach, Finset.mem_insert]
  have hnil : [] ∉ Index.fronts calls := fun hmem => (Index.mem_fronts.mp hmem).1 rfl
  rw [hlayout.wellFormed.size_eq_card _ hpaths, Finset.card_insert_of_notMem hnil,
    Index.size_empty_insertEach, Nat.add_comm]

lemma links_ofNat {a : Arena} (hsize : a.size ≤ 2 ^ 32) {k : Nat} {node : ArenaNode}
    (hnode : a.nodes[k]? = some node) :
    (UInt32.ofNat k).toNat = k ∧ a.links (.ofNat k) = node.edges := by
  obtain ⟨hk, -⟩ := Array.getElem?_eq_some_iff.mp hnode
  have hlt : k < 2 ^ 32 := Nat.lt_of_lt_of_le hk hsize
  have hnumber : (UInt32.ofNat k).toNat = k := by
    rw [UInt32.toNat_ofNat']
    exact Nat.mod_eq_of_lt hlt
  refine ⟨hnumber, ?_⟩
  simp [links, get?, hnumber, hnode]

lemma exists_node_of_mem_links {a : Arena} {n m : UInt32} {e : Edge} (h : (e, m) ∈ a.links n) :
    ∃ node, a.nodes[n.toNat]? = some node ∧ (e, m) ∈ node.edges := by
  cases hnode : a.get? n with
  | none => simp [links, hnode] at h
  | some node => exact ⟨node, hnode, by simpa [links, hnode] using h⟩

/-- Two calls in a row use one node just when their selectors are equal. -/
lemma WellFormed.place_eq_iff {a : Arena} (h : a.WellFormed) (first second : Nat × Insertion)
    (hsize : ((a.insertEach [first]).insertEach [second]).size ≤ 2 ^ 32) :
    a.place first.2.term = (a.insertEach [first]).place second.2.term ↔ first.2.term = second.2.term := by
  have hbefore := size_le_insertEach (a.insertEach [first]) [second]
  obtain ⟨hext, hfirst, -⟩ := call_extends h first (hbefore.trans hsize)
  obtain ⟨hext', hsecond, -⟩ := call_extends hext.wellFormed second hsize
  have hfirst' := hext'.found hfirst
  constructor
  · intro heq
    rw [← heq] at hsecond
    exact Term.path_injective (hext'.wellFormed.find?_injective hfirst' hsecond)
  · intro heq
    rw [← heq] at hsecond ⊢
    exact Option.some.inj (hfirst'.symm.trans hsecond)

/-- What any row of insertions leaves, as long as numbers of 32 bits tell the nodes apart. Every edge leads to
a node further on in the row. Every node but the root is entered by one edge. No node has two equal edges.
Of two selectors inserted next, the declarations are put at one node just when the selectors are equal, and
nowhere else. There is the root, and one node for each front part of a path that was inserted. -/
theorem insertEach_is_tree_of_paths (calls : List (Nat × Insertion))
    (hsize : (empty.insertEach calls).size < 2 ^ 32) :
    let a := empty.insertEach calls
    (∀ (k : Nat) (node : ArenaNode), a.nodes[k]? = some node →
      ∀ e m, (e, m) ∈ node.edges → k < m.toNat ∧ m.toNat < a.size) ∧
    (∀ j, 0 < j → j < a.size → ∃! p : Nat × Edge,
      ∃ node : ArenaNode, a.nodes[p.1]? = some node ∧ (p.2, UInt32.ofNat j) ∈ node.edges) ∧
    (∀ (k : Nat) (node : ArenaNode), a.nodes[k]? = some node → (node.edges.map Prod.fst).Nodup) ∧
    (∀ first second : Nat × Insertion, let b := a.insertEach [first]
      (b.insertEach [second]).size < 2 ^ 32 →
      (∀ n, b.declarationsOf n = a.declarationsOf n ++ if n = a.place first.2.term then
        Declaration.stamp first.2.specificity.priority first.1 first.2.attributes else []) ∧
      (∀ n, (b.insertEach [second]).declarationsOf n = b.declarationsOf n ++
        if n = b.place second.2.term then
          Declaration.stamp second.2.specificity.priority second.1 second.2.attributes else []) ∧
      (a.place first.2.term = b.place second.2.term ↔ first.2.term = second.2.term)) ∧
    a.size = 1 + ((calls.flatMap fun call => call.2.term.path.inits).toFinset.erase []).card := by
  intro a
  have hlayout : a.LaysOut (Index.empty.insertEach calls) := laysOut_insertEach calls hsize.le
  have h : a.WellFormed := hlayout.wellFormed
  refine ⟨?_, ?_, ?_, ?_, ?_⟩
  · intro k node hnode e m hmem
    obtain ⟨hk, hlinks⟩ := links_ofNat h.size_le hnode
    rw [← hlinks] at hmem
    have hlt := h.forward hmem
    omega
  · intro j hpos hj
    have hnumber : (UInt32.ofNat j).toNat = j := by
      rw [UInt32.toNat_ofNat']
      exact Nat.mod_eq_of_lt (hj.trans hsize)
    have hroot : UInt32.ofNat j ≠ rootNumber := by
      intro heq
      have hzero : (UInt32.ofNat j).toNat = 0 := by rw [heq]; rfl
      omega
    obtain ⟨n, e, hmem⟩ := h.entered (.ofNat j) (by omega) hroot
    refine ⟨(n.toNat, e), exists_node_of_mem_links hmem, ?_⟩
    rintro ⟨k, e'⟩ ⟨node, hnode, hmem'⟩
    obtain ⟨hk, hlinks⟩ := links_ofNat h.size_le hnode
    obtain ⟨hn, he⟩ := h.once hmem (hlinks ▸ hmem')
    rw [Prod.mk.injEq]
    exact ⟨by rw [hn, hk], he.symm⟩
  · intro k node hnode
    rw [← (links_ofNat h.size_le hnode).2]
    exact h.distinct _
  · intro first second b hsecond
    have hfirst : b.size ≤ 2 ^ 32 := (size_le_insertEach b [second]).trans hsecond.le
    obtain ⟨hext, -, hds⟩ := call_extends h first hfirst
    obtain ⟨-, -, hds'⟩ := call_extends hext.wellFormed second hsecond.le
    exact ⟨hds, hds', h.place_eq_iff first second hsecond.le⟩
  · rw [size_insertEach_eq calls hsize.le, Index.size_empty_insertEach]
    rfl

/-- Two selectors that begin alike, one of them inserted twice: besides the root there are the three front
parts of their paths, and the next insertion of the first of them uses the node that is there. -/
theorem insertEach_is_tree_of_paths_shared :
    let both : Term := ⟨{ Compound.universal with classes := ["a", "b"] }, []⟩
    let below : Term := ⟨{ Compound.universal with classes := ["a"] }, [(.child, Compound.universal)]⟩
    let put (first : Nat) (t : Term) : Nat × Insertion := (first, ⟨[⟨"Width", .ofInt 3⟩], t, t.specificity⟩)
    let calls := [put 0 both, put 1 below, put 2 both]
    let a := empty.insertEach calls
    a.size < 2 ^ 32 ∧
      ((calls.flatMap fun call => call.2.term.path.inits).toFinset.erase []).card = 3 ∧
      a.place both = (a.insertEach [put 3 both]).place both := by
  intro both below put calls a
  have hsize : a.size = 4 := by decide +kernel
  have hlt : a.size < 2 ^ 32 := by rw [hsize]; decide
  have hsecond : ((a.insertEach [put 3 both]).insertEach [put 4 both]).size < 2 ^ 32 := by decide +kernel
  obtain ⟨-, -, -, hplaces, hcount⟩ := insertEach_is_tree_of_paths calls hlt
  have hcard := hsize.symm.trans hcount
  exact ⟨hlt, by omega, (hplaces (put 3 both) (put 4 both) hsecond).2.2.mpr rfl⟩

end Arena

end Stylebook
