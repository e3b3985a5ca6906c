import Mathlib.Tactic.Lemma
import Mathlib.Tactic.SplitIfs
import Stylebook.ElementTree

/-! Trees of elements as the operations on trees make them. Whatever such a tree names as a parent or an
ancestor is one of its nodes. -/
namespace Stylebook.ElementTree

/-- Trees made from a root by the operations on trees. An operation that fails leaves the tree alone. -/
inductive Built : ElementTree → Prop
  | ofRoot (root : Element) : Built (ofRoot root)
  | create {t : ElementTree} (e : Element) (ht : Built t) : Built (t.create e).2
  | appendChild {t u : ElementTree} {parent child : NodeId} (ht : Built t)
      (hu : t.appendChild parent child = .ok u) : Built u
  | appendElement {t u : ElementTree} {parent child : NodeId} {e : Element} (ht : Built t)
      (hu : t.appendElement parent e = .ok (child, u)) : Built u
  | modifyElement {t : ElementTree} (n : NodeId) (f : Element → Element) (ht : Built t) :
      Built (t.modifyElement n f)

lemma contains_iff {t : ElementTree} {n : NodeId} : t.contains n = true ↔ n < t.size := by
  simp [contains]

lemma contains_iff_exists_get? {t : ElementTree} {n : NodeId} :
    t.contains n = true ↔ ∃ node, t.get? n = some node := by
  rw [contains_iff, size, get?]
  constructor
  · intro h
    exact ⟨_, Array.getElem?_eq_getElem h⟩
  · rintro ⟨node, h⟩
    exact (Array.getElem?_eq_some_iff.mp h).1

lemma parent?_of_get? {t : ElementTree} {n : NodeId} {node : Node} (h : t.get? n = some node) :
    t.parent? n = node.parent := by
  rw [parent?, h, Option.bind_some]

@[simp] lemma size_modifyElement (t : ElementTree) (n : NodeId) (f : Element → Element) :
    (t.modifyElement n f).size = t.size := by simp [modifyElement, size]

lemma parent?_create (t : ElementTree) (e : Element) (n : NodeId) :
    (t.create e).2.parent? n = t.parent? n := by
  simp only [parent?, get?, create, Array.getElem?_push]
  split_ifs with hn
  · subst hn
    simp
  · rfl

lemma parent?_modifyElement (t : ElementTree) (m : NodeId) (f : Element → Element) (n : NodeId) :
    (t.modifyElement m f).parent? n = t.parent? n := by
  simp only [parent?, get?, modifyElement, Array.getElem?_modify]
  split_ifs
  · cases t.nodes[n]? <;> rfl
  · rfl

/-- Only the child gets a new parent. -/
lemma parent?_attach (t : ElementTree) (parent child n : NodeId) :
    (t.attach parent child).parent? n =
      if n = child ∧ n < t.size then some parent else t.parent? n := by
  simp only [parent?, get?, attach, setParent, pushChild, Array.getElem?_modify, size]
  by_cases hn : n < t.nodes.size
  · by_cases hc : child = n <;> by_cases hp : parent = n <;> simp [hn, hc, hp, eq_comm]
  · simp [hn]

/-- A node is appended as a whole or not at all: a parent that was seen is still there when the child has been
changed. -/
lemma putChild_eq (t : ElementTree) (parent child : NodeId) : t.putChild parent child =
    if !t.contains parent then (t, .error (.nodeNotFound parent))
    else if child = rootId || child = parent || (t.ancestors parent).contains child then
      (t, .error (.invalidAppend child parent))
    else match t.get? child with
      | none => (t, .error (.nodeNotFound child))
      | some node =>
        match node.parent with
        | some p => (t, .error (.alreadyAttached child p))
        | none => (t.attach parent child, .ok ()) := by
  unfold putChild
  split_ifs with hp hc
  · rfl
  · rfl
  · have hstill : ((t.setParent child parent).get? parent).isSome = true := by
      have hlt : parent < t.nodes.size := contains_iff.mp (by simpa using hp)
      simp [setParent, get?, hlt]
    obtain ⟨again, hagain⟩ := Option.isSome_iff_exists.mp hstill
    simp only [hagain]
    rfl

lemma putChild_eq_ok_iff {t u : ElementTree} {parent child : NodeId} : t.putChild parent child = (u, .ok ()) ↔
    t.contains parent = true ∧ child ≠ rootId ∧ child ≠ parent ∧ child ∉ t.ancestors parent ∧
      t.contains child = true ∧ t.parent? child = none ∧ u = t.attach parent child := by
  rw [putChild_eq]
  constructor
  · intro h
    split_ifs at h with hp hc
    · cases h
    · cases h
    simp only [Bool.or_eq_true, decide_eq_true_eq, List.contains_iff_mem, not_or] at hc
    split at h
    · cases h
    · next node hnode =>
      split at h
      · cases h
      · next hnone =>
        refine ⟨by simpa using hp, hc.1.1, hc.1.2, hc.2, contains_iff_exists_get?.mpr ⟨node, hnode⟩, ?_, ?_⟩
        · rw [parent?_of_get? hnode, hnone]
        · exact (Prod.mk.inj h).1.symm
  · rintro ⟨hp, hroot, hself, habove, hchild, hnone, rfl⟩
    obtain ⟨node, hnode⟩ := contains_iff_exists_get?.mp hchild
    rw [parent?_of_get? hnode] at hnone
    simp [hp, hroot, hself, habove, hnode, hnone]

lemma appendChild_eq_ok_iff {t u : ElementTree} {parent child : NodeId} : t.appendChild parent child = .ok u ↔
    t.putChild parent child = (u, .ok ()) := by
  unfold appendChild
  rcases t.putChild parent child with ⟨v, _ | ⟨⟨⟩⟩⟩ <;> simp

/-- A call that fails leaves the tree as it was. -/
lemma eq_of_putChild_error {t u : ElementTree} {parent child : NodeId} {e : TreeError}
    (h : t.putChild parent child = (u, .error e)) : u = t := by
  rw [putChild_eq] at h
  split_ifs at h
  · exact (Prod.mk.inj h).1.symm
  · exact (Prod.mk.inj h).1.symm
  · split at h
    · exact (Prod.mk.inj h).1.symm
    · split at h
      · exact (Prod.mk.inj h).1.symm
      · cases h

lemma appendElement_eq_ok_iff {t u : ElementTree} {parent child : NodeId} {e : Element} :
    t.appendElement parent e = .ok (child, u) ↔
      t.contains parent = true ∧ child = t.size ∧ (t.create e).2.appendChild parent t.size = .ok u := by
  have hnew : (t.create e).1 = t.size := rfl
  unfold appendElement putElement appendChild
  cases hparent : t.contains parent with
  | false => simp
  | true =>
    rcases hput : (t.create e).2.putChild parent t.size with ⟨v, _ | ⟨⟨⟩⟩⟩ <;> simp [hnew, hput, eq_comm]

/-- Parents are nodes of the tree. -/
def ParentsPresent (t : ElementTree) : Prop := ∀ n p, t.parent? n = some p → t.contains p = true

lemma ParentsPresent.create {t : ElementTree} (h : t.ParentsPresent) (e : Element) :
    (t.create e).2.ParentsPresent := by
  intro n p hp
  rw [parent?_create] at hp
  rw [contains_iff, size_create]
  exact Nat.lt_succ_of_lt (contains_iff.mp (h n p hp))

lemma ParentsPresent.appendChild {t u : ElementTree} {parent child : NodeId} (h : t.ParentsPresent)
    (hu : t.appendChild parent child = .ok u) : u.ParentsPresent := by
  obtain ⟨hc, -, -, -, -, -, rfl⟩ := putChild_eq_ok_iff.mp (appendChild_eq_ok_iff.mp hu)
  intro n p hp
  rw [contains_iff, size_attach, ← contains_iff]
  rw [parent?_attach] at hp
  split_ifs at hp
  · cases hp
    exact hc
  · exact h n p hp

lemma Built.parentsPresent {t : ElementTree} (h : t.Built) : t.ParentsPresent := by
  induction h with
  | ofRoot root =>
    intro n p hp
    cases n <;> simp [parent?, get?, ElementTree.ofRoot] at hp
  | create e _ ih => exact ih.create e
  | appendChild _ hu ih => exact ih.appendChild hu
  | @appendElement t u parent child e _ hu ih =>
    obtain ⟨-, -, happend⟩ := appendElement_eq_ok_iff.mp hu
    exact (ih.create e).appendChild happend
  | modifyElement m f _ ih =>
    intro n p hp
    rw [parent?_modifyElement] at hp
    rw [contains_iff, size_modifyElement, ← contains_iff]
    exact ih n p hp

lemma ParentsPresent.of_mem_climb {t : ElementTree} (h : t.ParentsPresent) {k : Nat} {n a : NodeId}
    (ha : a ∈ t.climb k n) : t.contains a = true := by
  induction k generalizing n with
  | zero => simp [climb] at ha
  | succ k ih =>
    simp only [climb] at ha
    split at ha
    · simp at ha
    · next p hp =>
      rcases List.mem_cons.mp ha with rfl | ha
      · exact h n a hp
      · exact ih ha

lemma Built.contains_parent {t : ElementTree} (h : t.Built) {n p : NodeId} (hp : t.parent? n = some p) :
    t.contains p = true := h.parentsPresent n p hp

lemma Built.contains_ancestor {t : ElementTree} (h : t.Built) {n a : NodeId} (ha : a ∈ t.ancestors n) :
    t.contains a = true := h.parentsPresent.of_mem_climb ha

end Stylebook.ElementTree
