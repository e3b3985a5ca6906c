import Mathlib.Data.List.Nodup
import Mathlib.Data.List.Perm.Subperm
import Mathlib.Logic.Relation
import Stylebook.Proofs.ElementForest
import Stylebook.TreeCall

/-! The elements of a tree form a forest, whatever calls were made on it: parents and children agree, no
element is its own ancestor, and a call that fails changes nothing. -/
namespace Stylebook.ElementTree

variable {t u : ElementTree} {n m p child parent : NodeId}

/-- A node has a parent. -/
def ParentOf (t : ElementTree) (n p : NodeId) : Prop := t.parent? n = some p

lemma children_of_get? {node : Node} (h : t.get? n = some node) : t.children n = node.children := by
  rw [children, h, Option.map_some, Option.getD_some]

lemma contains_of_parent? (h : t.parent? n = some p) : t.contains n = true := by
  obtain ⟨node, hnode, -⟩ := Option.bind_eq_some_iff.mp h
  exact contains_iff_exists_get?.mpr ⟨node, hnode⟩

lemma children_create (t : ElementTree) (e : Element) (n : NodeId) :
    (t.create e).2.children n = t.children n := by
  simp only [children, get?, create, Array.getElem?_push]
  split_ifs with hn
  · subst hn
    simp
  · rfl

lemma children_modifyElement (t : ElementTree) (m : NodeId) (f : Element → Element) (n : NodeId) :
    (t.modifyElement m f).children n = t.children n := by
  simp only [children, get?, modifyElement, Array.getElem?_modify]
  split_ifs
  · cases t.nodes[n]? <;> rfl
  · rfl

/-- Only the parent gets a new child. -/
lemma children_attach (t : ElementTree) (parent child n : NodeId) :
    (t.attach parent child).children n =
      if n = parent ∧ n < t.size then t.children n ++ [child] else t.children n := by
  simp only [children, get?, attach, setParent, pushChild, Array.getElem?_modify, size]
  by_cases hn : n < t.nodes.size
  · by_cases hc : child = n <;> by_cases hp : parent = n <;> simp [hn, hc, hp, eq_comm]
  · simp [hn]

/-- Parents and children agree, and no node is its own ancestor. -/
structure Forest (t : ElementTree) : Prop where
  root : t.parent? rootId = none
  parent_iff : ∀ c p, t.parent? c = some p ↔ c ∈ t.children p
  nodup : ∀ p, (t.children p).Nodup
  acyclic : ∀ n, ¬ Relation.TransGen t.ParentOf n n

namespace Forest

/-- Trees with the same parents and children are forests alike. -/
lemma congr (h : t.Forest) (hparent : ∀ n, u.parent? n = t.parent? n)
    (hchildren : ∀ n, u.children n = t.children n) : u.Forest := by
  have hrel : u.ParentOf = t.ParentOf := by
    funext n p
    simp only [ParentOf, hparent]
  refine ⟨?_, fun c p => ?_, fun p => ?_, fun n => ?_⟩
  · rw [hparent]
    exact h.root
  · rw [hparent, hchildren]
    exact h.parent_iff c p
  · rw [hchildren]
    exact h.nodup p
  · rw [hrel]
    exact h.acyclic n

lemma ofRoot (root : Element) : (ofRoot root).Forest := by
  have hparent (n : NodeId) : (ElementTree.ofRoot root).parent? n = none := by
    cases n <;> simp [parent?, get?, ElementTree.ofRoot]
  have hchildren (n : NodeId) : (ElementTree.ofRoot root).children n = [] := by
    cases n <;> simp [children, get?, ElementTree.ofRoot]
  refine ⟨hparent _, by simp [hparent, hchildren], by simp [hchildren], fun n hn => ?_⟩
  obtain ⟨p, hp, -⟩ := Relation.TransGen.head'_iff.mp hn
  simp [ParentOf, hparent] at hp

end Forest

/-! Climbing: the bound on the number of steps is never what ends it. -/

lemma climb_succ_of_parent? (h : t.parent? n = some p) (k : Nat) :
    t.climb (k + 1) n = p :: t.climb k p := by
  simp only [climb, h]

lemma climb_of_parent?_eq_none (h : t.parent? n = none) (k : Nat) : t.climb k n = [] := by
  cases k <;> simp [climb, h]

lemma transGen_of_mem_climb {k : Nat} (h : m ∈ t.climb k n) : Relation.TransGen t.ParentOf n m := by
  induction k generalizing n with
  | zero => simp [climb] at h
  | succ k ih =>
    cases hp : t.parent? n with
    | none => simp [climb_of_parent?_eq_none hp] at h
    | some p =>
      rw [climb_succ_of_parent? hp] at h
      rcases List.mem_cons.mp h with rfl | h
      · exact .single hp
      · exact .head hp (ih h)

/-- A climb that has not used up its steps is not cut short. -/
lemma climb_succ_of_length_lt {k : Nat} (h : (t.climb k n).length < k) :
    t.climb (k + 1) n = t.climb k n := by
  induction k generalizing n with
  | zero => simp at h
  | succ k ih =>
    cases hp : t.parent? n with
    | none => simp [climb_of_parent?_eq_none hp]
    | some p =>
      rw [climb_succ_of_parent? hp, List.length_cons, Nat.succ_lt_succ_iff] at h
      rw [climb_succ_of_parent? hp, climb_succ_of_parent? hp, ih h]

namespace Forest

lemma nodup_climb (h : t.Forest) (k : Nat) (n : NodeId) : (n :: t.climb k n).Nodup := by
  induction k generalizing n with
  | zero => simp [climb]
  | succ k ih =>
    refine List.nodup_cons.mpr ⟨fun hn => h.acyclic n (transGen_of_mem_climb hn), ?_⟩
    cases hp : t.parent? n with
    | none => simp [climb_of_parent?_eq_none hp]
    | some p =>
      rw [climb_succ_of_parent? hp]
      exact ih p

/-- There are fewer ancestors than nodes. -/
lemma length_climb_lt (h : t.Forest) (hpresent : t.ParentsPresent) (hn : t.contains n = true) (k : Nat) :
    (t.climb k n).length < t.size := by
  have hsub : n :: t.climb k n ⊆ List.range t.size := by
    intro m hm
    rw [List.mem_range, ← contains_iff]
    rcases List.mem_cons.mp hm with rfl | hm
    · exact hn
    · exact hpresent.of_mem_climb hm
  have hle := (List.subperm_of_subset (h.nodup_climb k n) hsub).length_le
  rw [List.length_cons, List.length_range] at hle
  omega

/-- The ancestors of a node are its parent and the ancestors of that. -/
lemma ancestors_eq (h : t.Forest) (hpresent : t.ParentsPresent) (n : NodeId) :
    t.ancestors n = (t.parent? n).elim [] fun p => p :: t.ancestors p := by
  cases hp : t.parent? n with
  | none => exact climb_of_parent?_eq_none hp _
  | some p =>
    have hlength := h.length_climb_lt hpresent (contains_of_parent? hp) t.size
    obtain ⟨k, hk⟩ : ∃ k, t.size = k + 1 := ⟨t.size - 1, by omega⟩
    rw [hk, climb_succ_of_parent? hp, List.length_cons, Nat.succ_lt_succ_iff] at hlength
    simp only [ancestors, hk, Option.elim_some, climb_succ_of_parent? hp,
      climb_succ_of_length_lt hlength]

lemma mem_ancestors_iff (h : t.Forest) (hpresent : t.ParentsPresent) :
    m ∈ t.ancestors n ↔ Relation.TransGen t.ParentOf n m := by
  refine ⟨transGen_of_mem_climb, fun hm => ?_⟩
  induction hm using Relation.TransGen.head_induction_on with
  | single hp =>
    have hp : t.parent? _ = some m := hp
    rw [h.ancestors_eq hpresent, hp]
    exact List.mem_cons_self ..
  | head hp _ ih =>
    have hp : t.parent? _ = some _ := hp
    rw [h.ancestors_eq hpresent, hp]
    exact List.mem_cons_of_mem _ ih

/-- A way that uses a new link goes up to the child, over the link, and on from the parent. -/
lemma transGen_attach (hlink : Relation.TransGen (t.attach parent child).ParentOf n m) :
    Relation.TransGen t.ParentOf n m ∨
      Relation.ReflTransGen t.ParentOf n child ∧ Relation.ReflTransGen t.ParentOf parent m := by
  have hstep {a b : NodeId} (hab : (t.attach parent child).ParentOf a b) :
      t.ParentOf a b ∨ a = child ∧ b = parent := by
    rw [ParentOf, parent?_attach] at hab
    split_ifs at hab with ha
    · exact .inr ⟨ha.1, (Option.some.inj hab).symm⟩
    · exact .inl hab
  induction hlink with
  | single hab =>
    rcases hstep hab with hab | ⟨rfl, rfl⟩
    · exact .inl (.single hab)
    · exact .inr ⟨.refl, .refl⟩
  | tail _ hbc ih =>
    rcases ih with hold | ⟨hup, hon⟩
    · rcases hstep hbc with hbc | ⟨rfl, rfl⟩
      · exact .inl (hold.tail hbc)
      · exact .inr ⟨hold.to_reflTransGen, .refl⟩
    · rcases hstep hbc with hbc | ⟨rfl, rfl⟩
      · exact .inr ⟨hup, hon.tail hbc⟩
      · exact .inr ⟨hup, .refl⟩

/-- A detached node can be tied to a node that it is not an ancestor of. -/
lemma attach (h : t.Forest) (hpresent : t.ParentsPresent) (hparent : t.contains parent = true)
    (hroot : child ≠ rootId) (hself : child ≠ parent) (habove : child ∉ t.ancestors parent)
    (hchild : t.contains child = true) (hnone : t.parent? child = none) :
    (t.attach parent child).Forest := by
  have hnowhere (p : NodeId) : child ∉ t.children p := by
    rw [← h.parent_iff, hnone]
    simp
  refine ⟨?_, fun c p => ?_, fun p => ?_, fun n hcycle => ?_⟩
  · rw [parent?_attach, if_neg (fun hc => hroot hc.1.symm)]
    exact h.root
  · have hold := h.parent_iff c p
    rw [parent?_attach, children_attach]
    by_cases hc : c = child
    · subst hc
      rw [if_pos ⟨rfl, contains_iff.mp hchild⟩, Option.some.injEq, eq_comm]
      by_cases hp : p = parent
      · subst hp
        simp [contains_iff.mp hparent]
      · simp [hp, hnowhere p]
    · rw [if_neg (fun h => hc h.1), hold]
      split_ifs <;> simp [hc]
  · rw [children_attach]
    split_ifs
    · refine List.nodup_append.mpr ⟨h.nodup p, List.nodup_singleton _, fun c hc d hd he => ?_⟩
      rw [he, List.mem_singleton.mp hd] at hc
      exact hnowhere p hc
    · exact h.nodup p
  · rcases transGen_attach hcycle with hold | ⟨hup, hon⟩
    · exact h.acyclic n hold
    · rcases Relation.reflTransGen_iff_eq_or_transGen.mp (hon.trans hup) with he | hround
      · exact hself he
      · exact habove ((h.mem_ancestors_iff hpresent).mpr hround)

end Forest

/-- Every node has a position among its siblings, at which its parent lists it. -/
lemma Forest.exists_siblingIndex (h : t.Forest) (hpresent : t.ParentsPresent) (hn : t.contains n = true) :
    ∃ i, t.siblingIndex? n = some i ∧ i < t.siblingCount n ∧
      ∀ p, t.parent? n = some p → (t.children p)[i]? = some n := by
  obtain ⟨node, hnode⟩ := contains_iff_exists_get?.mp hn
  have hparent := parent?_of_get? hnode
  cases hp : t.parent? n with
  | none =>
    refine ⟨0, ?_, ?_, by simp⟩
    · simp [siblingIndex?, hnode, ← hparent, hp]
    · simp [siblingCount, hp, hn]
  | some p =>
    have hmem : n ∈ t.children p := (h.parent_iff n p).mp hp
    obtain ⟨above, habove⟩ := contains_iff_exists_get?.mp (hpresent n p hp)
    have hindex : t.siblingIndex? n = (t.children p).findIdx? (· == n) := by
      simp [siblingIndex?, hnode, ← hparent, hp, habove, children_of_get? habove]
    obtain ⟨i, hi⟩ := Option.isSome_iff_exists.mp
      ((List.findIdx?_isSome (p := (· == n))).trans (List.any_eq_true.mpr ⟨n, hmem, by simp⟩))
    obtain ⟨hlt, hat, -⟩ := List.findIdx?_eq_some_iff_getElem.mp hi
    refine ⟨i, hindex.trans hi, ?_, fun q hq => ?_⟩
    · simpa [siblingCount, hp] using hlt
    · obtain rfl := Option.some.inj hq
      rw [List.getElem?_eq_getElem hlt]
      simpa using hat

lemma Forest.appendChild (h : t.Forest) (hpresent : t.ParentsPresent)
    (hu : t.appendChild parent child = .ok u) : u.Forest := by
  obtain ⟨hparent, hroot, hself, habove, hchild, hnone, rfl⟩ := putChild_eq_ok_iff.mp (appendChild_eq_ok_iff.mp hu)
  exact h.attach hpresent hparent hroot hself habove hchild hnone

/-- Trees made by the operations on trees are forests. -/
theorem Built.forest (h : t.Built) : t.Forest := by
  induction h with
  | ofRoot root => exact .ofRoot root
  | @create t e _ ih => exact ih.congr (parent?_create t e) (children_create t e)
  | appendChild ht hu ih => exact ih.appendChild ht.parentsPresent hu
  | @appendElement t u parent child e ht hu ih =>
    obtain ⟨-, -, happend⟩ := appendElement_eq_ok_iff.mp hu
    have hcreate := ih.congr (parent?_create t e) (children_create t e)
    exact hcreate.appendChild (ht.create e).parentsPresent happend
  | @modifyElement t n f _ ih =>
    exact ih.congr (parent?_modifyElement t n f) (children_modifyElement t n f)

/-- All that a tree of elements promises to those who walk through it. -/
structure WellLinked (t : ElementTree) : Prop where
  /-- Nodes are numbered without gaps. -/
  numbered : ∀ n, (t.get? n).isSome = true ↔ n < t.size
  root : t.parent? rootId = none
  /-- A node names as its parent the node that lists it as a child. -/
  parent_iff : ∀ c p, t.parent? c = some p ↔ c ∈ t.children p
  /-- A child is listed once, and by one node only. -/
  listed_once : ∀ c p, c ∈ t.children p →
    (t.children p).count c = 1 ∧ ∀ q, c ∈ t.children q → q = p
  /-- Going from parent to parent never comes back. -/
  acyclic : ∀ n, ¬ Relation.TransGen t.ParentOf n n
  /-- The ancestors are the parent, then its parent, and so on to the end, -/
  ancestors_eq : ∀ n, t.ancestors n = (t.parent? n).elim [] fun p => p :: t.ancestors p
  /-- all of them different, -/
  ancestors_nodup : ∀ n, (n :: t.ancestors n).Nodup
  /-- and there are no others. -/
  mem_ancestors_iff : ∀ n m, m ∈ t.ancestors n ↔ Relation.TransGen t.ParentOf n m
  /-- Every node has a position among its siblings, at which its parent lists it. -/
  position : ∀ n, t.contains n = true → ∃ i, t.siblingIndex? n = some i ∧ i < t.siblingCount n ∧
    ∀ p, t.parent? n = some p → (t.children p)[i]? = some n

lemma Built.wellLinked (h : t.Built) : t.WellLinked where
  numbered n := by rw [Option.isSome_iff_exists, ← contains_iff_exists_get?, contains_iff]
  root := h.forest.root
  parent_iff := h.forest.parent_iff
  listed_once c p hc := by
    have hparent := (h.forest.parent_iff c p).mpr hc
    refine ⟨List.count_eq_one_of_mem (h.forest.nodup p) hc, fun q hq => ?_⟩
    exact Option.some.inj (((h.forest.parent_iff c q).mpr hq).symm.trans hparent)
  acyclic := h.forest.acyclic
  ancestors_eq := h.forest.ancestors_eq h.parentsPresent
  ancestors_nodup := h.forest.nodup_climb _
  mem_ancestors_iff _ _ := h.forest.mem_ancestors_iff h.parentsPresent
  position _ := h.forest.exists_siblingIndex h.parentsPresent

/-- A node that was just made can be tied to any other node. -/
lemma putChild_create (hpresent : t.ParentsPresent) (hparent : t.contains parent = true) (e : Element) :
    (t.create e).2.putChild parent t.size = ((t.create e).2.attach parent t.size, .ok ()) := by
  have hlt := contains_iff.mp hparent
  have hnone : (t.create e).2.parent? t.size = none := by
    rw [parent?_create, parent?, get?, size, Array.getElem?_eq_none (Nat.le_refl _), Option.bind_none]
  have habove : t.size ∉ (t.create e).2.ancestors parent := by
    intro hmem
    obtain ⟨n, -, hn⟩ := Relation.TransGen.tail'_iff.mp (transGen_of_mem_climb hmem)
    rw [ParentOf, parent?_create] at hn
    exact Nat.lt_irrefl _ (contains_iff.mp (hpresent n _ hn))
  rw [putChild_eq_ok_iff, contains_iff, contains_iff, size_create]
  refine ⟨?_, ?_, ?_, habove, Nat.lt_succ_self _, hnone, rfl⟩
  · exact Nat.lt_succ_of_lt hlt
  · exact Nat.ne_of_gt (Nat.zero_lt_of_lt hlt)
  · exact Nat.ne_of_gt hlt

/-- A call that makes and appends a node fails only for want of the parent, and then does nothing. -/
lemma putElement_eq (hpresent : t.ParentsPresent) (parent : NodeId) (e : Element) :
    t.putElement parent e =
      if t.contains parent then ((t.create e).2.attach parent t.size, .ok t.size)
      else (t, .error (.nodeNotFound parent)) := by
  unfold putElement
  have hnew : (t.create e).1 = t.size := rfl
  cases hparent : t.contains parent with
  | false => rfl
  | true => simp [hnew, putChild_create hpresent hparent]

end Stylebook.ElementTree

namespace Stylebook.TreeCall

open ElementTree

variable {t : ElementTree}

/-- A call that fails leaves the tree as it was. -/
lemma eq_of_perform_error (hpresent : t.ParentsPresent) {call : TreeCall} {u : ElementTree} {e : TreeError}
    (h : call.perform t = (u, .error e)) : u = t := by
  cases call with
  | create _ => simp [perform] at h
  | appendElement parent element =>
    rw [perform, putElement_eq hpresent] at h
    split_ifs at h
    · simp [Except.map] at h
    · exact (Prod.mk.inj h).1.symm
  | appendChild parent child =>
    rcases hput : t.putChild parent child with ⟨v, err | ⟨⟨⟩⟩⟩
    · simp only [perform, hput] at h
      rw [← (Prod.mk.inj h).1]
      exact eq_of_putChild_error hput
    · simp [perform, hput, Except.map] at h

lemma built_perform (h : t.Built) (call : TreeCall) : (call.perform t).1.Built := by
  cases call with
  | create e => exact h.create e
  | appendElement parent e =>
    rw [perform, putElement_eq h.parentsPresent]
    split_ifs with hparent
    · exact (h.create e).appendChild (appendChild_eq_ok_iff.mpr (putChild_create h.parentsPresent hparent e))
    · exact h
  | appendChild parent child =>
    rcases hput : t.putChild parent child with ⟨u, e | ⟨⟨⟩⟩⟩
    · obtain rfl := eq_of_putChild_error hput
      simpa only [perform, hput] using h
    · simpa only [perform, hput] using h.appendChild (appendChild_eq_ok_iff.mpr hput)

lemma built_performAll (h : t.Built) (calls : List TreeCall) : (performAll calls t).1.Built := by
  induction calls generalizing t with
  | nil => exact h
  | cons call calls ih => exact ih (built_perform h call)

/-- A call makes the node with the next free number, or none. -/
lemma range_size_perform (h : t.Built) (call : TreeCall) :
    List.range (call.perform t).1.size = List.range t.size ++ newNodes [(call.perform t).2] := by
  cases call with
  | create e =>
    have hnode : newNodes [.ok (some t.size)] = [t.size] := rfl
    rw [perform, size_create, List.range_succ]
    exact congrArg _ hnode.symm
  | appendElement parent e =>
    rw [perform, putElement_eq h.parentsPresent]
    split_ifs
    · have hnode : newNodes [.ok (some t.size)] = [t.size] := rfl
      rw [size_attach, size_create, List.range_succ]
      exact congrArg _ hnode.symm
    · exact (List.append_nil _).symm
  | appendChild parent child =>
    rcases hput : t.putChild parent child with ⟨u, e | ⟨⟨⟩⟩⟩
    · obtain rfl := eq_of_putChild_error hput
      simp only [perform, hput]
      exact (List.append_nil _).symm
    · obtain ⟨-, -, -, -, -, -, rfl⟩ := putChild_eq_ok_iff.mp hput
      simp only [perform, hput, size_attach]
      exact (List.append_nil _).symm

lemma range_size_performAll (h : t.Built) (calls : List TreeCall) :
    List.range (performAll calls t).1.size = List.range t.size ++ newNodes (performAll calls t).2 := by
  induction calls generalizing t with
  | nil => simp [performAll, newNodes]
  | cons call calls ih =>
    have hcons (a : Except TreeError (Option NodeId)) (as : List (Except TreeError (Option NodeId))) :
        newNodes (a :: as) = newNodes [a] ++ newNodes as := by
      simp only [newNodes, ← List.filterMap_append, List.singleton_append]
    rw [performAll, hcons, ← List.append_assoc, ← range_size_perform h]
    exact ih (built_perform h call)

/-- After any calls on a tree that was a root at first, failing ones among them, the tree is linked as it
should be, and the nodes made so far have the numbers from the root's on. From there on, a call that fails
leaves the tree as it is, and a new element can be appended to every node that there is. -/
theorem performAll_wellLinked (root : Element) (calls : List TreeCall) :
    let t := (performAll calls (ofRoot root)).1
    t.WellLinked ∧
    List.range t.size = rootId :: newNodes (performAll calls (ofRoot root)).2 ∧
    (∀ (call : TreeCall) u e, call.perform t = (u, .error e) → u = t) ∧
    ∀ parent e, (∃ u err, (appendElement parent e).perform t = (u, .error err)) ↔
      t.contains parent = false := by
  intro t
  have hbuilt : t.Built := built_performAll (.ofRoot root) calls
  refine ⟨hbuilt.wellLinked, ?_, fun _ _ _ => eq_of_perform_error hbuilt.parentsPresent, fun parent e => ?_⟩
  · exact range_size_performAll (.ofRoot root) calls
  · rw [perform, putElement_eq hbuilt.parentsPresent]
    cases t.contains parent <;> simp [Except.map]

end Stylebook.TreeCall
