import Mathlib.Algebra.Order.Ring.Int
import Stylebook.Matching
import Stylebook.Proofs.ForestShape

/-! What it means that a selector holds of an element. Its compounds can be placed on the element and on elements
above it, each on the parent or on some ancestor of the one before, so that every element is as its compound
says. Trying each ancestor in turn finds such a placement whenever there is one. -/
namespace Stylebook

/-! ## Positions -/

namespace NthChild

/-- The progression runs through a position. -/
def Meets (nth : NthChild) (position : ℕ) : Prop :=
  ∃ k : ℕ, (position : ℤ) = nth.step.toInt * k + nth.offset.toInt

/-- A multiple with a quotient that is not negative is a multiple by a natural number. -/
lemma tmod_and_tdiv_iff {distance step : ℤ} (hstep : step ≠ 0) :
    distance.tmod step = 0 ∧ 0 ≤ distance.tdiv step ↔ ∃ k : ℕ, distance = step * k := by
  constructor
  · rintro ⟨hmod, hdiv⟩
    obtain ⟨q, rfl⟩ := Int.dvd_iff_tmod_eq_zero.mpr hmod
    rw [Int.mul_tdiv_cancel_left _ hstep] at hdiv
    exact ⟨q.toNat, by rw [Int.toNat_of_nonneg hdiv]⟩
  · rintro ⟨k, rfl⟩
    rw [Int.mul_tmod_right, Int.mul_tdiv_cancel_left _ hstep]
    exact ⟨rfl, Int.natCast_nonneg k⟩

/-! Among siblings, positions and their distances from an offset keep clear of the ends of 64 bits. -/

lemma toInt_position {index : ℕ} (h : index < 2 ^ 32) : (Int64.ofNat index + 1).toInt = index + 1 := by
  have hone : (1 : Int64).toInt = 1 := rfl
  rw [Int64.toInt_add, Int64.toInt_ofNat_of_lt (by omega), hone, Int.bmod_eq_of_le (by omega) (by omega)]

lemma toInt_distance (offset : Int32) {index : ℕ} (h : index < 2 ^ 32) :
    (Int64.ofNat index + 1 - offset.toInt64).toInt = index + 1 - offset.toInt := by
  have hlo := offset.le_toInt
  have hhi := offset.toInt_lt
  rw [Int64.toInt_sub, toInt_position h, Int32.toInt_toInt64, Int.bmod_eq_of_le (by omega) (by omega)]

lemma distance_ne_minValue (offset : Int32) {index : ℕ} (h : index < 2 ^ 32) :
    Int64.ofNat index + 1 - offset.toInt64 ≠ Int64.minValue := by
  have hhi := offset.toInt_lt
  rw [ne_eq, ← Int64.toInt_inj, toInt_distance offset h, Int64.toInt_minValue]
  omega

/-- Counting in 64 bits tells the positions of a progression as long as no count wraps around. -/
lemma matchesIndex_iff {nth : NthChild} {index : ℕ} (h : index < 2 ^ 32) :
    nth.matchesIndex index = true ↔ nth.Meets (index + 1) := by
  have hzero : (0 : Int64).toInt = 0 := rfl
  unfold matchesIndex Meets
  simp only [← Int64.toInt_inj, Int32.toInt_toInt64, hzero, toInt_position h]
  by_cases hstep : nth.step.toInt = 0
  · simp [hstep]
  · simp only [hstep, if_false, Bool.and_eq_true, decide_eq_true_eq, Int64.le_iff_toInt_le, hzero, Int64.toInt_mod,
      Int64.toInt_div_of_ne_left _ _ (distance_ne_minValue nth.offset h), toInt_distance nth.offset h,
      Int32.toInt_toInt64, tmod_and_tdiv_iff hstep]
    refine exists_congr fun k => ?_
    push_cast
    omega

end NthChild

namespace ElementTree

variable {t : ElementTree} {n : NodeId}

/-- A node stands at a position, counted from one, in a row of siblings of some length, itself among them. A node
without a parent stands alone. -/
inductive StandsAt (t : ElementTree) (n : NodeId) : ℕ → ℕ → Prop
  | alone (h : t.parent? n = none) : StandsAt t n 1 1
  | child {p : NodeId} {i : ℕ} (h : t.parent? n = some p) (hi : (t.children p)[i]? = some n) :
      StandsAt t n (i + 1) (t.children p).length

/-- A node has no more children than there are nodes. -/
lemma Forest.length_children_le (h : t.Forest) (p : NodeId) : (t.children p).length ≤ t.size := by
  have hsub : t.children p ⊆ List.range t.size := by
    intro c hc
    rw [List.mem_range, ← contains_iff]
    exact contains_of_parent? ((h.parent_iff c p).mpr hc)
  have hle := (List.subperm_of_subset (h.nodup p) hsub).length_le
  rwa [List.length_range] at hle

/-- The place that is looked up is the one at which the node stands, and there is no other. -/
lemma Forest.standsAt_iff (h : t.Forest) (hpresent : t.ParentsPresent) (hn : t.contains n = true) {i : ℕ}
    (hi : t.siblingIndex? n = some i) {position count : ℕ} :
    t.StandsAt n position count ↔ position = i + 1 ∧ count = t.siblingCount n := by
  obtain ⟨j, hj, -, hlisted⟩ := h.exists_siblingIndex hpresent hn
  obtain rfl : i = j := Option.some.inj (hi.symm.trans hj)
  cases hp : t.parent? n with
  | none =>
    have hzero : i = 0 := by
      obtain ⟨node, hnode⟩ := contains_iff_exists_get?.mp hn
      rw [parent?_of_get? hnode] at hp
      simpa [siblingIndex?, hnode, hp, eq_comm] using hi
    have hcount : t.siblingCount n = 1 := by simp [siblingCount, hp, hn]
    rw [hzero, hcount]
    constructor
    · intro hstands
      cases hstands with
      | alone _ => exact ⟨rfl, rfl⟩
      | child hq _ => cases hp.symm.trans hq
    · rintro ⟨rfl, rfl⟩
      exact .alone hp
  | some p =>
    have hcount : t.siblingCount n = (t.children p).length := by simp [siblingCount, hp]
    rw [hcount]
    constructor
    · intro hstands
      cases hstands with
      | alone hq => cases hp.symm.trans hq
      | @child q k hq hk =>
        obtain rfl : p = q := Option.some.inj (hp.symm.trans hq)
        have hlt : k < (t.children p).length := (List.getElem?_eq_some_iff.mp hk).1
        have hsame : k = i := (List.getElem?_inj hlt (h.nodup p)).mp (hk.trans (hlisted p hp).symm)
        exact ⟨by rw [hsame], rfl⟩
    · rintro ⟨rfl, rfl⟩
      exact .child hp (hlisted p hp)

end ElementTree

/-! ## Compounds -/

namespace Compound

/-- What the predicates of a compound say of an element at a position in a row of siblings. -/
structure Describes (c : Compound) (e : Element) (position count : ℕ) : Prop where
  ids : ∀ name ∈ c.ids, e.id = some name
  classes : ∀ name ∈ c.classes, name ∈ e.classes
  tag : ∀ name ∈ c.tag, e.tag = name
  attributes : ∀ name value, (name, value) ∈ c.attributes → e.getAttribute? name = some value
  first : c.firstChild = true → position = 1
  last : c.lastChild = true → position = count
  nths : ∀ nth ∈ c.nths, nth.Meets position

/-- The node is there, and the compound describes its element where it stands. -/
def Fits (doc : ElementTree) (c : Compound) (n : NodeId) : Prop :=
  ∃ e position count, doc.element? n = some e ∧ doc.StandsAt n position count ∧ c.Describes e position count

variable {doc : ElementTree} {n : NodeId}

lemma holds_iff_describes {e : Element} {i : ℕ} (c : Compound) (he : doc.element? n = some e)
    (hi : doc.siblingIndex? n = some i) (hlt : i < 2 ^ 32) :
    c.holds doc n = true ↔ c.Describes e (i + 1) (doc.siblingCount n) := by
  have hn : doc.contains n = true := by
    obtain ⟨node, hnode, -⟩ := Option.map_eq_some_iff.mp he
    exact ElementTree.contains_iff_exists_get?.mpr ⟨node, hnode⟩
  simp only [holds, hn, Bool.true_and, Bool.and_eq_true, List.all_eq_true, Option.all_eq_true, Bool.or_eq_true,
    Bool.not_eq_true', Prod.forall, ElementTree.hasId, ElementTree.hasClass, ElementTree.hasTag,
    ElementTree.hasAttribute, ElementTree.isFirstChild, ElementTree.isLastChild, ElementTree.isNthChild, he, hi,
    Option.any_some, beq_iff_eq, Option.some.injEq, Element.hasClass, List.contains_iff_mem,
    NthChild.matchesIndex_iff hlt, ← Bool.not_eq_true, ← imp_iff_not_or]
  constructor
  · rintro ⟨⟨⟨⟨⟨⟨hids, hclasses⟩, htag⟩, hattributes⟩, hfirst⟩, hlast⟩, hnths⟩
    exact ⟨hids, hclasses, htag, hattributes, fun h => by rw [hfirst h], hlast, hnths⟩
  · intro h
    exact ⟨⟨⟨⟨⟨⟨h.ids, h.classes⟩, h.tag⟩, h.attributes⟩, fun hf => Nat.succ.inj (h.first hf)⟩, h.last⟩, h.nths⟩

lemma holds_iff_fits (hd : doc.Built) (hsize : doc.size ≤ 2 ^ 32) (c : Compound) (n : NodeId) :
    c.holds doc n = true ↔ c.Fits doc n := by
  by_cases hn : doc.contains n = true
  · obtain ⟨node, hnode⟩ := ElementTree.contains_iff_exists_get?.mp hn
    have he : doc.element? n = some node.element := by rw [ElementTree.element?, hnode, Option.map_some]
    obtain ⟨i, hi, hcount, -⟩ := hd.forest.exists_siblingIndex hd.parentsPresent hn
    have hlt : i < 2 ^ 32 := by
      have hbound : doc.siblingCount n ≤ doc.size := by
        unfold ElementTree.siblingCount
        split
        · exact hd.forest.length_children_le _
        · rw [if_pos hn]
          exact Nat.one_le_of_lt (ElementTree.contains_iff.mp hn)
      omega
    have hstands {position count : ℕ} :
        doc.StandsAt n position count ↔ position = i + 1 ∧ count = doc.siblingCount n :=
      hd.forest.standsAt_iff hd.parentsPresent hn hi
    rw [holds_iff_describes c he hi hlt]
    constructor
    · intro h
      exact ⟨node.element, i + 1, doc.siblingCount n, he, hstands.mpr ⟨rfl, rfl⟩, h⟩
    · rintro ⟨e, position, count, he', hat, h⟩
      obtain rfl : node.element = e := Option.some.inj (he.symm.trans he')
      obtain ⟨rfl, rfl⟩ := hstands.mp hat
      exact h
  · have habsent : doc.get? n = none := by
      cases hget : doc.get? n with
      | none => rfl
      | some node => exact absurd (ElementTree.contains_iff_exists_get?.mpr ⟨node, hget⟩) hn
    constructor
    · intro h
      simp [holds, hn] at h
    · rintro ⟨e, position, count, he, -, -⟩
      simp [ElementTree.element?, habsent] at he

end Compound

/-! ## Chains of compounds -/

/-- A link leads from a node to its parent, or to any proper ancestor. -/
def Link.Reaches (doc : ElementTree) : Link → NodeId → NodeId → Prop
  | .child => doc.ParentOf
  | .descendant => Relation.TransGen doc.ParentOf

lemma Link.mem_targets_iff {doc : ElementTree} (hd : doc.Built) (link : Link) {n m : NodeId} :
    m ∈ link.targets doc n ↔ link.Reaches doc n m := by
  cases link with
  | child => simp [targets, Reaches, ElementTree.ParentOf]
  | descendant => exact hd.forest.mem_ancestors_iff hd.parentsPresent

namespace Term

/-- The outer compounds of a chain stand on nodes, each within reach of the node before it. -/
def OuterPlaced (doc : ElementTree) (outer : List (Link × Compound)) (place : ℕ → NodeId) : Prop :=
  ∀ (i : ℕ) (link : Link) (c : Compound), outer[i]? = some (link, c) →
    link.Reaches doc (place i) (place (i + 1)) ∧ c.Fits doc (place (i + 1))

/-- A placement moved up by one, below which another node is put. -/
def below (n : NodeId) (place : ℕ → NodeId) : ℕ → NodeId
  | 0 => n
  | i + 1 => place i

variable {doc : ElementTree}

lemma outerPlaced_cons {link : Link} {c : Compound} {outer : List (Link × Compound)} {place : ℕ → NodeId} :
    OuterPlaced doc ((link, c) :: outer) place ↔
      (link.Reaches doc (place 0) (place 1) ∧ c.Fits doc (place 1)) ∧
        OuterPlaced doc outer fun i => place (i + 1) := by
  constructor
  · intro h
    exact ⟨h 0 link c rfl, fun i link' c' hi => h (i + 1) link' c' hi⟩
  · rintro ⟨hfirst, hrest⟩ i link' c' hi
    cases i with
    | zero =>
      cases hi
      exact hfirst
    | succ i => exact hrest i link' c' hi

lemma outerHolds_iff (hd : doc.Built) (hsize : doc.size ≤ 2 ^ 32) (outer : List (Link × Compound)) (n : NodeId) :
    outerHolds doc outer n = true ↔ ∃ place, place 0 = n ∧ OuterPlaced doc outer place := by
  induction outer generalizing n with
  | nil =>
    constructor
    · intro _
      exact ⟨fun _ => n, rfl, fun i link c hi => by cases hi⟩
    · intro _
      rfl
  | cons first outer ih =>
    obtain ⟨link, c⟩ := first
    simp only [outerHolds, List.any_eq_true, Bool.and_eq_true, link.mem_targets_iff hd,
      c.holds_iff_fits hd hsize, ih, outerPlaced_cons]
    constructor
    · rintro ⟨m, hreach, hfits, place, rfl, hplaced⟩
      exact ⟨below n place, rfl, ⟨hreach, hfits⟩, hplaced⟩
    · rintro ⟨place, rfl, ⟨hreach, hfits⟩, hplaced⟩
      exact ⟨place 1, hreach, hfits, fun i => place (i + 1), rfl, hplaced⟩

/-- A selector holds of a node exactly when there are nodes for all its compounds, from this node on upwards: each
compound describes its node, and each further node is the parent or a proper ancestor of the one before, as the
link between their compounds says. Nodes are numbered in 32 bits, so no tree has more of them. -/
theorem holds_iff_placed {doc : ElementTree} (hd : doc.Built) (hsize : doc.size ≤ 2 ^ 32) (t : Term) (n : NodeId) :
    t.holds doc n = true ↔
      ∃ place : ℕ → NodeId, place 0 = n ∧ t.head.Fits doc n ∧
        ∀ (i : ℕ) (link : Link) (c : Compound), t.outer[i]? = some (link, c) →
          link.Reaches doc (place i) (place (i + 1)) ∧ c.Fits doc (place (i + 1)) := by
  rw [holds, Bool.and_eq_true, t.head.holds_iff_fits hd hsize, outerHolds_iff hd hsize]
  constructor
  · rintro ⟨hhead, place, hzero, houter⟩
    exact ⟨place, hzero, hhead, houter⟩
  · rintro ⟨place, hzero, hhead, houter⟩
    exact ⟨hhead, place, hzero, houter⟩

/-- The nearest `b` above the `c` is no child of the `a`, but the one further up is. The `c` is the second of two
children, which is both the last position and one that `-n + 3` runs through. -/
theorem holds_iff_placed_further_up :
    let calls : List TreeCall := [.appendElement 0 (.ofTag "b"), .appendElement 1 (.ofTag "b"),
      .appendElement 2 (.ofTag "x"), .appendElement 2 (.ofTag "c")]
    let doc := (TreeCall.performAll calls (.ofRoot (.ofTag "a"))).1
    let head : Compound := ⟨[], [], some "c", [], false, true, [⟨-1, 3⟩]⟩
    let outer : List (Link × Compound) := [(.descendant, ⟨[], [], some "b", [], false, false, []⟩),
      (.child, ⟨[], [], some "a", [], false, false, []⟩)]
    doc.Built ∧ doc.size ≤ 2 ^ 32 ∧ doc.ancestors 4 = [2, 1, 0] ∧ doc.parent? 2 = some 1 ∧
      ∃ place : ℕ → NodeId, place 0 = 4 ∧ head.Fits doc 4 ∧
        ∀ (i : ℕ) (link : Link) (c : Compound), outer[i]? = some (link, c) →
          link.Reaches doc (place i) (place (i + 1)) ∧ c.Fits doc (place (i + 1)) := by
  intro calls doc head outer
  have hbuilt : doc.Built := TreeCall.built_performAll (.ofRoot (.ofTag "a")) calls
  have hsize : doc.size ≤ 2 ^ 32 := by decide +kernel
  have hholds : holds doc ⟨head, outer⟩ 4 = true := by decide +kernel
  exact ⟨hbuilt, hsize, by decide +kernel, by decide +kernel,
    (holds_iff_placed hbuilt hsize ⟨head, outer⟩ 4).mp hholds⟩

end Term

end Stylebook
