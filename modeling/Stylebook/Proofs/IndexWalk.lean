import Stylebook.Proofs.ElementForest
import Stylebook.Proofs.Stamps

/-! A look-up in the index meets exactly the declarations whose selectors hold of the element. A path
can be followed from an element just when the selector that it spells holds there; and putting
declarations at the end of a path adds to each look-up those that can follow the path, and no others. -/
namespace Stylebook

namespace Edge

/-- A path can be followed from an element. -/
def walks (doc : ElementTree) : List Edge → NodeId → Bool
  | [], _ => true
  | edge :: path, n => (edge.targets doc n).any (walks doc path)

variable {doc : ElementTree} {n : NodeId}

@[simp] lemma walks_nil : walks doc [] n = true := rfl

lemma walks_cons {edge : Edge} {path : List Edge} :
    walks doc (edge :: path) n = true ↔ ∃ m ∈ edge.targets doc n, walks doc path m = true := by
  simp [walks]

/-- Edges that only look at the element leave the walk where it is. -/
lemma walks_tests {α : Type} (edge : α → Edge) {test : α → Bool}
    (h : ∀ a, (edge a).targets doc n = if test a then [n] else []) (as : List α) (path : List Edge) :
    walks doc (as.map edge ++ path) n = (as.all test && walks doc path n) := by
  induction as with
  | nil => simp
  | cons a as ih =>
    simp only [List.map_cons, List.cons_append, walks, h]
    by_cases ha : test a = true <;> simp [ha, ih]

/-- A predicate that may be missing stands for an edge that may be missing. -/
lemma walks_flag (edge : Edge) {test : Bool} (h : edge.targets doc n = if test then [n] else [])
    (flag : Bool) (path : List Edge) :
    walks doc ((if flag then [edge] else []) ++ path) n = ((!flag || test) && walks doc path n) := by
  cases flag with
  | false => simp
  | true => simpa using walks_tests (fun _ : Unit => edge) (fun _ => h) [()] path

/-- An element is looked up by the labels that it has. -/
lemma targets_id (name : String) : (id name).targets doc n = if doc.hasId n name then [n] else [] := by
  have hiff : id name ∈ doc.labels n ↔ doc.hasId n name = true := by
    unfold ElementTree.labels ElementTree.hasId
    cases doc.element? n with
    | none => simp
    | some e => simp [Element.labels]
  simp only [targets, hiff]

lemma targets_className (name : String) :
    (className name).targets doc n = if doc.hasClass n name then [n] else [] := by
  have hiff : className name ∈ doc.labels n ↔ doc.hasClass n name = true := by
    unfold ElementTree.labels ElementTree.hasClass
    cases doc.element? n with
    | none => simp
    | some e => simp [Element.labels, Element.hasClass]
  simp only [targets, hiff]

lemma targets_tag (name : String) : (tag name).targets doc n = if doc.hasTag n name then [n] else [] := by
  have hiff : tag name ∈ doc.labels n ↔ doc.hasTag n name = true := by
    unfold ElementTree.labels ElementTree.hasTag
    cases doc.element? n with
    | none => simp
    | some e =>
      simp only [Element.labels, List.mem_append, List.mem_map, List.mem_singleton, tag.injEq, reduceCtorEq, and_false,
        exists_false, false_or, Option.map_some, Option.getD_some, Option.any_some, beq_iff_eq]
      exact eq_comm
  simp only [targets, hiff]

lemma targets_ofLink (link : Link) : (ofLink link).targets doc n = link.targets doc n := by
  cases link <;> rfl

end Edge

open Edge

/-- The path of a compound can be followed where the compound holds, and leads nowhere else. -/
lemma Compound.walks_path {doc : ElementTree} {n : NodeId} (hn : doc.contains n = true) (c : Compound)
    (path : List Edge) : walks doc (c.path ++ path) n = (c.holds doc n && walks doc path n) := by
  have htag : (c.tag.map Edge.tag).toList = c.tag.toList.map Edge.tag := by cases c.tag <;> rfl
  have hall : c.tag.toList.all (doc.hasTag n) = c.tag.all (doc.hasTag n) := by cases c.tag <;> simp
  unfold Compound.path
  simp only [List.append_assoc, htag]
  rw [walks_tests Edge.id targets_id, walks_tests Edge.className targets_className,
    walks_tests Edge.tag targets_tag, walks_tests _ (fun _ => rfl), walks_flag .firstChild rfl,
    walks_flag .lastChild rfl, walks_tests Edge.nthChild (fun _ => rfl), hall]
  simp only [Compound.holds, hn, Bool.true_and, Bool.and_assoc]

/-- What a link leads to is part of the tree. -/
lemma Link.contains_of_mem_targets {doc : ElementTree} (hd : doc.Built) {n m : NodeId} (link : Link)
    (hm : m ∈ link.targets doc n) : doc.contains m = true := by
  cases link with
  | child => exact hd.contains_parent (Option.mem_toList.mp hm)
  | descendant => exact hd.contains_ancestor hm

namespace Term

lemma walks_outer {doc : ElementTree} (hd : doc.Built) (outer : List (Link × Compound)) (n : NodeId) :
    walks doc (outer.flatMap fun (link, c) => .ofLink link :: c.path) n = outerHolds doc outer n := by
  induction outer generalizing n with
  | nil => rfl
  | cons p outer ih =>
    obtain ⟨link, c⟩ := p
    rw [Bool.eq_iff_iff, List.flatMap_cons, List.cons_append, walks_cons, targets_ofLink]
    simp only [outerHolds, List.any_eq_true]
    refine exists_congr (fun m => and_congr_right (fun hm => ?_))
    rw [Compound.walks_path (link.contains_of_mem_targets hd hm), ih]

/-- The path that a selector spells can be followed from an element just when the selector holds of it. -/
theorem walks_path {doc : ElementTree} (hd : doc.Built) {n : NodeId} (hn : doc.contains n = true)
    (t : Term) : walks doc t.path n = t.holds doc n := by
  rw [path, Compound.walks_path hn, walks_outer hd, holds]

end Term

section Absent
variable {doc : ElementTree} {n : NodeId} (hn : doc.contains n = false)
include hn

namespace ElementTree

lemma get?_of_absent : doc.get? n = none := by
  rw [contains, decide_eq_false_iff_not] at hn
  exact Array.getElem?_eq_none (Nat.le_of_not_lt hn)

lemma element?_of_absent : doc.element? n = none := by rw [element?, get?_of_absent hn, Option.map_none]

lemma parent?_of_absent : doc.parent? n = none := by rw [parent?, get?_of_absent hn, Option.bind_none]

lemma siblingIndex?_of_absent : doc.siblingIndex? n = none := by rw [siblingIndex?, get?_of_absent hn]

lemma ancestors_of_absent : doc.ancestors n = [] := by
  unfold ancestors
  cases doc.size with
  | zero => rfl
  | succ k => rw [climb, parent?_of_absent hn]

end ElementTree

open ElementTree

/-- No edge leads on from a node that is not there. -/
lemma Edge.targets_of_absent (edge : Edge) : edge.targets doc n = [] := by
  cases edge with
  | id name => simp [targets, labels, element?_of_absent hn]
  | className name => simp [targets, labels, element?_of_absent hn]
  | tag name => simp [targets, labels, element?_of_absent hn]
  | attr name value => simp [targets, hasAttribute, element?_of_absent hn]
  | firstChild => simp [targets, isFirstChild, siblingIndex?_of_absent hn]
  | lastChild => simp [targets, isLastChild, siblingIndex?_of_absent hn]
  | nthChild nth => simp [targets, isNthChild, siblingIndex?_of_absent hn]
  | parent => simp [targets, parent?_of_absent hn]
  | ancestor => simp [targets, ancestors_of_absent hn]

end Absent

section Trie
variable {doc : ElementTree} {d : Declaration}

/-- A change behind an edge is met through that edge only. -/
lemma Branches.mem_visit_modify {edge : Edge} {f : IndexNode → IndexNode} {added : NodeId → Prop}
    (hf : ∀ node m, d ∈ (f node).visit doc m ↔ d ∈ node.visit doc m ∨ added m) (b : Branches)
    (n : NodeId) :
    d ∈ (b.modify edge f).visit doc n ↔
      d ∈ b.visit doc n ∨ ∃ m ∈ edge.targets doc n, added m := by
  induction b with
  | none =>
    have hnew := hf ⟨[], .none⟩
    simp only [IndexNode.visit, visit, List.append_nil, List.not_mem_nil, false_or] at hnew
    simp only [modify, visit, List.append_nil, List.not_mem_nil, false_or, List.mem_flatMap]
    exact exists_congr (fun m => and_congr_right (fun _ => hnew m))
  | branch e declarations children siblings _ ih =>
    by_cases he : e = edge
    · subst he
      have hold := hf ⟨declarations, children⟩
      simp only [IndexNode.visit] at hold
      simp only [modify, if_true, visit, List.mem_append, List.mem_flatMap] at hold ⊢
      simp only [hold, and_or_left, exists_or]
      exact or_right_comm
    · simp only [modify, if_neg he, visit, List.mem_append, ih]
      tauto

/-- Declarations put at the end of a path are met by the look-ups that can follow the path. -/
lemma IndexNode.mem_visit_insert (ds : List Declaration) (path : List Edge) (node : IndexNode)
    (n : NodeId) :
    d ∈ (IndexNode.insert ds path node).visit doc n ↔
      d ∈ node.visit doc n ∨ d ∈ ds ∧ walks doc path n = true := by
  induction path generalizing node n with
  | nil =>
    simp only [insert, visit, List.mem_append, walks_nil, and_true]
    tauto
  | cons edge path ih =>
    simp only [insert, visit, List.mem_append, Branches.mem_visit_modify ih, walks_cons]
    simp only [or_assoc, exists_and_left, and_left_comm]

end Trie

namespace Index
variable {doc : ElementTree} {n : NodeId}

lemma mem_visit_insert (hd : doc.Built) (hn : doc.contains n = true) (i : Index)
    (s : Insertion) (d : Declaration) :
    d ∈ (i.insert s.attributes s.term s.specificity).visit doc n ↔
      d ∈ i.visit doc n ∨
        s.term.holds doc n = true ∧
          d ∈ Declaration.stamp s.specificity.priority i.issued s.attributes := by
  simp only [visit, insert, IndexNode.mem_visit_insert, Term.walks_path hd hn]
  tauto

/-- Over a whole run, a look-up meets what it met before and what was stamped for the selectors that
hold. -/
lemma mem_visit_insertAll (hd : doc.Built) (hn : doc.contains n = true) (i : Index)
    (is : List Insertion) (d : Declaration) :
    d ∈ (i.insertAll is).visit doc n ↔
      d ∈ i.visit doc n ∨
        ∃ s ∈ Insertion.stampAll i.issued is, s.term.holds doc n = true ∧ d ∈ s.declarations := by
  induction is generalizing i with
  | nil => simp [Insertion.stampAll]
  | cons s is ih =>
    rw [insertAll_cons, ih, mem_visit_insert hd hn]
    simp only [Insertion.stampAll, List.mem_cons, exists_eq_or_imp, or_assoc]
    rfl

/-- A look-up in an index that was empty at first meets just the declarations stamped for the selectors
that hold of the element. -/
lemma mem_visit_of_empty (hd : doc.Built) (hn : doc.contains n = true) (first : Nat)
    (is : List Insertion) (d : Declaration) :
    d ∈ ((mk .empty first).insertAll is).visit doc n ↔ d ∈ Insertion.stampedFor doc n first is := by
  rw [mem_visit_insertAll hd hn, Insertion.mem_stampedFor]
  simp [visit, IndexNode.visit, IndexNode.empty, Branches.visit]

lemma toldApart_visit (hd : doc.Built) (hn : doc.contains n = true) (first : Nat)
    (is : List Insertion) : Declaration.ToldApart (((mk .empty first).insertAll is).visit doc n) :=
  Insertion.toldApart_of_subset first is (fun d h =>
    Insertion.mem_flatMap_of_mem_stampedFor ((mem_visit_of_empty hd hn first is d).mp h))

/-- The index is sound and complete: from an empty index and any count of earlier stamps, a look-up
after a row of insertions meets the declarations stamped for the selectors that hold of the element and
no others, and each name that occurs among them gets the strongest of them. -/
theorem visit_and_matched_insertAll (first : Nat) (is : List Insertion) (hd : doc.Built)
    (hn : doc.contains n = true) :
    (∀ d, d ∈ ((mk .empty first).insertAll is).visit doc n ↔
      d ∈ Insertion.stampedFor doc n first is) ∧
    (∀ name, (((mk .empty first).insertAll is).matched doc n).get? name = none ↔
      ∀ d ∈ Insertion.stampedFor doc n first is, d.name ≠ name) ∧
    ∀ name d, (((mk .empty first).insertAll is).matched doc n).get? name = some d ↔
      Declaration.IsStrongest (Insertion.stampedFor doc n first is) name d := by
  have hmem := mem_visit_of_empty hd hn first is
  refine ⟨hmem, fun name => ?_, fun name d => ?_⟩
  · rw [matched, Styles.get?_strongest_eq_none_iff]
    simp only [hmem]
  · rw [matched, Styles.get?_strongest_iff (toldApart_visit hd hn first is)]
    exact Declaration.isStrongest_congr hmem

/-- A label below a view: the selector with the greater weight wins, though it came first. -/
theorem visit_and_matched_insertAll_label :
    let doc : ElementTree := ⟨#[⟨.ofTag "View", none, [1]⟩, ⟨.ofTag "Label", some 0, []⟩]⟩
    let label : Compound := { Compound.universal with tag := some "Label" }
    let view : Compound := { Compound.universal with tag := some "View" }
    let is : List Insertion :=
      [⟨[⟨"color", .ofString "red"⟩], ⟨label, [(.descendant, view)]⟩, ⟨0, 0, 2⟩⟩,
        ⟨[⟨"color", .ofString "blue"⟩], ⟨label, []⟩, ⟨0, 0, 1⟩⟩,
        ⟨[⟨"color", .ofString "green"⟩], ⟨view, []⟩, ⟨0, 0, 9⟩⟩]
    doc.Built ∧ doc.contains 1 = true ∧
      (((mk .empty 5).insertAll is).matched doc 1).get? "color" =
        some ⟨"color", .ofString "red", 2, 5⟩ := by
  intro doc label view is
  have happend : (ElementTree.ofRoot (.ofTag "View")).appendElement 0 (.ofTag "Label") = .ok (1, doc) := rfl
  have hd : doc.Built := .appendElement (.ofRoot _) happend
  refine ⟨hd, rfl, ((visit_and_matched_insertAll 5 is hd rfl).2.2 "color" _).mpr ?_⟩
  exact ⟨by decide, rfl, by decide⟩

end Index

end Stylebook
