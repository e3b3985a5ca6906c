import Mathlib.Algebra.Ring.Nat
import Mathlib.Data.List.Range
import Stylebook.Cascade
import Stylebook.Index
import Stylebook.Proofs.Strongest

/-! Declarations are stamped one after the other, so that no two of a run have the same order. Index
and cascade stamp alike: rules added to both give the same selectors with the same declarations. -/
namespace Stylebook

/-- Attributes to be put under one selector, with the weight they get there. -/
structure Insertion where
  attributes : List Attribute
  term : Term
  specificity : Specificity
  deriving DecidableEq

namespace Insertion

/-- Each insertion with the declarations that are stamped for it, counted from `first` on. -/
def stampAll : Nat → List Insertion → List CascadeSelector
  | _, [] => []
  | first, s :: rest =>
    ⟨s.term, s.specificity.priority, Declaration.stamp s.specificity.priority first s.attributes⟩ ::
      stampAll (first + s.attributes.length) rest

/-- The number of declarations that a row of insertions stands for. -/
def count (is : List Insertion) : Nat := (is.map fun s => s.attributes.length).sum

@[simp] lemma count_nil : count [] = 0 := rfl

@[simp] lemma count_cons (s : Insertion) (is : List Insertion) :
    count (s :: is) = s.attributes.length + count is := rfl

@[simp] lemma count_append (is js : List Insertion) : count (is ++ js) = count is + count js := by
  simp [count]

lemma stampAll_append (first : Nat) (is js : List Insertion) :
    stampAll first (is ++ js) = stampAll first is ++ stampAll (first + count is) js := by
  induction is generalizing first with
  | nil => simp [stampAll]
  | cons s is ih => simp [stampAll, ih, Nat.add_assoc]

end Insertion

namespace Declaration

/-- Stamps are consecutive. -/
lemma map_order_stamp (priority : Int) (first : Nat) (as : List Attribute) :
    (stamp priority first as).map order = (List.range' first as.length).map Int.ofNat := by
  induction as generalizing first with
  | nil => rfl
  | cons a as ih =>
    have h := ih (first + 1)
    push_cast at h
    simp [stamp, List.range'_succ, h]

lemma getElem?_stamp (priority first : Int) (as : List Attribute) (j : Nat) :
    (stamp priority first as)[j]? = as[j]?.map fun a => ⟨a.name, a.value, priority, first + j⟩ := by
  induction as generalizing first j with
  | nil => simp [stamp]
  | cons a as ih =>
    cases j with
    | zero => simp [stamp]
    | succ j =>
      simp only [stamp, List.getElem?_cons_succ, ih]
      congr 1
      funext b
      congr 1
      omega

end Declaration

namespace Insertion

/-- The declarations of a run have consecutive orders. -/
lemma map_order_stampAll (first : Nat) (is : List Insertion) :
    ((stampAll first is).flatMap (·.declarations)).map Declaration.order =
      (List.range' first (count is)).map Int.ofNat := by
  induction is generalizing first with
  | nil => rfl
  | cons s is ih =>
    simp only [stampAll, List.flatMap_cons, List.map_append, ih, count_cons,
      Declaration.map_order_stamp, ← List.range'_append_1]

/-- In a run, a declaration is determined by its order. -/
lemma eq_of_order_eq {first : Nat} {is : List Insertion} {d e : Declaration}
    (hd : d ∈ (stampAll first is).flatMap (·.declarations))
    (he : e ∈ (stampAll first is).flatMap (·.declarations)) (h : d.order = e.order) : d = e := by
  refine List.inj_on_of_nodup_map ?_ hd he h
  rw [map_order_stampAll]
  exact (List.nodup_range' ..).map (fun a b hab => Int.ofNat.inj hab)

/-- The declarations stamped in a run for the selectors that hold of an element. -/
def stampedFor (doc : ElementTree) (n : NodeId) (first : Nat) (is : List Insertion) : List Declaration :=
  ((stampAll first is).filter fun s => s.term.holds doc n).flatMap (·.declarations)

lemma mem_stampedFor {doc : ElementTree} {n : NodeId} {first : Nat} {is : List Insertion}
    {d : Declaration} :
    d ∈ stampedFor doc n first is ↔
      ∃ s ∈ stampAll first is, s.term.holds doc n = true ∧ d ∈ s.declarations := by
  simp [stampedFor, and_assoc]

lemma mem_flatMap_of_mem_stampedFor {doc : ElementTree} {n : NodeId} {first : Nat} {is : List Insertion}
    {d : Declaration} (h : d ∈ stampedFor doc n first is) :
    d ∈ (stampAll first is).flatMap (·.declarations) := by
  obtain ⟨s, hs, -, hd⟩ := mem_stampedFor.mp h
  exact List.mem_flatMap.mpr ⟨s, hs, hd⟩

/-- The declarations of a run are told apart, whichever of them are looked at. -/
lemma toldApart_of_subset (first : Nat) (is : List Insertion) {ds : List Declaration}
    (h : ∀ d ∈ ds, d ∈ (stampAll first is).flatMap (·.declarations)) : Declaration.ToldApart ds := by
  intro d hd e he _ hr
  exact eq_of_order_eq (h d hd) (h e he) (congrArg (fun r => (ofLex r).2) hr)

end Insertion

/-- A rule as a row of insertions: its attributes once under each of its selectors. -/
def Rule.insertions (r : Rule) : List Insertion := r.terms.map fun t => ⟨r.attributes, t, t.specificity⟩

lemma Rule.count_insertions (r : Rule) : Insertion.count r.insertions = r.declarationCount := by
  simp [insertions, Insertion.count, declarationCount, Function.comp_def]

namespace CascadeSelector

lemma stampAll_eq (r : Rule) (first : Nat) :
    stampAll r.attributes first r.terms = Insertion.stampAll first r.insertions := by
  unfold Rule.insertions
  induction r.terms generalizing first with
  | nil => rfl
  | cons t ts ih => simp [stampAll, Insertion.stampAll, ih]

/-- The declarations of the selector at position `k` of a rule. -/
lemma getElem?_stampAll (as : List Attribute) (first : Nat) (ts : List Term) (k : Nat) :
    (stampAll as first ts)[k]? = ts[k]?.map fun t =>
      ⟨t, t.specificity.priority,
        Declaration.stamp t.specificity.priority (first + k * as.length : Nat) as⟩ := by
  induction ts generalizing first k with
  | nil => simp [stampAll]
  | cons t ts ih =>
    cases k with
    | zero => simp [stampAll]
    | succ k =>
      have hk : first + as.length + k * as.length = first + (k + 1) * as.length := by
        rw [Nat.succ_mul]
        omega
      simp only [stampAll, List.getElem?_cons_succ, ih, hk]

end CascadeSelector

/-- A change that adds declarations at a node adds as many to the whole. -/
lemma Branches.declarationCount_modify (edge : Edge) {f : IndexNode → IndexNode} {k : Nat}
    (hf : ∀ node : IndexNode, (f node).declarations.length + (f node).branches.declarationCount =
      node.declarations.length + node.branches.declarationCount + k) (bs : Branches) :
    (bs.modify edge f).declarationCount = bs.declarationCount + k := by
  induction bs with
  | none =>
    have hnew := hf ⟨[], .none⟩
    simp only [List.length_nil, declarationCount] at hnew
    simp only [modify, declarationCount]
    omega
  | branch e ds children siblings _ ih =>
    have hold := hf ⟨ds, children⟩
    dsimp only at hold
    simp only [modify]
    split
    · simp only [declarationCount]
      omega
    · simp only [declarationCount, ih]
      omega

lemma IndexNode.declarationCount_insert (ds : List Declaration) (path : List Edge) (node : IndexNode) :
    (node.insert ds path).declarations.length + (node.insert ds path).branches.declarationCount =
      node.declarations.length + node.branches.declarationCount + ds.length := by
  induction path generalizing node with
  | nil =>
    simp only [insert, List.length_append]
    omega
  | cons edge path ih =>
    simp only [insert, Branches.declarationCount_modify edge ih]
    omega

namespace Index

def insertAll (i : Index) (is : List Insertion) : Index :=
  is.foldl (fun i s => i.insert s.attributes s.term s.specificity) i

@[simp] lemma insertAll_nil (i : Index) : i.insertAll [] = i := rfl

@[simp] lemma insertAll_cons (i : Index) (s : Insertion) (is : List Insertion) :
    i.insertAll (s :: is) = (i.insert s.attributes s.term s.specificity).insertAll is := rfl

lemma insertAll_append (i : Index) (is js : List Insertion) :
    i.insertAll (is ++ js) = (i.insertAll is).insertAll js := by
  simp [insertAll]

lemma addRules_eq_insertAll (i : Index) (rs : List Rule) :
    i.addRules rs = i.insertAll (rs.flatMap Rule.insertions) := by
  unfold addRules
  induction rs generalizing i with
  | nil => rfl
  | cons r rs ih =>
    rw [List.foldl_cons, ih, List.flatMap_cons, insertAll_append]
    congr 1
    simp [addRule, insertAll, Rule.insertions, List.foldl_map]

lemma addRules_append (i : Index) (rs ss : List Rule) :
    i.addRules (rs ++ ss) = (i.addRules rs).addRules ss := by
  simp [addRules]

lemma declarationCount_insert (i : Index) (as : List Attribute) (t : Term) (s : Specificity) :
    (i.insert as t s).declarationCount = i.declarationCount + as.length := by
  rw [declarationCount, insert, IndexNode.declarationCount_insert, Declaration.length_stamp,
    declarationCount]

lemma declarationCount_insertAll (i : Index) (is : List Insertion) :
    (i.insertAll is).declarationCount = i.declarationCount + Insertion.count is := by
  induction is generalizing i with
  | nil => simp
  | cons s is ih => simp [ih, declarationCount_insert, Nat.add_assoc]

end Index

namespace Cascade

lemma issued_addRules (c : Cascade) (rs : List Rule) :
    (c.addRules rs).issued = c.issued + Insertion.count (rs.flatMap Rule.insertions) := by
  unfold addRules
  induction rs generalizing c with
  | nil => simp
  | cons r rs ih =>
    simp only [List.foldl_cons, ih, addRule, List.flatMap_cons, Insertion.count_append,
      Rule.count_insertions]
    omega

/-- The selectors of all rules, in order, are the rules' insertions as they are stamped. -/
lemma flatten_addRules (c : Cascade) (rs : List Rule) :
    (c.addRules rs).rules.flatten =
      c.rules.flatten ++ Insertion.stampAll c.issued (rs.flatMap Rule.insertions) := by
  induction rs using List.reverseRecOn with
  | nil => simp [addRules, Insertion.stampAll]
  | append_singleton rs r ih =>
    have hstep : (c.addRules (rs ++ [r])) = (c.addRules rs).addRule r := by simp [addRules]
    rw [hstep]
    simp only [addRule, List.flatten_append, List.flatten_singleton, ih, issued_addRules,
      CascadeSelector.stampAll_eq, List.flatMap_append, List.flatMap_singleton,
      Insertion.stampAll_append, List.append_assoc]

lemma addRules_append (c : Cascade) (rs ss : List Rule) :
    c.addRules (rs ++ ss) = (c.addRules rs).addRules ss := by
  simp [addRules]

end Cascade

end Stylebook
