import Stylebook.Proofs.Agreement
import Stylebook.Proofs.IndexPaths
import Stylebook.Proofs.Inheritance
import Stylebook.Proofs.SelectorPath
import Stylebook.Stylesheet.Parser

/-! Styles of a node that is not in the tree. No selector holds of it, so the cascade has none for it. The index
takes what stands at the root of its trie before it looks for the element, and so gives to a node that is not
there what selectors without any predicate give to all that are. -/
namespace Stylebook

section Absent
variable {doc : ElementTree} {n : NodeId} (hn : doc.contains n = false)
include hn

lemma Branches.visit_of_absent (bs : Branches) : bs.visit doc n = [] := by
  induction bs with
  | none => rfl
  | branch edge ds children siblings _ ih =>
    rw [visit, edge.targets_of_absent hn, ih]
    rfl

/-- A look-up stops at the root, but not before it has met what stands there. -/
lemma Index.visit_of_absent (i : Index) : i.visit doc n = i.root.declarations := by
  rw [visit, IndexNode.visit, Branches.visit_of_absent hn, List.append_nil]

lemma Term.holds_of_absent (t : Term) : t.holds doc n = false := by
  rw [holds, Compound.holds, hn]
  simp only [Bool.false_and]

lemma Cascade.matched_of_absent (c : Cascade) : c.matched doc n = .empty := by
  have hnone (ss : List CascadeSelector) : CascadeSelector.best? doc n ss = none :=
    CascadeSelector.best?_eq_none_iff.mpr fun s _ => s.term.holds_of_absent hn
  rw [matched, rulesFor]
  simp only [hnone, Option.map_none, List.filterMap_none, List.flatMap_nil]
  rfl

end Absent

namespace Term

/-- The selector without any predicate. -/
def bare : Term := ⟨.universal, []⟩

lemma path_eq_nil_iff {t : Term} : t.path = [] ↔ t = bare := by
  have hbare : bare.path = [] := rfl
  rw [← hbare]
  exact path_injective.eq_iff

end Term

lemma Styles.strongest_eq_empty_iff {ds : List Declaration} : strongest ds = empty ↔ ds = [] := by
  constructor
  · intro h
    rw [List.eq_nil_iff_forall_not_mem]
    intro d hd
    have hnone : (strongest ds).get? d.name = none := by rw [h, get?_empty]
    exact get?_strongest_eq_none_iff.mp hnone d hd rfl
  · rintro rfl
    rfl

lemma Declaration.stamp_eq_nil_iff {priority first : ℤ} {as : List Attribute} :
    stamp priority first as = [] ↔ as = [] := by
  rw [← List.length_eq_zero_iff, length_stamp, List.length_eq_zero_iff]

/-- A run stamps nothing for a selector just when nothing was put under it. -/
lemma Insertion.flatMap_filter_stampAll_eq_nil_iff {t : Term} (first : ℕ) (is : List Insertion) :
    ((stampAll first is).filter fun s => s.term = t).flatMap (·.declarations) = [] ↔
      ∀ s ∈ is, s.term = t → s.attributes = [] := by
  induction is generalizing first with
  | nil => simp [stampAll]
  | cons s is ih =>
    rw [stampAll, List.forall_mem_cons, ← ih (first + s.attributes.length)]
    by_cases ht : s.term = t
    · rw [List.filter_cons_of_pos (by simpa using ht), List.flatMap_cons, List.append_eq_nil_iff,
        Declaration.stamp_eq_nil_iff, imp_iff_right ht]
    · rw [List.filter_cons_of_neg (by simpa using ht), and_iff_right (fun h => absurd h ht)]

/-- What rules give, as it is stamped, under the selector without any predicate. -/
def Rule.bareDeclarations (rs : List Rule) : List Declaration :=
  ((Insertion.stampAll 0 (rs.flatMap insertions)).filter fun s => s.term = .bare).flatMap (·.declarations)

lemma Rule.bareDeclarations_eq_nil_iff {rs : List Rule} :
    bareDeclarations rs = [] ↔ ∀ r ∈ rs, .bare ∈ r.terms → r.attributes = [] := by
  rw [bareDeclarations, Insertion.flatMap_filter_stampAll_eq_nil_iff]
  simp only [List.mem_flatMap, insertions, List.mem_map]
  constructor
  · intro h r hr hbare
    exact h ⟨r.attributes, .bare, Term.bare.specificity⟩ ⟨r, hr, .bare, hbare, rfl⟩ rfl
  · rintro h s ⟨r, hr, t, ht, rfl⟩ rfl
    exact h r hr ht

/-- The root of the trie holds what stands under the selector without any predicate, and nothing else. -/
lemma Index.declarations_root_addRules (rs : List Rule) :
    (empty.addRules rs).root.declarations = Rule.bareDeclarations rs := by
  have hroot := declarationsAt_insertAll empty (rs.flatMap Rule.insertions) []
  simp only [Term.path_eq_nil_iff] at hroot
  rw [addRules_eq_insertAll]
  exact hroot

/-- For a node that is not in the tree, the cascade has no styles, whatever is inherited. The index has the strongest
declarations of selectors without any predicate. So the two agree just when no rule that was added gives anything
under such a selector. -/
theorem absent_node_agree_iff_nothing_bare (calls : List (Registry × Stylesheet)) {doc : ElementTree} {n : NodeId}
    (hn : doc.contains n = false) (inherited : Inherited) :
    let i := calls.foldl (fun i call => (i.addStylesheet call.1 call.2).1) Index.empty
    let c := calls.foldl (fun c call => (c.addStylesheet call.1 call.2).1) Cascade.empty
    let given := Styles.strongest (Rule.bareDeclarations (Rule.ofStylesheets calls))
    (c.matched doc n = .empty ∧ Resolution.styles c.matched inherited doc n = .empty) ∧
    (i.matched doc n = given ∧ Resolution.styles i.matched inherited doc n = given) ∧
    ((i.matched doc n = c.matched doc n ∧
        Resolution.styles i.matched inherited doc n = Resolution.styles c.matched inherited doc n) ↔
      ∀ r ∈ Rule.ofStylesheets calls, .bare ∈ r.terms → r.attributes = []) := by
  intro i c given
  have hi : i.matched doc n = given := by
    simp only [i, given, Index.addStylesheets_eq, Index.matched, Index.visit_of_absent hn,
      Index.declarations_root_addRules]
  have hc : c.matched doc n = .empty := c.matched_of_absent hn
  have hnone : doc.ancestors n = [] := ElementTree.ancestors_of_absent hn
  rw [Resolution.styles_of_ancestors_eq_nil hnone, Resolution.styles_of_ancestors_eq_nil hnone, hi, hc]
  refine ⟨⟨rfl, rfl⟩, ⟨rfl, rfl⟩, ?_⟩
  rw [and_self, Styles.strongest_eq_empty_iff, Rule.bareDeclarations_eq_nil_iff]

/-- A rule for all elements that gives nothing does no harm. -/
theorem absent_node_agree_iff_nothing_bare_label :
    let place : Location := ⟨1, 1, 0⟩
    let sheet : Stylesheet :=
      ⟨[], [⟨[⟨[.typeName "Label"], ⟨0, 0, 1⟩, "Label"⟩], [⟨"color", "red", false⟩], place⟩,
        ⟨[⟨[.universal], .zero, "*"⟩], [], place⟩]⟩
    let calls := [(Registry.empty, sheet)]
    let doc : ElementTree := .ofRoot (.ofTag "View")
    let i := calls.foldl (fun i call => (i.addStylesheet call.1 call.2).1) Index.empty
    let c := calls.foldl (fun c call => (c.addStylesheet call.1 call.2).1) Cascade.empty
    doc.contains 7 = false ∧ i.declarationCount = 1 ∧ i.matched doc 7 = c.matched doc 7 ∧
      Resolution.styles i.matched .standard doc 7 = Resolution.styles c.matched .standard doc 7 := by
  intro place sheet calls doc i c
  have hn : doc.contains 7 = false := rfl
  have hbare : ∀ r ∈ Rule.ofStylesheets calls, .bare ∈ r.terms → r.attributes = [] := by decide
  exact ⟨hn, by decide, (absent_node_agree_iff_nothing_bare calls hn .standard).2.2.mpr hbare⟩

/-- The index gives the color of all elements to a node that is not there; the cascade gives it nothing. -/
theorem absent_node_styled_by_index :
    let sheet : Stylesheet :=
      ⟨[], [⟨[⟨[.universal], .zero, "*"⟩], [⟨"color", "red", false⟩], ⟨1, 1, 0⟩⟩]⟩
    let doc : ElementTree := .ofRoot (.ofTag "View")
    let i := (Index.empty.addStylesheet .standard sheet).1
    let c := (Cascade.empty.addStylesheet .standard sheet).1
    let red : Styles := ⟨[⟨"color", .ofString "red", 0, 0⟩]⟩
    Stylesheet.parse "*\x7bcolor:red\x7d" = .ok sheet ∧ doc.contains 7 = false ∧
      i.matched doc 7 = red ∧ c.matched doc 7 = .empty ∧
      Resolution.styles i.matched .standard doc 7 = red ∧
      Resolution.styles c.matched .standard doc 7 = .empty := by
  decide +kernel

end Stylebook
