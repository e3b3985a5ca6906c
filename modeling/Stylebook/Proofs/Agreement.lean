import Stylebook.Proofs.IndexWalk
import Stylebook.Resolution

/-! Looking declarations up in the index and trying the rules one after the other give the same styles.
The index meets the declarations of all selectors that hold, the cascade those of one selector of each
rule; but whatever the other selectors of a rule give is outdone by the selector that counts. -/
namespace Stylebook

namespace CascadeSelector
variable {doc : ElementTree} {n : NodeId}

lemma best?_concat (ss : List CascadeSelector) (s : CascadeSelector) :
    best? doc n (ss ++ [s]) =
      if s.term.holds doc n = true then stronger (best? doc n ss) s else best? doc n ss := by
  unfold best?
  rw [List.filter_append, List.foldl_append]
  by_cases hs : s.term.holds doc n = true <;> simp [hs]

/-- The selector at position `k` holds; none that holds is stronger, and later ones are weaker. -/
structure IsBest (doc : ElementTree) (n : NodeId) (ss : List CascadeSelector) (k : Nat)
    (b : CascadeSelector) : Prop where
  getElem : ss[k]? = some b
  holds : b.term.holds doc n = true
  greatest : ∀ l s, ss[l]? = some s → s.term.holds doc n = true →
    s.priority < b.priority ∨ s.priority = b.priority ∧ l ≤ k

/-- A selector that comes last takes the place of the best one unless that one is stronger. -/
lemma IsBest.concat {ss : List CascadeSelector} {k : Nat} {b s : CascadeSelector}
    (h : IsBest doc n ss k b) (hs : s.priority < b.priority ∨ s.term.holds doc n = false) :
    IsBest doc n (ss ++ [s]) k b := by
  have hk : k < ss.length := (List.getElem?_eq_some_iff.mp h.getElem).1
  refine ⟨by rw [List.getElem?_append_left hk, h.getElem], h.holds, fun l t hl ht => ?_⟩
  rw [List.getElem?_append] at hl
  split_ifs at hl with hlt
  · exact h.greatest l t hl ht
  · obtain rfl : s = t := by
      have := List.mem_of_getElem? hl
      simpa [eq_comm] using this
    rcases hs with hs | hs
    · exact .inl hs
    · rw [hs] at ht
      cases ht

lemma isBest_last {ss : List CascadeSelector} {s : CascadeSelector} (hs : s.term.holds doc n = true)
    (h : ∀ t ∈ ss, t.term.holds doc n = true → t.priority ≤ s.priority) :
    IsBest doc n (ss ++ [s]) ss.length s := by
  refine ⟨by simp, hs, fun l t hl ht => ?_⟩
  have hlen : l < ss.length + 1 := by simpa using (List.getElem?_eq_some_iff.mp hl).1
  have hle : t.priority ≤ s.priority := by
    rcases List.mem_append.mp (List.mem_of_getElem? hl) with hm | hm
    · exact h t hm ht
    · rw [List.mem_singleton.mp hm]
  rcases Nat.lt_or_eq_of_le hle with hlt | heq
  · exact .inl hlt
  · exact .inr ⟨heq, by omega⟩

lemma IsBest.priority_le {ss : List CascadeSelector} {k : Nat} {b s : CascadeSelector}
    (h : IsBest doc n ss k b) (hs : s ∈ ss) (hh : s.term.holds doc n = true) :
    s.priority ≤ b.priority := by
  obtain ⟨l, hl⟩ := List.getElem?_of_mem hs
  rcases h.greatest l s hl hh with hlt | ⟨heq, -⟩
  · exact hlt.le
  · exact heq.le

lemma best?_eq_none_iff {ss : List CascadeSelector} :
    best? doc n ss = none ↔ ∀ s ∈ ss, s.term.holds doc n = false := by
  induction ss using List.reverseRecOn with
  | nil => simp [best?]
  | append_singleton ss s ih =>
    rw [best?_concat]
    by_cases hs : s.term.holds doc n = true
    · have hne : stronger (best? doc n ss) s ≠ none := by
        unfold stronger
        split
        · split_ifs <;> simp
        · simp
      simp [hs, hne]
    · have hs : s.term.holds doc n = false := by simpa using hs
      simp [hs, ih, or_imp, forall_and]

/-- The selector that counts for a rule. -/
lemma isBest_of_best? {ss : List CascadeSelector} {b : CascadeSelector}
    (h : best? doc n ss = some b) : ∃ k, IsBest doc n ss k b := by
  induction ss using List.reverseRecOn generalizing b with
  | nil => simp [best?] at h
  | append_singleton ss s ih =>
    rw [best?_concat] at h
    split_ifs at h with hs
    · cases hc : best? doc n ss with
      | none =>
        rw [hc, stronger] at h
        cases h
        refine ⟨_, isBest_last hs (fun t ht hh => ?_)⟩
        rw [best?_eq_none_iff.mp hc t ht] at hh
        cases hh
      | some c =>
        obtain ⟨k, hk⟩ := ih hc
        rw [hc, stronger] at h
        split_ifs at h with hlt
        · cases h
          exact ⟨k, hk.concat (.inl hlt)⟩
        · cases h
          exact ⟨_, isBest_last hs (fun t ht hh => (hk.priority_le ht hh).trans (not_lt.mp hlt))⟩
    · obtain ⟨k, hk⟩ := ih h
      exact ⟨k, hk.concat (.inr (by simpa using hs))⟩

/-- Every declaration of a selector of a rule has its counterpart, of the same name and at least as
strong, under the selector that counts. -/
lemma IsBest.dominates {as : List Attribute} {first : Nat} {ts : List Term} {k : Nat}
    {b s : CascadeSelector} (h : IsBest doc n (stampAll as first ts) k b)
    (hs : s ∈ stampAll as first ts) (hh : s.term.holds doc n = true) {d : Declaration}
    (hd : d ∈ s.declarations) : ∃ e ∈ b.declarations, e.name = d.name ∧ d.rank ≤ e.rank := by
  obtain ⟨l, hl⟩ := List.getElem?_of_mem hs
  have hbest := h.greatest l s hl hh
  have hk := h.getElem
  rw [getElem?_stampAll, Option.map_eq_some_iff] at hk hl
  obtain ⟨t, -, rfl⟩ := hk
  obtain ⟨u, -, rfl⟩ := hl
  obtain ⟨j, hj⟩ := List.getElem?_of_mem hd
  rw [Declaration.getElem?_stamp, Option.map_eq_some_iff] at hj
  obtain ⟨a, ha, rfl⟩ := hj
  refine ⟨⟨a.name, a.value, t.specificity.priority, (first + k * as.length : Nat) + j⟩, ?_, rfl, ?_⟩
  · refine List.mem_of_getElem? (i := j) ?_
    rw [Declaration.getElem?_stamp, ha]
    rfl
  · rw [Declaration.rank_le_iff]
    rcases hbest with hlt | ⟨heq, hle⟩
    · exact .inl (Int.ofNat_lt.mpr hlt)
    · refine .inr ⟨congrArg Int.ofNat heq, ?_⟩
      have := Nat.mul_le_mul_right as.length hle
      simp only
      omega

end CascadeSelector

namespace Cascade
variable {doc : ElementTree} {n : NodeId}

/-- The declarations that count for an element: for each rule those of one selector. -/
def counting (c : Cascade) (doc : ElementTree) (n : NodeId) : List Declaration :=
  (c.rulesFor doc n).flatMap fun hit => hit.selector.declarations

lemma mem_counting {c : Cascade} {d : Declaration} :
    d ∈ c.counting doc n ↔
      ∃ ss ∈ c.rules, ∃ b, CascadeSelector.best? doc n ss = some b ∧ d ∈ b.declarations := by
  unfold counting rulesFor
  simp only [List.mem_flatMap, List.mem_filterMap, Option.map_eq_some_iff]
  constructor
  · rintro ⟨-, ⟨⟨ss, i⟩, hi, b, hb, rfl⟩, hd⟩
    exact ⟨ss, (List.mem_zipIdx hi).2.2 ▸ List.getElem_mem _, b, hb, hd⟩
  · rintro ⟨ss, hss, b, hb, hd⟩
    obtain ⟨i, hi⟩ := List.getElem?_of_mem hss
    exact ⟨⟨i, ss, b⟩, ⟨(ss, i), List.mem_zipIdx_iff_getElem?.mpr hi, b, hb, rfl⟩, hd⟩

lemma addRules_concat (c : Cascade) (rs : List Rule) (r : Rule) :
    c.addRules (rs ++ [r]) = (c.addRules rs).addRule r := by
  simp [addRules]

lemma length_rules (rs : List Rule) : (empty.addRules rs).rules.length = rs.length := by
  induction rs using List.reverseRecOn with
  | nil => rfl
  | append_singleton rs r ih => simp [addRules_concat, addRule, ih]

/-- The rules of a cascade that was empty at first: each with the stamps that follow on those of the
rules before it. -/
lemma getElem?_rules (rs : List Rule) (i : Nat) :
    (empty.addRules rs).rules[i]? = rs[i]?.map fun r =>
      CascadeSelector.stampAll r.attributes (Insertion.count ((rs.take i).flatMap Rule.insertions))
        r.terms := by
  induction rs using List.reverseRecOn with
  | nil => simp [addRules, empty]
  | append_singleton rs r ih =>
    rw [addRules_concat, addRule]
    rcases Nat.lt_trichotomy i rs.length with hlt | rfl | hgt
    · rw [List.getElem?_append_left (by rwa [length_rules]), ih, List.getElem?_append_left hlt,
        List.take_append_of_le_length hlt.le]
    · have hzero : empty.issued = 0 := rfl
      rw [List.getElem?_append_right (by rw [length_rules]), issued_addRules, length_rules]
      simp [hzero]
    · rw [List.getElem?_append_right (by rw [length_rules]; omega),
        List.getElem?_append_right (by omega)]
      simp [length_rules, show i - rs.length ≠ 0 by omega]

/-- The rules of a cascade are stamped as the declarations of the index are. -/
lemma exists_stampAll_of_mem_rules {rs : List Rule} {ss : List CascadeSelector}
    (h : ss ∈ (empty.addRules rs).rules) :
    ∃ as first ts, ss = CascadeSelector.stampAll as first ts := by
  obtain ⟨i, hi⟩ := List.getElem?_of_mem h
  rw [getElem?_rules, Option.map_eq_some_iff] at hi
  obtain ⟨r, -, rfl⟩ := hi
  exact ⟨_, _, _, rfl⟩

end Cascade

/-- Both ways to find the styles that match an element agree on rules that were added to both. -/
theorem matched_addRules {doc : ElementTree} (hd : doc.Built) {n : NodeId}
    (hn : doc.contains n = true) (rs : List Rule) :
    (Index.empty.addRules rs).matched doc n = (Cascade.empty.addRules rs).matched doc n := by
  have hmem (d : Declaration) : d ∈ (Index.empty.addRules rs).visit doc n ↔
      ∃ ss ∈ (Cascade.empty.addRules rs).rules, ∃ s ∈ ss, s.term.holds doc n = true ∧
        d ∈ s.declarations := by
    have hflat := Cascade.flatten_addRules Cascade.empty rs
    simp only [Cascade.empty, List.flatten_nil, List.nil_append] at hflat
    rw [Index.addRules_eq_insertAll, Index.empty, Index.mem_visit_of_empty hd hn,
      Insertion.mem_stampedFor, ← hflat]
    simp only [List.mem_flatten, Cascade.empty]
    tauto
  have hapart : Declaration.ToldApart ((Index.empty.addRules rs).visit doc n) := by
    rw [Index.addRules_eq_insertAll]
    exact Index.toldApart_visit hd hn 0 _
  refine Styles.strongest_eq_of_dominated hapart (fun d hc => ?_) (fun d hv => ?_)
  · obtain ⟨ss, hss, b, hb, hdb⟩ := Cascade.mem_counting.mp hc
    obtain ⟨k, hk⟩ := CascadeSelector.isBest_of_best? hb
    exact (hmem d).mpr ⟨ss, hss, b, List.mem_of_getElem? hk.getElem, hk.holds, hdb⟩
  · obtain ⟨ss, hss, s, hs, hh, hds⟩ := (hmem d).mp hv
    obtain ⟨as, first, ts, rfl⟩ := Cascade.exists_stampAll_of_mem_rules hss
    cases hb : CascadeSelector.best? doc n (CascadeSelector.stampAll as first ts) with
    | none =>
      rw [CascadeSelector.best?_eq_none_iff.mp hb s hs] at hh
      cases hh
    | some b =>
      obtain ⟨k, hk⟩ := CascadeSelector.isBest_of_best? hb
      obtain ⟨e, he, hle⟩ := hk.dominates hs hh hds
      exact ⟨e, Cascade.mem_counting.mpr ⟨_, hss, b, hb, he⟩, hle⟩

/-- The rules that a row of stylesheets adds, those of a stylesheet with a fault up to the fault. -/
def Rule.ofStylesheets (calls : List (Registry × Stylesheet)) : List Rule :=
  calls.flatMap fun call => (ofStyleRules call.1 call.2.rules).1

lemma Rule.ofStylesheets_cons (call : Registry × Stylesheet) (calls : List (Registry × Stylesheet)) :
    ofStylesheets (call :: calls) = (ofStyleRules call.1 call.2.rules).1 ++ ofStylesheets calls := rfl

lemma Index.addStylesheets_eq (i : Index) (calls : List (Registry × Stylesheet)) :
    calls.foldl (fun i call => (i.addStylesheet call.1 call.2).1) i =
      i.addRules (Rule.ofStylesheets calls) := by
  induction calls generalizing i with
  | nil => rfl
  | cons call calls ih =>
    rw [List.foldl_cons, ih, Rule.ofStylesheets_cons, addRules_append, fst_addStylesheet]

lemma Cascade.addStylesheets_eq (c : Cascade) (calls : List (Registry × Stylesheet)) :
    calls.foldl (fun c call => (c.addStylesheet call.1 call.2).1) c =
      c.addRules (Rule.ofStylesheets calls) := by
  induction calls generalizing c with
  | nil => rfl
  | cons call calls ih =>
    rw [List.foldl_cons, ih, Rule.ofStylesheets_cons, addRules_append, fst_addStylesheet]

/-- Inheritance looks only at the nodes of the chain. -/
lemma Resolution.along_congr {f g : NodeId → Styles} (inherited : Inherited) {chain : List NodeId}
    (h : ∀ m ∈ chain, f m = g m) : along f inherited chain = along g inherited chain := by
  induction chain with
  | nil => rfl
  | cons m chain ih =>
    have ih := ih (fun k hk => h k (List.mem_cons_of_mem _ hk))
    simp only [along, h m (List.mem_cons_self ..), ih]

/-- Index and cascade that were given the same stylesheets, those with faults among them, find the same
styles for every element of every tree, both those that match and those with the inherited ones. -/
theorem index_and_cascade_agree (calls : List (Registry × Stylesheet)) {doc : ElementTree}
    (hd : doc.Built) {n : NodeId} (hn : doc.contains n = true) (inherited : Inherited) :
    let i := calls.foldl (fun i call => (i.addStylesheet call.1 call.2).1) Index.empty
    let c := calls.foldl (fun c call => (c.addStylesheet call.1 call.2).1) Cascade.empty
    i.matched doc n = c.matched doc n ∧
      Resolution.styles i.matched inherited doc n = Resolution.styles c.matched inherited doc n := by
  intro i c
  have hmatched (m : NodeId) (hm : doc.contains m = true) : i.matched doc m = c.matched doc m := by
    simp only [i, c, Index.addStylesheets_eq, Cascade.addStylesheets_eq]
    exact matched_addRules hd hm _
  refine ⟨hmatched n hn, Resolution.along_congr inherited (fun m hm => ?_)⟩
  rcases List.mem_cons.mp hm with rfl | hm
  · exact hmatched m hn
  · exact hmatched m (hd.contains_ancestor hm)

/-- A sheet whose second rule has no canonical form, and a later one: the label takes what the first rule
gives its stronger selector, and inherits what the later one gives the view above it. -/
theorem index_and_cascade_agree_label :
    let place : Location := ⟨1, 1, 0⟩
    let label : Selector := ⟨[.typeName "Label"], ⟨0, 0, 1⟩, "Label"⟩
    let nested : Selector :=
      ⟨[.typeName "View", .combinator .descendant, .typeName "Label"], ⟨0, 0, 2⟩, "View Label"⟩
    let view : Selector := ⟨[.typeName "View"], ⟨0, 0, 1⟩, "View"⟩
    let adjacent : Selector := ⟨[.typeName "View", .combinator .nextSibling, .universal], ⟨0, 0, 1⟩, "View + *"⟩
    let faulty : Stylesheet := ⟨[], [⟨[nested, label], [⟨"color", "red", false⟩], place⟩,
      ⟨[label, adjacent], [⟨"color", "blue", false⟩], place⟩]⟩
    let sheet : Stylesheet := ⟨[], [⟨[view, label], [⟨"color", "green", false⟩], place⟩,
      ⟨[view], [⟨"cursor", "text", false⟩], place⟩]⟩
    let calls := [(Registry.empty, faulty), (Registry.empty, sheet)]
    let doc : ElementTree := ⟨#[⟨.ofTag "View", none, [1]⟩, ⟨.ofTag "Label", some 0, []⟩]⟩
    let i := calls.foldl (fun i call => (i.addStylesheet call.1 call.2).1) Index.empty
    let c := calls.foldl (fun c call => (c.addStylesheet call.1 call.2).1) Cascade.empty
    doc.Built ∧ doc.contains 1 = true ∧ i.matched doc 1 = c.matched doc 1 ∧
      Resolution.styles i.matched ⟨["cursor"]⟩ doc 1 = Resolution.styles c.matched ⟨["cursor"]⟩ doc 1 ∧
      Resolution.styles i.matched ⟨["cursor"]⟩ doc 1 =
        ⟨[⟨"color", .ofString "red", 2, 0⟩, ⟨"cursor", .ofString "text", 1, 4⟩]⟩ := by
  intro place label nested view adjacent faulty sheet calls doc i c
  have happend : (ElementTree.ofRoot (.ofTag "View")).appendElement 0 (.ofTag "Label") = .ok (1, doc) := rfl
  have hd : doc.Built := .appendElement (.ofRoot _) happend
  have hn : doc.contains 1 = true := rfl
  have h := index_and_cascade_agree calls hd hn ⟨["cursor"]⟩
  exact ⟨hd, hn, h.1, h.2, by decide⟩

end Stylebook
