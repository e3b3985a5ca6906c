import Mathlib.Data.Finset.Dedup
import Mathlib.Data.List.Induction
import Mathlib.Data.Prod.Lex
import Mathlib.Order.Bounds.Basic
import Stylebook.Declaration
import Stylebook.Proofs.OrderedList

/-! Merging declarations one by one leaves, for each name, the strongest declaration of that name.
Which ones are merged, in what order and how often, matters only through the strongest of each name. -/
namespace Stylebook

namespace Declaration

/-- The weight of a declaration: its priority, then its order. -/
def rank (d : Declaration) : ℤ ×ₗ ℤ := toLex (d.priority, d.order)

lemma rank_le_iff {d e : Declaration} :
    d.rank ≤ e.rank ↔ d.priority < e.priority ∨ d.priority = e.priority ∧ d.order ≤ e.order :=
  Prod.Lex.toLex_le_toLex

lemma rank_lt_iff {d e : Declaration} :
    d.rank < e.rank ↔ d.priority < e.priority ∨ d.priority = e.priority ∧ d.order < e.order :=
  Prod.Lex.toLex_lt_toLex

lemma cascade_eq_lt_iff {d e : Declaration} : d.cascade e = .lt ↔ d.rank < e.rank := by
  rw [cascade, Ordering.then_eq_lt, compare_lt_iff_lt, compare_lt_iff_lt, compare_eq_iff_eq, rank_lt_iff]

lemma cascade_eq_gt_iff {d e : Declaration} : d.cascade e = .gt ↔ e.rank < d.rank := by
  rw [cascade, Ordering.then_eq_gt, compare_gt_iff_gt, compare_gt_iff_gt, compare_eq_iff_eq, rank_lt_iff,
    eq_comm (a := d.priority)]

lemma cascade_ne_gt_iff {d e : Declaration} : d.cascade e ≠ .gt ↔ d.rank ≤ e.rank := by
  rw [Ne, cascade_eq_gt_iff, not_lt]

lemma rank_eq_iff {d e : Declaration} : d.rank = e.rank ↔ d.priority = e.priority ∧ d.order = e.order := by
  rw [rank, rank, toLex_inj, Prod.mk.injEq]

/-- Declarations of one name differ in rank, so that each name has only one strongest declaration. -/
def ToldApart (ds : List Declaration) : Prop :=
  ∀ d ∈ ds, ∀ e ∈ ds, d.name = e.name → d.rank = e.rank → d = e

/-- No declaration of the same name in the list is stronger. -/
structure IsStrongest (ds : List Declaration) (name : String) (d : Declaration) : Prop where
  mem : d ∈ ds
  name_eq : d.name = name
  greatest : ∀ e ∈ ds, e.name = name → e.cascade d ≠ .gt

lemma IsStrongest.rank_le {ds : List Declaration} {name : String} {d e : Declaration}
    (h : IsStrongest ds name d) (he : e ∈ ds) (hn : e.name = name) : e.rank ≤ d.rank :=
  cascade_ne_gt_iff.mp (h.greatest e he hn)

lemma IsStrongest.unique {ds : List Declaration} (hd : ToldApart ds) {name : String}
    {d e : Declaration} (h : IsStrongest ds name d) (h' : IsStrongest ds name e) : d = e :=
  hd d h.mem e h'.mem (h.name_eq.trans h'.name_eq.symm)
    (le_antisymm (h'.rank_le h.mem h.name_eq) (h.rank_le h'.mem h'.name_eq))

/-- All others of its name are weaker. -/
lemma isStrongest_iff_outweighs {ds : List Declaration} (hd : ToldApart ds) {name : String} {d : Declaration} :
    IsStrongest ds name d ↔
      d ∈ ds ∧ d.name = name ∧ ∀ e ∈ ds, e.name = name → e ≠ d → e.cascade d = .lt := by
  constructor
  · intro h
    refine ⟨h.mem, h.name_eq, fun e he hn hne => cascade_eq_lt_iff.mpr ?_⟩
    apply (h.rank_le he hn).lt_of_ne
    intro hrank
    exact hne (hd e he d h.mem (hn.trans h.name_eq.symm) hrank)
  · rintro ⟨hmem, hname, hlt⟩
    refine ⟨hmem, hname, fun e he hn => cascade_ne_gt_iff.mpr ?_⟩
    by_cases hed : e = d
    · rw [hed]
    · exact (cascade_eq_lt_iff.mp (hlt e he hn hed)).le

lemma isStrongest_congr {ds es : List Declaration} (h : ∀ d, d ∈ ds ↔ d ∈ es) {name : String}
    {d : Declaration} : IsStrongest ds name d ↔ IsStrongest es name d :=
  ⟨fun hd => ⟨(h d).mp hd.mem, hd.name_eq, fun e he => hd.greatest e ((h e).mpr he)⟩,
    fun hd => ⟨(h d).mpr hd.mem, hd.name_eq, fun e he => hd.greatest e ((h e).mp he)⟩⟩

end Declaration

namespace Styles
open Declaration

/-- One entry for each name, in increasing order of names. -/
def Increasing (s : Styles) : Prop := s.entries.Pairwise (fun d e => d.name < e.name)

lemma increasing_empty : empty.Increasing := List.Pairwise.nil

lemma Increasing.insert {s : Styles} (hs : s.Increasing) (d : Declaration) : (s.insert d).Increasing :=
  Ordered.pairwise_put Declaration.name Ordered.word_iff d hs

lemma Increasing.merge {s : Styles} (hs : s.Increasing) (d : Declaration) : (s.merge d).Increasing := by
  unfold Styles.merge
  split
  · split_ifs
    · exact hs.insert d
    · exact hs
  · exact hs.insert d

theorem Increasing.ext {s t : Styles} (hs : s.Increasing) (ht : t.Increasing)
    (h : ∀ name, s.get? name = t.get? name) : s = t := by
  cases s with | mk ds =>
  cases t with | mk es =>
  congr 1
  exact Ordered.eq_of_find?_eq Declaration.name hs ht h

@[simp] lemma get?_empty (name : String) : empty.get? name = none := rfl

lemma get?_insert (s : Styles) (d : Declaration) (name : String) :
    (s.insert d).get? name = if d.name = name then some d else s.get? name :=
  Ordered.find?_put Declaration.name Ordered.word_iff d name s.entries

/-- A merge changes only the entry of the declaration's name, and that one only for the better. -/
lemma get?_merge (s : Styles) (d : Declaration) (name : String) :
    (s.merge d).get? name =
      if d.name = name then
        match s.get? name with
        | some c => if c.rank < d.rank then some d else some c
        | none => some d
      else s.get? name := by
  by_cases hn : d.name = name
  · subst hn
    simp only [merge, if_true]
    cases hc : s.get? d.name with
    | none => simp [get?_insert]
    | some c =>
      by_cases hr : c.rank < d.rank
      · simp [cascade_eq_lt_iff, hr, get?_insert]
      · simp [cascade_eq_lt_iff, hr, hc]
  · simp only [merge, hn, if_false]
    split
    · split_ifs <;> simp [get?_insert, hn]
    · simp [get?_insert, hn]

lemma strongest_concat (ds : List Declaration) (d : Declaration) :
    strongest (ds ++ [d]) = (strongest ds).merge d := by
  simp [strongest]

lemma increasing_strongest (ds : List Declaration) : (strongest ds).Increasing := by
  induction ds using List.reverseRecOn with
  | nil => exact increasing_empty
  | append_singleton ds d ih =>
    rw [strongest_concat]
    exact ih.merge d

lemma get?_strongest_eq_none_iff {ds : List Declaration} {name : String} :
    (strongest ds).get? name = none ↔ ∀ d ∈ ds, d.name ≠ name := by
  induction ds using List.reverseRecOn with
  | nil => simp [strongest]
  | append_singleton ds d ih =>
    rw [strongest_concat, get?_merge]
    by_cases hn : d.name = name
    · simp only [hn, if_true]
      constructor
      · intro h
        split at h
        · split_ifs at h
        · cases h
      · intro h
        exact absurd hn (h d (by simp))
    · simp [hn, ih, or_imp, forall_and]

/-- What merging leaves for a name is a strongest declaration of that name. -/
lemma isStrongest_of_get? {ds : List Declaration} {name : String} {d : Declaration}
    (h : (strongest ds).get? name = some d) : IsStrongest ds name d := by
  induction ds using List.reverseRecOn generalizing d with
  | nil => simp [strongest] at h
  | append_singleton ds e ih =>
    rw [strongest_concat, get?_merge] at h
    by_cases hn : e.name = name
    · rw [if_pos hn] at h
      split at h
      · next c hc =>
        have hcs := ih hc
        split_ifs at h with hr
        · cases h
          refine ⟨by simp, hn, fun f hf hfn => cascade_ne_gt_iff.mpr ?_⟩
          rcases List.mem_append.mp hf with hf | hf
          · exact (hcs.rank_le hf hfn).trans hr.le
          · rw [List.mem_singleton.mp hf]
        · cases h
          refine ⟨by simp [hcs.mem], hcs.name_eq, fun f hf hfn => cascade_ne_gt_iff.mpr ?_⟩
          rcases List.mem_append.mp hf with hf | hf
          · exact hcs.rank_le hf hfn
          · rw [List.mem_singleton.mp hf]
            exact not_lt.mp hr
      · next hc =>
        cases h
        refine ⟨by simp, hn, fun f hf hfn => cascade_ne_gt_iff.mpr ?_⟩
        rcases List.mem_append.mp hf with hf | hf
        · exact absurd hfn (get?_strongest_eq_none_iff.mp hc f hf)
        · rw [List.mem_singleton.mp hf]
    · rw [if_neg hn] at h
      have hd := ih h
      refine ⟨by simp [hd.mem], hd.name_eq, fun f hf hfn => ?_⟩
      rcases List.mem_append.mp hf with hf | hf
      · exact hd.greatest f hf hfn
      · exact absurd hfn (by rwa [List.mem_singleton.mp hf])

/-- Where declarations are told apart, the strongest of each name is exactly what merging leaves. -/
theorem get?_strongest_iff {ds : List Declaration} (hd : ToldApart ds) {name : String}
    {d : Declaration} : (strongest ds).get? name = some d ↔ IsStrongest ds name d := by
  refine ⟨isStrongest_of_get?, fun h => ?_⟩
  cases hc : (strongest ds).get? name with
  | none => exact absurd h.name_eq (get?_strongest_eq_none_iff.mp hc d h.mem)
  | some c => rw [(isStrongest_of_get? hc).unique hd h]

/-- Leaving out declarations changes nothing as long as each of them has one at least as strong, of the
same name, among those that stay. -/
theorem strongest_eq_of_dominated {ds es : List Declaration} (hd : ToldApart ds)
    (hsub : ∀ e ∈ es, e ∈ ds)
    (hdom : ∀ d ∈ ds, ∃ e ∈ es, e.name = d.name ∧ d.rank ≤ e.rank) :
    strongest ds = strongest es := by
  refine (increasing_strongest ds).ext (increasing_strongest es) (fun name => ?_)
  cases he : (strongest es).get? name with
  | none =>
    rw [get?_strongest_eq_none_iff] at he ⊢
    intro d hmem hn
    obtain ⟨e, hes, hen, -⟩ := hdom d hmem
    exact he e hes (hen.trans hn)
  | some e =>
    have hs := isStrongest_of_get? he
    refine (get?_strongest_iff hd).mpr ⟨hsub e hs.mem, hs.name_eq, fun f hf hfn => ?_⟩
    obtain ⟨g, hg, hgn, hfg⟩ := hdom f hf
    exact cascade_ne_gt_iff.mpr (hfg.trans (hs.rank_le hg (hgn.trans hfn)))

/-- Neither the order of the declarations matters nor how often one occurs. -/
lemma strongest_congr {ds es : List Declaration} (hd : ToldApart ds) (h : ∀ d, d ∈ ds ↔ d ∈ es) :
    strongest ds = strongest es :=
  strongest_eq_of_dominated hd (fun e he => (h e).mpr he) (fun d hmem => ⟨d, (h d).mp hmem, rfl, le_rfl⟩)

/-- Merging the members of a set, from nothing, leads to the same styles by every list of them, in whatever order
and with whatever repetitions, as long as no two of them have name, priority and order in common: each name that
occurs among them is there, with the member that outweighs all others of its name, and no other name is. -/
theorem merge_settles_for_every_listing (S : Finset Declaration)
    (hS : ∀ d ∈ S, ∀ e ∈ S, d.name = e.name → d.priority = e.priority → d.order = e.order → d = e) :
    ∃ s : Styles, s.Increasing ∧
      (∀ ds : List Declaration, (∀ d, d ∈ ds ↔ d ∈ S) → ds.foldl merge empty = s) ∧
      (∀ name, s.contains name = true ↔ ∃ d ∈ S, d.name = name) ∧
      ∀ name d, s.get? name = some d ↔
        d ∈ S ∧ d.name = name ∧ ∀ e ∈ S, e.name = name → e ≠ d → e.cascade d = .lt := by
  have hlist : ToldApart S.toList := by
    intro d hd e he hname hrank
    obtain ⟨hpriority, horder⟩ := rank_eq_iff.mp hrank
    exact hS d (Finset.mem_toList.mp hd) e (Finset.mem_toList.mp he) hname hpriority horder
  refine ⟨strongest S.toList, increasing_strongest _, ?_, ?_, ?_⟩
  · intro ds hds
    refine (strongest_congr hlist fun d => ?_).symm
    rw [hds, Finset.mem_toList]
  · intro name
    rw [contains, Option.isSome_iff_ne_none, Ne, get?_strongest_eq_none_iff]
    simp
  · intro name d
    rw [get?_strongest_iff hlist, isStrongest_iff_outweighs hlist]
    simp only [Finset.mem_toList]

/-- Two colors of the same priority, a weaker one that comes later, and a width: every listing ends with the later of
the two strong colors, and with the width. -/
theorem merge_settles_for_every_listing_colors :
    let red : Declaration := ⟨"color", .ofString "red", 0x100, 0⟩
    let green : Declaration := ⟨"color", .ofString "green", 0x1, 5⟩
    let blue : Declaration := ⟨"color", .ofString "blue", 0x100, 3⟩
    let wide : Declaration := ⟨"width", .ofInt 4, 0x1, 5⟩
    let S : Finset Declaration := [red, green, blue, wide].toFinset
    (∀ d ∈ S, ∀ e ∈ S, d.name = e.name → d.priority = e.priority → d.order = e.order → d = e) ∧
      [wide, blue, blue, green, wide, red, blue].foldl merge empty = [red, green, blue, wide].foldl merge empty ∧
      ([red, green, blue, wide].foldl merge empty).get? "color" = some blue := by
  intro red green blue wide S
  have hS : ∀ d ∈ S, ∀ e ∈ S, d.name = e.name → d.priority = e.priority → d.order = e.order → d = e := by decide
  obtain ⟨s, -, hfold, -, hget⟩ := merge_settles_for_every_listing S hS
  have hone := hfold [red, green, blue, wide] (fun d => List.mem_toFinset.symm)
  have hother : ∀ d, d ∈ [wide, blue, blue, green, wide, red, blue] ↔ d ∈ S := by
    intro d
    rw [List.mem_toFinset]
    grind
  refine ⟨hS, (hfold _ hother).trans hone.symm, ?_⟩
  rw [hone, hget]
  decide

end Styles

end Stylebook
