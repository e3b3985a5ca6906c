import Mathlib.Algebra.Ring.Nat
import Mathlib.Data.List.Dedup
import Stylebook.Proofs.CanonicalForm
import Stylebook.Proofs.SelectorGrammar
import Stylebook.Proofs.SelectorPath

/-! The weight of a canonical form. The parser counts every predicate that is written, the canonical form
every one once in each compound; so the form weighs no more than the selector, and less just when a compound
says something twice. -/
namespace Stylebook

namespace Edge

variable {es fs : List Edge}

/-- Every predicate of an element counts. -/
lemma length_columns (h : ∀ e ∈ es, e.staysPut = true) : (es.filterMap column?).length = es.length := by
  induction es with
  | nil => rfl
  | cons e es ih =>
    obtain ⟨he, hes⟩ := List.forall_mem_cons.mp h
    cases e with
    | parent | ancestor => cases he
    | _ => exact congrArg (· + 1) (ih hes)

lemma columns_eq_iff (hsub : es.Sublist fs) (hput : ∀ e ∈ fs, e.staysPut = true) :
    es.filterMap column? = fs.filterMap column? ↔ es = fs := by
  refine ⟨fun heq => hsub.eq_of_length ?_, fun heq => by rw [heq]⟩
  rw [← length_columns hput, ← length_columns fun e he => hput e (hsub.subset he), heq]

lemma flatten_dedup_sublist (ess : List (List Edge)) :
    (ess.map List.dedup).flatten.Sublist ess.flatten := by
  induction ess with
  | nil => exact .slnil
  | cons es ess ih => exact (List.dedup_sublist es).append ih

/-- Leaving out repetitions leaves out something wherever there are any. -/
lemma flatten_dedup_eq_iff {ess : List (List Edge)} :
    (ess.map List.dedup).flatten = ess.flatten ↔ ∀ es ∈ ess, es.Nodup := by
  induction ess with
  | nil => simp
  | cons es ess ih =>
    rw [List.map_cons, List.flatten_cons, List.flatten_cons, List.forall_mem_cons, ← ih, ← List.dedup_eq_self]
    constructor
    · intro h
      have hlen := congrArg List.length h
      rw [List.length_append, List.length_append] at hlen
      have hes := (List.dedup_sublist es).length_le
      have hess := (flatten_dedup_sublist ess).length_le
      exact ⟨(List.dedup_sublist es).eq_of_length (by omega), (flatten_dedup_sublist ess).eq_of_length (by omega)⟩
    · rintro ⟨hes, hess⟩
      rw [hes, hess]

end Edge

namespace Compound

variable {c : Compound} {ps : List Part}

lemma mem_path_iff (e : Edge) : e ∈ c.path ↔ c.Has e := by
  cases e <;> simp [path, Has]

/-- Predicates of different kinds differ, and those of one kind are in order. -/
lemma Increasing.nodup_path (h : c.Increasing) : c.path.Nodup := by
  have hids : (c.ids.map Edge.id).Nodup :=
    List.Nodup.map (fun _ _ => Edge.id.inj) (h.ids.imp ne_of_lt)
  have hclasses : (c.classes.map Edge.className).Nodup :=
    List.Nodup.map (fun _ _ => Edge.className.inj) (h.classes.imp ne_of_lt)
  have hattributes : (c.attributes.map fun a => Edge.attr a.1 a.2).Nodup := by
    refine List.Nodup.map ?_ (h.attributes.imp fun hlt heq => hlt.ne (congrArg toLex heq))
    rintro ⟨name, value⟩ ⟨name', value'⟩ heq
    simpa using heq
  have hnths : (c.nths.map Edge.nthChild).Nodup := by
    refine List.Nodup.map (fun _ _ => Edge.nthChild.inj) (h.nths.imp fun hlt heq => ?_)
    exact hlt.ne (congrArg NthChild.position heq)
  have htag : (c.tag.map Edge.tag).toList.Nodup := by cases c.tag <;> simp
  have hfirst : (if c.firstChild then [Edge.firstChild] else []).Nodup := by split_ifs <;> simp
  have hlast : (if c.lastChild then [Edge.lastChild] else []).Nodup := by split_ifs <;> simp
  unfold path
  refine (((((hids.append hclasses ?_).append htag ?_).append hattributes ?_).append hfirst ?_).append hlast ?_).append
    hnths ?_
  all_goals
    intro e
    cases e <;> simp

lemma Gathers.path_perm (h : c.Gathers ps) : c.path.Perm (Part.predicates ps).dedup := by
  refine (List.perm_ext_iff_of_nodup h.increasing.nodup_path (List.nodup_dedup _)).mpr fun e => ?_
  rw [mem_path_iff, h.has_iff, List.mem_dedup]

lemma count_columns_path (c : Compound) (column : Column) :
    (c.path.filterMap Edge.column?).count column =
      match column with
      | .ids => c.ids.length
      | .classes => c.classes.length + c.attributes.length + c.nths.length + c.firstChild.toNat + c.lastChild.toNat
      | .types => if c.tag.isSome then 1 else 0 := by
  obtain ⟨ids, classes, tag, attributes, firstChild, lastChild, nths⟩ := c
  cases column <;> cases tag <;> cases firstChild <;> cases lastChild <;>
    simp [path, Edge.column?, List.filterMap_map, Function.comp_def, List.count_replicate] <;> omega

lemma specificity_eq_ofColumns (c : Compound) : c.specificity = .ofColumns (c.path.filterMap Edge.column?) := by
  rw [specificity, Specificity.ofColumns, count_columns_path, count_columns_path, count_columns_path]
  cases c.tag <;> rfl

end Compound

namespace Part

variable {p : Part} {ps : List Part}

/-- A part counts where the predicate does that it stands for. -/
lemma IsSupported.column?_eq (h : p.IsSupported) : p.column? = p.predicate?.bind Edge.column? := by
  cases p with
  | attr name test =>
    obtain ⟨value, rfl⟩ := h
    rfl
  | pseudoClass name argument =>
    rcases h with ⟨rfl | rfl, rfl⟩ | ⟨rfl, text, nth, rfl, hnth⟩
    · rfl
    · rfl
    · simp [predicate?, hnth, column?, Edge.column?]
  | pseudoElement name => cases h
  | _ => rfl

lemma columns_predicates (h : ∀ p ∈ ps, p.IsSupported) :
    (predicates ps).filterMap Edge.column? = ps.filterMap column? := by
  rw [predicates, List.filterMap_filterMap]
  exact List.filterMap_congr fun p hp => (h p hp).column?_eq.symm

lemma staysPut_of_mem_predicates {e : Edge} (h : e ∈ predicates ps) : e.staysPut = true := by
  obtain ⟨p, -, hp⟩ := List.mem_filterMap.mp h
  unfold predicate? at hp
  split at hp
  case h_7 =>
    obtain ⟨nth, -, rfl⟩ := Option.map_eq_some_iff.mp hp
    rfl
  case h_8 => cases hp
  all_goals
    cases hp
    rfl

/-- Combinators stand for no predicate, so all predicates stand in the compounds. -/
lemma predicates_perm (ps : List Part) :
    ((compounds ps).map predicates).flatten.Perm (predicates ps) := by
  have hsplit : ((ps.splitOnP isCombinator).map predicates).flatten = predicates ps := by
    induction ps with
    | nil => rfl
    | cons p ps ih =>
      obtain ⟨qs, rest, hrest⟩ := List.exists_cons_of_ne_nil (List.splitOnP_ne_nil isCombinator ps)
      rw [hrest] at ih
      rw [List.splitOnP_cons_eq_if_modifyHead, hrest]
      split_ifs with hp
      · obtain ⟨k, rfl⟩ := exists_of_isCombinator hp
        exact ih
      · cases hpredicate : p.predicate? <;> simp_all [predicates]
  rw [← hsplit, compounds, List.map_reverse]
  exact (List.reverse_perm _).flatten

end Part

namespace Term

variable {s : Selector} {t : Term}

lemma specificity_eq_ofColumns (t : Term) :
    t.specificity = .ofColumns ((t.compounds.map Compound.path).flatten.filterMap Edge.column?) := by
  have houter : t.outer.map (fun p => p.2.specificity) =
      (((t.outer.map Prod.snd).map Compound.path).map (List.filterMap Edge.column?)).map .ofColumns := by
    rw [List.map_map, List.map_map, List.map_map]
    exact List.map_congr_left fun p _ => p.2.specificity_eq_ofColumns
  change t.head.specificity + (t.outer.map fun p => p.2.specificity).foldl (· + ·) .zero = _
  rw [houter, Specificity.foldl_ofColumns, Compound.specificity_eq_ofColumns, Specificity.zero_add, compounds,
    List.map_cons, List.filterMap_flatten, List.map_cons, List.flatten_cons, Specificity.ofColumns_append]

/-- Compound by compound, the form has the predicates of the text without repetitions. -/
lemma paths_perm {cs : List Compound} {pss : List (List Part)} (h : List.Forall₂ Compound.Gathers cs pss) :
    (cs.map Compound.path).flatten.Perm ((pss.map Part.predicates).map List.dedup).flatten := by
  induction h with
  | nil => exact .nil
  | cons hc _ ih => exact hc.path_perm.append ih

/-- In no count does a canonical form weigh more than the parts of the selector, and it weighs the same just when
no compound of the selector repeats a predicate. What a selector that is read weighs is the weight of its parts. -/
theorem specificity_le_and_eq_iff_nodup (h : ofSelector s = .ok t)
    (hfits : ∀ column, (s.parts.filterMap Part.column?).count column < UInt32.size) :
    let w := Part.tally s.parts
    (t.specificity.ids ≤ w.ids ∧ t.specificity.classes ≤ w.classes ∧ t.specificity.types ≤ w.types) ∧
    (t.specificity = w ↔ ∀ ps ∈ Part.compounds s.parts, (Part.predicates ps).Nodup) ∧
    ∀ text ss, Selector.parseList text = .ok ss → s ∈ ss → s.specificity = w := by
  intro w
  obtain ⟨hsupported, hreads⟩ := reads_of_foldlM h
  have hperm := Part.predicates_perm s.parts
  have ht : t.specificity = _ :=
    t.specificity_eq_ofColumns.trans (Specificity.ofColumns_congr ((paths_perm hreads.compounds).filterMap _))
  have hcolumns := hperm.filterMap Edge.column?
  rw [Part.columns_predicates hsupported] at hcolumns
  have hw : w = _ := Specificity.ofColumns_congr hcolumns.symm
  have hfits' : Specificity.Fits _ := fun column => hcolumns.count_eq column ▸ hfits column
  have hput : ∀ e ∈ ((Part.compounds s.parts).map Part.predicates).flatten, e.staysPut = true :=
    fun e he => Part.staysPut_of_mem_predicates (hperm.subset he)
  have hsub := Edge.flatten_dedup_sublist ((Part.compounds s.parts).map Part.predicates)
  have hsub' := hsub.filterMap Edge.column?
  rw [ht, hw]
  refine ⟨hfits'.ofColumns_le hsub', ?_, ?_⟩
  · rw [hfits'.ofColumns_eq_iff hsub', Edge.columns_eq_iff hsub hput, Edge.flatten_dedup_eq_iff,
      List.forall_mem_map]
  · intro text ss hparse hs
    obtain ⟨ls, -, hlisted⟩ := Selector.parseListAt_eq_ok_iff.1 hparse
    rw [← hw]
    exact (hlisted.joined_and_weight s hs).2

/-- A class that is named twice and a progression in two spellings count once in the form. A class that two
compounds name is no repetition. -/
theorem specificity_le_and_eq_iff_nodup_twice :
    let s : Selector := ⟨[.typeName "ul", .className "a", .className "b", .className "a", .combinator .child,
      .pseudoClass "nth-child" (some "odd"), .pseudoClass "nth-child" (some "2n+1")], ⟨0, 5, 1⟩,
      "ul.a.b.a > :nth-child(odd):nth-child(2n+1)"⟩
    let s' : Selector := ⟨[.className "a", .combinator .descendant, .id "x", .className "a"], ⟨1, 2, 0⟩, ".a #x.a"⟩
    let t : Term := ⟨{ Compound.universal with nths := [⟨2, 1⟩] },
      [(.child, { Compound.universal with classes := ["a", "b"], tag := some "ul" })]⟩
    let t' : Term := ⟨{ Compound.universal with ids := ["x"], classes := ["a"] },
      [(.descendant, { Compound.universal with classes := ["a"] })]⟩
    Selector.parseList "ul.a.b.a > :nth-child(odd):nth-child(2n+1), .a #x.a" = .ok [s, s'] ∧
      ofSelector s = .ok t ∧ t.specificity = ⟨0, 3, 1⟩ ∧ s.specificity = Part.tally s.parts ∧
      t.specificity.classes ≤ s.specificity.classes ∧
      (¬ ∀ ps ∈ Part.compounds s.parts, (Part.predicates ps).Nodup) ∧
      ofSelector s' = .ok t' ∧ t'.specificity = s'.specificity ∧
      ∀ ps ∈ Part.compounds s'.parts, (Part.predicates ps).Nodup := by
  intro s s' t t'
  have hparse : Selector.parseList "ul.a.b.a > :nth-child(odd):nth-child(2n+1), .a #x.a" = .ok [s, s'] := by
    decide +kernel
  have hs : ofSelector s = .ok t := by decide +kernel
  have hs' : ofSelector s' = .ok t' := by decide +kernel
  obtain ⟨⟨-, hle, -⟩, hiff, hweight⟩ := specificity_le_and_eq_iff_nodup hs (by intro column; cases column <;> decide)
  obtain ⟨-, hiff', -⟩ := specificity_le_and_eq_iff_nodup hs' (by intro column; cases column <;> decide)
  refine ⟨hparse, hs, by decide, hweight _ _ hparse (by simp), hle, ?_, hs', by decide, hiff'.mp (by decide)⟩
  rw [← hiff]
  decide

end Term

end Stylebook
