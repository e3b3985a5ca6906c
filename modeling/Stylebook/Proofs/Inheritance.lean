import Stylebook.Cascade
import Stylebook.Index
import Stylebook.Proofs.ForestShape
import Stylebook.Proofs.Strongest
import Stylebook.Resolution

/-! An inherited attribute that nothing sets on an element is taken from its nearest ancestor on which
something does. What ancestors have besides does not come down, and going no further once nothing is
missing loses nothing. -/
namespace Stylebook

namespace ElementTree

variable {t : ElementTree} {n p x y : NodeId} {P : NodeId → Prop}

/-- A proper ancestor with a property, such that all others with it are further up. -/
structure IsNearest (t : ElementTree) (P : NodeId → Prop) (n x : NodeId) : Prop where
  above : Relation.TransGen t.ParentOf n x
  holds : P x
  nearest : ∀ y, Relation.TransGen t.ParentOf n y → P y → Relation.ReflTransGen t.ParentOf x y

lemma not_transGen_of_parent?_eq_none (h : t.parent? n = none) : ¬ Relation.TransGen t.ParentOf n x := by
  intro hx
  obtain ⟨p, hp, -⟩ := Relation.TransGen.head'_iff.mp hx
  rw [ParentOf, h] at hp
  cases hp

lemma transGen_iff_of_parent? (h : t.parent? n = some p) :
    Relation.TransGen t.ParentOf n x ↔ Relation.ReflTransGen t.ParentOf p x := by
  rw [Relation.TransGen.head'_iff]
  constructor
  · rintro ⟨q, hq, hx⟩
    obtain rfl : p = q := Option.some.inj (h.symm.trans hq)
    exact hx
  · intro hx
    exact ⟨p, h, hx⟩

namespace IsNearest

lemma parent (h : t.parent? n = some p) (hp : P p) : t.IsNearest P n p where
  above := .single h
  holds := hp
  nearest _ hy _ := (transGen_iff_of_parent? h).mp hy

/-- A parent without the property is passed over. -/
lemma iff_of_not (h : t.parent? n = some p) (hp : ¬ P p) : t.IsNearest P n x ↔ t.IsNearest P p x := by
  have habove (y : NodeId) (hy : P y) :
      Relation.TransGen t.ParentOf n y ↔ Relation.TransGen t.ParentOf p y := by
    rw [transGen_iff_of_parent? h, Relation.reflTransGen_iff_eq_or_transGen]
    refine or_iff_right ?_
    rintro rfl
    exact hp hy
  constructor
  · intro hx
    exact ⟨(habove x hx.holds).mp hx.above, hx.holds, fun y hy hP => hx.nearest y ((habove y hP).mpr hy) hP⟩
  · intro hx
    exact ⟨(habove x hx.holds).mpr hx.above, hx.holds, fun y hy hP => hx.nearest y ((habove y hP).mp hy) hP⟩

lemma unique (ht : t.Forest) (hx : t.IsNearest P n x) (hy : t.IsNearest P n y) : x = y := by
  have hxy := hx.nearest y hy.above hy.holds
  have hyx := hy.nearest x hx.above hx.holds
  rcases Relation.reflTransGen_iff_eq_or_transGen.mp hxy with heq | hup
  · exact heq.symm
  · exact absurd (hup.trans_left hyx) (ht.acyclic x)

end IsNearest

/-- What holds of nodes without a parent, and comes down from a parent to its children, holds of all. -/
lemma Forest.induction_on_parent (h : t.Forest) (hpresent : t.ParentsPresent) {motive : NodeId → Prop}
    (top : ∀ n, t.parent? n = none → motive n)
    (below : ∀ n p, t.parent? n = some p → motive p → motive n) (n : NodeId) : motive n := by
  induction hk : (t.ancestors n).length generalizing n with
  | zero =>
    refine top n ?_
    rw [h.ancestors_eq hpresent] at hk
    cases hp : t.parent? n with
    | none => rfl
    | some p => simp [hp] at hk
  | succ k ih =>
    rw [h.ancestors_eq hpresent] at hk
    cases hp : t.parent? n with
    | none => simp [hp] at hk
    | some p => exact below n p hp (ih p (by simpa [hp] using hk))

end ElementTree

namespace Styles

lemma name_of_get? {s : Styles} {name : String} {d : Declaration} (h : s.get? name = some d) :
    d.name = name := by simpa using List.find?_some h

lemma contains_eq_false_iff {s : Styles} {name : String} : s.contains name = false ↔ s.get? name = none := by
  simp [contains]

end Styles

namespace Resolution

variable {matched : ElementTree → NodeId → Styles} {inherited other : Inherited} {doc : ElementTree}
  {n p : NodeId} {name : String} {d : Declaration}

lemma mem_missing {own : Styles} :
    name ∈ missing inherited own ↔ name ∈ inherited.names ∧ own.get? name = none := by
  simp [missing, Styles.contains_eq_false_iff]

/-- Only the names that are asked for are taken, and those only as far as they are there. -/
lemma get?_take (names : List String) (upper own : Styles) :
    (take names upper own).get? name =
      if name ∈ names then (upper.get? name).or (own.get? name) else own.get? name := by
  unfold take
  induction names generalizing own with
  | nil => simp
  | cons m names ih =>
    rw [List.foldl_cons, ih]
    cases hm : upper.get? m with
    | none =>
      by_cases hname : name = m
      · subst hname
        simp [hm]
      · simp [hname]
    | some e =>
      have he : e.name = m := Styles.name_of_get? hm
      rw [Option.elim_some, Styles.get?_insert, he]
      by_cases hname : name = m
      · subst hname
        simp [hm]
      · simp [hname, Ne.symm hname]

lemma increasing_take (names : List String) (upper : Styles) {own : Styles} (h : own.Increasing) :
    (take names upper own).Increasing := by
  unfold take
  induction names generalizing own with
  | nil => exact h
  | cons m names ih =>
    rw [List.foldl_cons]
    cases upper.get? m with
    | none => exact ih h
    | some e => exact ih (h.insert e)

/-! Styles come from the parent's. To stop where nothing is missing is the same as to take nothing. -/

lemma styles_of_ancestors_eq_nil (h : doc.ancestors n = []) :
    styles matched inherited doc n = matched doc n := by
  have hnone : take (missing inherited (matched doc n)) .empty (matched doc n) = matched doc n := by
    simp [take]
  rw [styles, h]
  simp only [along, hnone, ite_self]

lemma styles_of_parent?_eq_none (hd : doc.Built) (h : doc.parent? n = none) :
    styles matched inherited doc n = matched doc n := by
  apply styles_of_ancestors_eq_nil
  rw [hd.forest.ancestors_eq hd.parentsPresent, h, Option.elim_none]

lemma styles_of_parent? (hd : doc.Built) (h : doc.parent? n = some p) :
    styles matched inherited doc n =
      take (missing inherited (matched doc n)) (styles matched inherited doc p) (matched doc n) := by
  rw [styles, hd.forest.ancestors_eq hd.parentsPresent, h, Option.elim_some, along]
  split_ifs with hmissing
  · rw [List.isEmpty_iff.mp hmissing]
    rfl
  · rfl

/-- Declarations that match stay, names that are not inherited are not asked for, and the others are the
parent's. -/
lemma get?_styles_of_parent? (hd : doc.Built) (h : doc.parent? n = some p) (name : String) :
    (styles matched inherited doc n).get? name =
      ((matched doc n).get? name).or
        (if name ∈ inherited.names then (styles matched inherited doc p).get? name else none) := by
  rw [styles_of_parent? hd h, get?_take]
  simp only [mem_missing]
  cases (matched doc n).get? name with
  | none => by_cases hname : name ∈ inherited.names <;> simp [hname]
  | some e => simp

lemma get?_styles_of_matched (hd : doc.Built) (h : (matched doc n).get? name = some d) :
    (styles matched inherited doc n).get? name = some d := by
  cases hp : doc.parent? n with
  | none => rw [styles_of_parent?_eq_none hd hp, h]
  | some p => rw [get?_styles_of_parent? hd hp, h, Option.some_or]

lemma get?_styles_of_notMem (hd : doc.Built) (hname : name ∉ inherited.names) :
    (styles matched inherited doc n).get? name = (matched doc n).get? name := by
  cases hp : doc.parent? n with
  | none => rw [styles_of_parent?_eq_none hd hp]
  | some p => rw [get?_styles_of_parent? hd hp, if_neg hname, Option.or_none]

/-- What an inherited name is found to be: the element's own declaration, or that of the nearest ancestor
with one. -/
lemma get?_styles_eq_some_iff (hd : doc.Built) (hname : name ∈ inherited.names) :
    (styles matched inherited doc n).get? name = some d ↔
      (matched doc n).get? name = some d ∨ (matched doc n).get? name = none ∧
        ∃ x, doc.IsNearest (fun m => (matched doc m).contains name = true) n x ∧
          (matched doc x).get? name = some d := by
  induction n using hd.forest.induction_on_parent hd.parentsPresent with
  | top n hp =>
    rw [styles_of_parent?_eq_none hd hp]
    refine (or_iff_left ?_).symm
    rintro ⟨-, x, hx, -⟩
    exact ElementTree.not_transGen_of_parent?_eq_none hp hx.above
  | below n p hp ih =>
    rw [get?_styles_of_parent? hd hp, if_pos hname]
    cases hown : (matched doc n).get? name with
    | some e => simp
    | none =>
      simp only [Option.none_or, ih, reduceCtorEq, true_and, false_or]
      -- The parent's own declaration is the nearest one; without it the search goes on from the parent.
      cases hupper : (matched doc p).get? name with
      | some e =>
        have hhas : (matched doc p).contains name = true := by simp [Styles.contains, hupper]
        have hnearest := ElementTree.IsNearest.parent (P := fun m => (matched doc m).contains name = true) hp hhas
        simp only [reduceCtorEq, false_and, or_false]
        constructor
        · rintro he
          exact ⟨p, hnearest, hupper.trans he⟩
        · rintro ⟨x, hx, hget⟩
          rw [hx.unique hd.forest hnearest, hupper] at hget
          exact hget
      | none =>
        have hnot : ¬ (matched doc p).contains name = true := by simp [Styles.contains, hupper]
        simp only [reduceCtorEq, true_and, false_or]
        refine exists_congr (fun x => and_congr_left' ?_)
        exact (ElementTree.IsNearest.iff_of_not hp hnot).symm

lemma get?_styles_eq_none_iff (hd : doc.Built) (hname : name ∈ inherited.names) :
    (styles matched inherited doc n).get? name = none ↔
      ∀ x, Relation.ReflTransGen doc.ParentOf n x → (matched doc x).get? name = none := by
  induction n using hd.forest.induction_on_parent hd.parentsPresent with
  | top n hp =>
    rw [styles_of_parent?_eq_none hd hp]
    constructor
    · intro h x hx
      rcases Relation.reflTransGen_iff_eq_or_transGen.mp hx with rfl | hx
      · exact h
      · exact absurd hx (ElementTree.not_transGen_of_parent?_eq_none hp)
    · intro h
      exact h n .refl
  | below n p hp ih =>
    rw [get?_styles_of_parent? hd hp, if_pos hname, Option.or_eq_none_iff, ih]
    constructor
    · rintro ⟨hown, habove⟩ x hx
      rcases Relation.reflTransGen_iff_eq_or_transGen.mp hx with rfl | hx
      · exact hown
      · exact habove x ((ElementTree.transGen_iff_of_parent? hp).mp hx)
    · intro h
      exact ⟨h n .refl, fun x hx => h x (.head hp hx)⟩

lemma increasing_styles (hd : doc.Built) (h : ∀ m, (matched doc m).Increasing) :
    (styles matched inherited doc n).Increasing := by
  cases hp : doc.parent? n with
  | none =>
    rw [styles_of_parent?_eq_none hd hp]
    exact h n
  | some p =>
    rw [styles_of_parent? hd hp]
    exact increasing_take _ _ (h n)

/-- The order in which the inherited names are gone through does not matter. -/
lemma styles_eq_of_mem_iff (hd : doc.Built) (h : ∀ m, (matched doc m).Increasing)
    (hsame : ∀ name, name ∈ other.names ↔ name ∈ inherited.names) (n : NodeId) :
    styles matched other doc n = styles matched inherited doc n := by
  refine (increasing_styles hd h).ext (increasing_styles hd h) ?_
  induction n using hd.forest.induction_on_parent hd.parentsPresent with
  | top n hp =>
    intro name
    rw [styles_of_parent?_eq_none hd hp, styles_of_parent?_eq_none hd hp]
  | below n p hp ih =>
    intro name
    rw [get?_styles_of_parent? hd hp, get?_styles_of_parent? hd hp, ih]
    simp only [hsame]

/-- Styles with inheritance, said without walking: own declarations first; for inherited names the nearest
ancestor's, if there is one; nothing else. -/
structure Inherits (matched : NodeId → Styles) (doc : ElementTree) (inherited : Inherited) (n : NodeId)
    (styles : Styles) : Prop where
  own : ∀ name d, (matched n).get? name = some d → styles.get? name = some d
  nearest : ∀ name ∈ inherited.names, (matched n).get? name = none → ∀ d,
    styles.get? name = some d ↔
      ∃ x, doc.IsNearest (fun m => (matched m).contains name = true) n x ∧ (matched x).get? name = some d
  absent : ∀ name ∈ inherited.names, (matched n).get? name = none →
    (styles.get? name = none ↔ ∀ x, Relation.TransGen doc.ParentOf n x → (matched x).get? name = none)
  other : ∀ name, name ∉ inherited.names → (matched n).get? name = none → styles.get? name = none

lemma inherits_styles (hd : doc.Built) (n : NodeId) :
    Inherits (matched doc) doc inherited n (styles matched inherited doc n) where
  own _ _ h := get?_styles_of_matched hd h
  nearest name hname hown d := by
    rw [get?_styles_eq_some_iff hd hname, hown]
    simp
  absent name hname hown := by
    rw [get?_styles_eq_none_iff hd hname]
    constructor
    · intro h x hx
      exact h x hx.to_reflTransGen
    · intro h x hx
      rcases Relation.reflTransGen_iff_eq_or_transGen.mp hx with rfl | hx
      · exact hown
      · exact h x hx
  other name hname hown := by rw [get?_styles_of_notMem hd hname, hown]

end Resolution

/-- The two ways to find what matches an element. -/
inductive Resolver
  | index (i : Index)
  | cascade (c : Cascade)
  deriving DecidableEq

namespace Resolver

def matched : Resolver → ElementTree → NodeId → Styles
  | index i => i.matched
  | cascade c => c.matched

def styles (r : Resolver) (inherited : Inherited) (doc : ElementTree) (n : NodeId) : Styles :=
  Resolution.styles r.matched inherited doc n

lemma increasing_matched (r : Resolver) (doc : ElementTree) (n : NodeId) : (r.matched doc n).Increasing := by
  cases r with
  | index i => exact Styles.increasing_strongest _
  | cascade c => exact Styles.increasing_strongest _

/-- Whatever an index or a cascade holds, the styles of an element are those that match it and, for the
inherited names that it lacks, those that match its nearest ancestor with the name. Inherited names that
are listed otherwise give the same styles. -/
theorem styles_inherit_from_nearest (r : Resolver) {doc : ElementTree} (hd : doc.Built) (inherited : Inherited)
    (n : NodeId) :
    Resolution.Inherits (r.matched doc) doc inherited n (r.styles inherited doc n) ∧
    ∀ other : Inherited, (∀ name, name ∈ other.names ↔ name ∈ inherited.names) →
      r.styles other doc n = r.styles inherited doc n := by
  refine ⟨Resolution.inherits_styles hd n, ?_⟩
  intro other hsame
  exact Resolution.styles_eq_of_mem_iff hd (r.increasing_matched doc) hsame n

/-- A label in a box in a view: the color comes from the box, which hides that of the view, the cursor from
the view, and the width of the view stays there. -/
theorem styles_inherit_from_nearest_label :
    let view : Term := ⟨{ Compound.universal with tag := some "View" }, []⟩
    let box : Term := ⟨{ Compound.universal with tag := some "Box" }, []⟩
    let string (name value : String) : Attribute := ⟨name, .ofString value⟩
    let rules : List Rule := [⟨[view], [string "color" "red", string "cursor" "text", string "width" "9"], []⟩,
      ⟨[box], [string "color" "blue"], []⟩]
    let doc : ElementTree := ⟨#[⟨.ofTag "View", none, [1]⟩, ⟨.ofTag "Box", some 0, [2]⟩,
      ⟨.ofTag "Label", some 1, []⟩]⟩
    let r : Resolver := .cascade (Cascade.empty.addRules rules)
    let color : Declaration := ⟨"color", .ofString "blue", 1, 3⟩
    doc.Built ∧ r.styles ⟨["cursor", "color"]⟩ doc 2 = ⟨[color, ⟨"cursor", .ofString "text", 1, 1⟩]⟩ ∧
      r.styles ⟨["color", "cursor"]⟩ doc 2 = r.styles ⟨["cursor", "color"]⟩ doc 2 ∧
      ∃ x, doc.IsNearest (fun m => (r.matched doc m).contains "color" = true) 2 x ∧
        (r.matched doc x).get? "color" = some color := by
  intro view box string rules doc r color
  have hbox : (ElementTree.ofRoot (.ofTag "View")).appendElement 0 (.ofTag "Box") =
      .ok (1, ⟨#[⟨.ofTag "View", none, [1]⟩, ⟨.ofTag "Box", some 0, []⟩]⟩) := rfl
  have hlabel : ElementTree.appendElement ⟨#[⟨.ofTag "View", none, [1]⟩, ⟨.ofTag "Box", some 0, []⟩]⟩ 1
      (.ofTag "Label") = .ok (2, doc) := rfl
  have hd : doc.Built := .appendElement (.appendElement (.ofRoot _) hbox) hlabel
  obtain ⟨hinherits, horder⟩ := styles_inherit_from_nearest r hd ⟨["cursor", "color"]⟩ 2
  have hstyles : r.styles ⟨["cursor", "color"]⟩ doc 2 = ⟨[color, ⟨"cursor", .ofString "text", 1, 1⟩]⟩ := by
    decide
  have hget : (r.styles ⟨["cursor", "color"]⟩ doc 2).get? "color" = some color := by
    rw [hstyles]
    decide
  refine ⟨hd, hstyles, horder _ (by simp [or_comm]), ?_⟩
  exact (hinherits.nearest "color" (by simp) (by decide) color).mp hget

end Resolver

end Stylebook
