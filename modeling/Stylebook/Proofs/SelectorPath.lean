import Mathlib.Data.List.Infix
import Mathlib.Data.List.TakeDrop
import Stylebook.Index

/-! A selector can be read back from the path that it spells. Inside a compound the predicates stand in a
fixed order of their kinds, and an edge that leads outward marks where the next compound begins. -/
namespace Stylebook

namespace Edge

/-- Whether the edge stays at the element. -/
def staysPut : Edge → Bool
  | parent => false
  | ancestor => false
  | _ => true

lemma ofLink_injective : Function.Injective ofLink := by
  intro l m h
  cases l <;> cases m <;> simp_all [ofLink]

@[simp] lemma staysPut_ofLink (link : Link) : (ofLink link).staysPut = false := by
  cases link <;> rfl

end Edge

namespace Compound

/-- The compound that a path without outward edges spells. -/
def ofPath (path : List Edge) : Compound where
  ids := path.filterMap Edge.id?
  classes := path.filterMap Edge.className?
  tag := (path.filterMap Edge.tag?).head?
  attributes := path.filterMap Edge.attr?
  firstChild := path.contains .firstChild
  lastChild := path.contains .lastChild
  nths := path.filterMap Edge.nthChild?

lemma ofPath_path (c : Compound) : ofPath c.path = c := by
  obtain ⟨ids, classes, tag, attributes, firstChild, lastChild, nths⟩ := c
  cases tag <;> cases firstChild <;> cases lastChild <;>
    simp [ofPath, path, List.filterMap_append, List.filterMap_cons, List.filterMap_map, Function.comp_def,
      Edge.id?, Edge.className?, Edge.tag?, Edge.attr?, Edge.nthChild?]

lemma all_staysPut_path (c : Compound) : c.path.all Edge.staysPut = true := by
  obtain ⟨ids, classes, tag, attributes, firstChild, lastChild, nths⟩ := c
  cases tag <;> cases firstChild <;> cases lastChild <;> simp [path, Edge.staysPut]

end Compound

namespace Term

/-- What stands behind the compound nearest to the element. -/
abbrev outerPath (outer : List (Link × Compound)) : List Edge :=
  outer.flatMap fun (link, c) => .ofLink link :: c.path

/-- The first compound ends where the path leads outward for the first time. -/
lemma takeWhile_path (c : Compound) (outer : List (Link × Compound)) :
    (c.path ++ outerPath outer).takeWhile Edge.staysPut = c.path := by
  rw [List.takeWhile_append_of_pos (List.all_eq_true.mp c.all_staysPut_path)]
  cases outer with
  | nil => simp
  | cons p outer => simp

lemma eq_of_path_append {c c' : Compound} {outer outer' : List (Link × Compound)}
    (h : c.path ++ outerPath outer = c'.path ++ outerPath outer') :
    c = c' ∧ outerPath outer = outerPath outer' := by
  have hpath : c.path = c'.path := by rw [← takeWhile_path c outer, h, takeWhile_path]
  constructor
  · rw [← c.ofPath_path, hpath, c'.ofPath_path]
  · rwa [hpath, List.append_cancel_left_eq] at h

lemma outerPath_injective : Function.Injective outerPath := by
  intro outer outer' h
  induction outer generalizing outer' with
  | nil =>
    cases outer' with
    | nil => rfl
    | cons p outer' => simp [outerPath] at h
  | cons p outer ih =>
    cases outer' with
    | nil => simp [outerPath] at h
    | cons p' outer' =>
      obtain ⟨link, c⟩ := p
      obtain ⟨link', c'⟩ := p'
      simp only [outerPath, List.flatMap_cons, List.cons_append, List.cons.injEq] at h
      obtain ⟨hlink, hrest⟩ := h
      obtain ⟨rfl, houter⟩ := eq_of_path_append hrest
      rw [Edge.ofLink_injective hlink, ih houter]

/-- Different selectors spell different paths. -/
theorem path_injective : Function.Injective path := by
  intro t u h
  obtain ⟨hhead, houter⟩ := eq_of_path_append h
  cases t
  cases u
  rw [Term.mk.injEq]
  exact ⟨hhead, outerPath_injective houter⟩

end Term

end Stylebook
