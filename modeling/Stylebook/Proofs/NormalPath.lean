import Mathlib.Data.String.Basic
import Mathlib.Tactic.SplitIfs
import Stylebook.Path

/-! Normal paths: what is left when dots and steps up are followed. They are read back component by
component, so that normalizing them changes nothing, and the order of paths tells them apart. -/
namespace Stylebook

namespace Component

/-- What can stand between slashes: a step up, or a name. -/
inductive Plain : Component → Prop
  | up : Plain up
  | name {s : String} (hne : s.toList ≠ []) (hdot : s.toList ≠ ['.']) (hdots : s.toList ≠ ['.', '.'])
      (hslash : '/' ∉ s.toList) : Plain (name s)

lemma Plain.ofPiece?_piece {c : Component} (h : c.Plain) : ofPiece? c.piece = some c := by
  cases h with
  | up => rfl
  | name hne hdot hdots _ => simp [piece, ofPiece?, hne, hdot, hdots]

lemma Plain.piece_ne_nil {c : Component} (h : c.Plain) : c.piece ≠ [] := by
  cases h with
  | up => simp [piece]
  | name hne _ _ _ => exact hne

lemma Plain.piece_ne_dot {c : Component} (h : c.Plain) : c.piece ≠ ['.'] := by
  cases h with
  | up => simp [piece]
  | name _ hdot _ _ => exact hdot

lemma Plain.slash_notMem_piece {c : Component} (h : c.Plain) : '/' ∉ c.piece := by
  cases h with
  | up => simp [piece]
  | name _ _ _ hslash => exact hslash

lemma plain_of_ofPiece? {piece : List Char} {c : Component} (h : ofPiece? piece = some c)
    (hslash : '/' ∉ piece) : c.Plain := by
  unfold ofPiece? at h
  split_ifs at h with hskip hup
  · cases h
    exact .up
  · cases h
    rw [not_or] at hskip
    exact .name (by simpa using hskip.1) (by simpa using hskip.2) (by simpa using hup) (by simpa using hslash)

/-- Components that neither comes before the other are equal. -/
lemma eq_of_not_lt {a b : Component} (hab : lt a b = false) (hba : lt b a = false) : a = b := by
  cases a with
  | name s =>
    cases b with
    | name t =>
      have hst : ¬ s < t := of_decide_eq_false hab
      have hts : ¬ t < s := of_decide_eq_false hba
      rw [le_antisymm (not_lt.mp hts) (not_lt.mp hst)]
    | _ => simp [lt] at hba
  | _ => cases b <;> simp [lt] at hab hba ⊢

end Component

namespace Path
open Component

lemma slash_notMem_of_mem_pieces {cs p : List Char} (h : p ∈ pieces cs) : '/' ∉ p := by
  induction cs generalizing p with
  | nil => simp_all [pieces]
  | cons c cs ih =>
    simp only [pieces] at h
    split_ifs at h with hc
    · rcases List.mem_cons.mp h with rfl | h
      · simp
      · exact ih h
    · split at h
      · next hp => exact absurd hp (pieces_ne_nil cs)
      · next q qs hp =>
        rcases List.mem_cons.mp h with rfl | h
        · have hq := ih (p := q) (by simp [hp])
          simp [hq, Ne.symm hc]
        · exact ih (by simp [hp, h])

lemma pieces_append_slash {p : List Char} (hp : '/' ∉ p) (cs : List Char) :
    pieces (p ++ '/' :: cs) = p :: pieces cs := by
  induction p with
  | nil => simp [pieces]
  | cons c p ih =>
    obtain ⟨hc, hp⟩ : '/' ≠ c ∧ '/' ∉ p := by simpa using hp
    simp [pieces, ih hp, Ne.symm hc]

lemma pieces_of_slash_notMem {p : List Char} (hp : '/' ∉ p) : pieces p = [p] := by
  induction p with
  | nil => rfl
  | cons c p ih =>
    obtain ⟨hc, hp⟩ : '/' ≠ c ∧ '/' ∉ p := by simpa using hp
    simp [pieces, ih hp, Ne.symm hc]

/-- Pieces without slashes are cut where they were joined. -/
lemma pieces_joined {ps : List (List Char)} (hne : ps ≠ []) (hs : ∀ p ∈ ps, '/' ∉ p) :
    pieces (joined ps) = ps := by
  induction ps with
  | nil => exact absurd rfl hne
  | cons p ps ih =>
    have hp : '/' ∉ p := hs p (List.mem_cons_self ..)
    cases ps with
    | nil => exact pieces_of_slash_notMem hp
    | cons q qs =>
      rw [joined, pieces_append_slash hp, ih (by simp) (fun r hr => hs r (List.mem_cons_of_mem _ hr))]
      simp

lemma pieces_joined_map {c : Component} {cs : List Component} (h : ∀ d ∈ c :: cs, d.Plain) :
    pieces (joined ((c :: cs).map piece)) = (c :: cs).map piece := by
  refine pieces_joined (by simp) (fun p hp => ?_)
  obtain ⟨d, hd, rfl⟩ := List.mem_map.mp hp
  exact (h d hd).slash_notMem_piece

/-- Plain components are read back from the text that they make. -/
lemma filterMap_pieces_joined {cs : List Component} (h : ∀ c ∈ cs, c.Plain) :
    (pieces (joined (cs.map piece))).filterMap ofPiece? = cs := by
  cases cs with
  | nil => rfl
  | cons c cs =>
    rw [pieces_joined_map h, List.filterMap_map]
    conv_rhs => rw [← List.filterMap_some (l := c :: cs)]
    exact List.filterMap_congr (fun d hd => (h d hd).ofPiece?_piece)

lemma head?_joined {p : List Char} (hp : p ≠ []) (ps : List (List Char)) :
    (joined (p :: ps)).head? = p.head? := by
  obtain ⟨c, cs, rfl⟩ := List.exists_cons_of_ne_nil hp
  cases ps <;> rfl

/-- A relative path is made of plain components only. -/
lemma components_ofComponents_plain {cs : List Component} (h : ∀ c ∈ cs, c.Plain) :
    (ofComponents cs).components = cs := by
  have htext : ofComponents cs = ⟨String.ofList (joined (cs.map piece))⟩ := by
    cases cs with
    | nil => rfl
    | cons c cs => cases h c (List.mem_cons_self ..) <;> rfl
  have habs : isAbsolute ⟨String.ofList (joined (cs.map piece))⟩ = false := by
    cases cs with
    | nil => simp [isAbsolute, joined]
    | cons c cs =>
      have hc := h c (List.mem_cons_self ..)
      obtain ⟨x, xs, hx⟩ := List.exists_cons_of_ne_nil hc.piece_ne_nil
      have hslash : x ≠ '/' := fun he => hc.slash_notMem_piece (by simp [hx, he])
      rw [isAbsolute, String.toList_ofList, List.map_cons, head?_joined hc.piece_ne_nil, hx]
      simpa using hslash
  have hdot : (pieces (joined (cs.map piece))).head? ≠ some ['.'] := by
    cases cs with
    | nil => simp [joined, pieces]
    | cons c cs =>
      rw [pieces_joined_map h]
      simpa using (h c (List.mem_cons_self ..)).piece_ne_dot
  rw [htext, components, habs]
  simp only [String.toList_ofList, Bool.false_eq_true, if_false, if_neg hdot]
  exact filterMap_pieces_joined h

/-- An absolute path is made of the root and plain components. -/
lemma components_ofComponents_root {cs : List Component} (h : ∀ c ∈ cs, c.Plain) :
    (ofComponents (.root :: cs)).components = .root :: cs := by
  have habs : isAbsolute ⟨String.ofList ('/' :: joined (cs.map piece))⟩ = true := by
    simp [isAbsolute]
  have hskip : ofPiece? [] = none := rfl
  rw [ofComponents, components, habs]
  simp only [String.toList_ofList, if_true, pieces, List.filterMap_cons, hskip]
  rw [filterMap_pieces_joined h]

/-- The components of a normal path, last component first: names, before them at most one step up, and
before that at most the root. -/
inductive Place : List Component → Prop
  | nowhere : Place []
  | root : Place [.root]
  | up {place : List Component} (h : place = [] ∨ place = [.root]) : Place (.up :: place)
  | name {s : String} {place : List Component} (hs : (Component.name s).Plain) (h : Place place) :
      Place (.name s :: place)

lemma Place.follow {place : List Component} (h : Place place) {c : Component} (hc : c.Plain) :
    Place (follow place c) := by
  cases hc with
  | name hne hdot hdots hslash => exact .name (.name hne hdot hdots hslash) h
  | up =>
    cases h with
    | nowhere => exact .up (.inl rfl)
    | root => exact .up (.inr rfl)
    | up h =>
      rcases h with rfl | rfl
      · exact .nowhere
      · exact .root
    | name _ h => exact h

lemma Place.foldl_follow {place : List Component} (h : Place place) {cs : List Component}
    (hcs : ∀ c ∈ cs, c.Plain) : Place (cs.foldl Path.follow place) := by
  induction cs generalizing place with
  | nil => exact h
  | cons c cs ih =>
    exact ih (h.follow (hcs c (List.mem_cons_self ..))) (fun d hd => hcs d (List.mem_cons_of_mem _ hd))

lemma plain_of_mem_filterMap_pieces {cs : List Char} {c : Component}
    (h : c ∈ (pieces cs).filterMap ofPiece?) : c.Plain := by
  obtain ⟨p, hp, hc⟩ := List.mem_filterMap.mp h
  exact plain_of_ofPiece? hc (slash_notMem_of_mem_pieces hp)

/-- Following the components of any path leads to the components of a normal one. -/
lemma place_components (p : Path) : Place (p.components.foldl Path.follow []) := by
  unfold components
  simp only
  split_ifs
  · exact Place.root.foldl_follow (fun _ => plain_of_mem_filterMap_pieces)
  · rw [List.foldl_cons]
    exact Place.nowhere.foldl_follow (fun _ => plain_of_mem_filterMap_pieces)
  · exact Place.nowhere.foldl_follow (fun _ => plain_of_mem_filterMap_pieces)

/-- The components of a normal path lead to themselves. -/
lemma Place.foldl_follow_reverse {place : List Component} (h : Place place) :
    place.reverse.foldl Path.follow [] = place := by
  induction h with
  | nowhere => rfl
  | root => rfl
  | up h => rcases h with rfl | rfl <;> rfl
  | name _ _ ih => rw [List.reverse_cons, List.foldl_append, ih]; rfl

lemma Place.reverse_eq {place : List Component} (h : Place place) :
    ∃ cs, (∀ c ∈ cs, c.Plain) ∧ (place.reverse = cs ∨ place.reverse = .root :: cs) := by
  induction h with
  | nowhere => exact ⟨[], by simp, .inl rfl⟩
  | root => exact ⟨[], by simp, .inr rfl⟩
  | up h =>
    refine ⟨[.up], by simpa using Component.Plain.up, ?_⟩
    rcases h with rfl | rfl
    · exact .inl rfl
    · exact .inr rfl
  | @name s place hs _ ih =>
    obtain ⟨cs, hcs, heq⟩ := ih
    refine ⟨cs ++ [.name s], fun c hc => ?_, ?_⟩
    · rcases List.mem_append.mp hc with hc | hc
      · exact hcs c hc
      · rwa [List.mem_singleton.mp hc]
    · rcases heq with heq | heq <;> simp [heq]

lemma Place.components_eq {place : List Component} (h : Place place) :
    (ofComponents place.reverse).components = place.reverse := by
  obtain ⟨cs, hcs, heq | heq⟩ := h.reverse_eq
  · rw [heq, components_ofComponents_plain hcs]
  · rw [heq, components_ofComponents_root hcs]

/-- A path in which there is nothing left to follow. -/
def IsNormal (p : Path) : Prop := ∃ place, Place place ∧ p = ofComponents place.reverse

theorem isNormal_normalize (p : Path) : p.normalize.IsNormal := ⟨_, place_components p, rfl⟩

theorem IsNormal.normalize_eq {p : Path} (h : p.IsNormal) : p.normalize = p := by
  obtain ⟨place, hplace, rfl⟩ := h
  rw [normalize, hplace.components_eq, hplace.foldl_follow_reverse]

lemma IsNormal.eq_of_components_eq {p q : Path} (hp : p.IsNormal) (hq : q.IsNormal)
    (h : p.components = q.components) : p = q := by
  obtain ⟨place, hplace, rfl⟩ := hp
  obtain ⟨place', hplace', rfl⟩ := hq
  rw [hplace.components_eq, hplace'.components_eq] at h
  rw [h]

lemma eq_of_not_lex {as bs : List Component} (hab : List.lex as bs Component.lt = false)
    (hba : List.lex bs as Component.lt = false) : as = bs := by
  induction as generalizing bs with
  | nil => cases bs <;> simp_all
  | cons a as ih =>
    cases bs with
    | nil => simp at hba
    | cons b bs =>
      simp only [List.cons_lex_cons, Bool.or_eq_false_iff, Bool.and_eq_false_iff] at hab hba
      obtain rfl := Component.eq_of_not_lt hab.1 hba.1
      rw [ih (by simpa using hab.2) (by simpa using hba.2)]

/-- The order of paths tells normal paths apart. -/
theorem IsNormal.eq_of_not_lt {p q : Path} (hp : p.IsNormal) (hq : q.IsNormal) (hpq : lt p q = false)
    (hqp : lt q p = false) : p = q :=
  hp.eq_of_components_eq hq (eq_of_not_lex hpq hqp)

end Path

end Stylebook
