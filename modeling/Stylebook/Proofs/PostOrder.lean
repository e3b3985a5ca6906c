import Mathlib.Data.List.Basic
import Mathlib.Logic.Relation

/-! Walks that finish with a thing only after all that it leads to, and with each thing once: they end in
one way only, and a walk from one thing finishes with just what can be reached from it. -/
namespace Stylebook

variable {α : Type}

/-- A walk that is done with some things and then goes through others, and what it is done with in the
end, in this order. Things that are done with are skipped. -/
inductive PostOrder (next : α → List α) : List α → List α → List α → Prop
  | nil (done : List α) : PostOrder next done [] done
  | skip {done ps out : List α} {p : α} (hp : p ∈ done) (rest : PostOrder next done ps out) :
      PostOrder next done (p :: ps) out
  | visit {done below ps out : List α} {p : α} (hp : p ∉ done)
      (inner : PostOrder next done (next p) below) (rest : PostOrder next (below ++ [p]) ps out) :
      PostOrder next done (p :: ps) out

namespace PostOrder

variable {next : α → List α} {done ps out : List α}

theorem unique (h : PostOrder next done ps out) {out' : List α} (h' : PostOrder next done ps out') :
    out' = out := by
  induction h generalizing out' with
  | nil done =>
    cases h'
    rfl
  | skip hp _ ih =>
    cases h' with
    | skip _ rest => exact ih rest
    | visit hp' _ _ => exact absurd hp hp'
  | visit hp _ _ ihInner ihRest =>
    cases h' with
    | skip hp' _ => exact absurd hp' hp
    | visit _ inner rest =>
      obtain rfl := ihInner inner
      exact ihRest rest

/-- A walk goes on from what is done. -/
lemma done_isPrefix (h : PostOrder next done ps out) : done <+: out := by
  induction h with
  | nil done => exact List.prefix_refl done
  | skip _ _ ih => exact ih
  | visit _ _ _ ihInner ihRest => exact (ihInner.trans (List.prefix_append ..)).trans ihRest

lemma done_subset (h : PostOrder next done ps out) : done ⊆ out := h.done_isPrefix.subset

/-- A walk leaves out nothing that it goes through. -/
lemma subset (h : PostOrder next done ps out) : ps ⊆ out := by
  induction h with
  | nil done => exact List.nil_subset done
  | skip hp rest ih => exact List.cons_subset.mpr ⟨rest.done_subset hp, ih⟩
  | visit _ _ rest _ ihRest => exact List.cons_subset.mpr ⟨rest.done_subset (by simp), ihRest⟩

/-- What is done has all that it leads to done. -/
lemma next_subset (h : PostOrder next done ps out) (hdone : ∀ p ∈ done, next p ⊆ done) :
    ∀ p ∈ out, next p ⊆ out := by
  induction h with
  | nil done => exact hdone
  | skip _ _ ih => exact ih hdone
  | visit _ inner _ ihInner ihRest =>
    refine ihRest (fun q hq r hr => List.mem_append_left _ ?_)
    rcases List.mem_append.mp hq with hq | hq
    · exact ihInner hdone q hq hr
    · rw [List.mem_singleton.mp hq] at hr
      exact inner.subset hr

/-- A walk finishes with nothing that cannot be reached. -/
lemma reached (h : PostOrder next done ps out) {q : α} (hq : q ∈ out) :
    q ∈ done ∨ ∃ p ∈ ps, Relation.ReflTransGen (fun p q => q ∈ next p) p q := by
  induction h with
  | nil done => exact .inl hq
  | skip _ _ ih =>
    rcases ih hq with hq | ⟨p, hp, hpq⟩
    · exact .inl hq
    · exact .inr ⟨p, List.mem_cons_of_mem _ hp, hpq⟩
  | @visit done below ps out p _ _ _ ihInner ihRest =>
    rcases ihRest hq with hq | ⟨r, hr, hrq⟩
    · rcases List.mem_append.mp hq with hq | hq
      · rcases ihInner hq with hq | ⟨r, hr, hrq⟩
        · exact .inl hq
        · exact .inr ⟨p, List.mem_cons_self .., .head hr hrq⟩
      · rw [List.mem_singleton.mp hq]
        exact .inr ⟨p, List.mem_cons_self .., .refl⟩
    · exact .inr ⟨r, List.mem_cons_of_mem _ hr, hrq⟩

/-- A walk that ends meets nothing that leads back to itself. -/
lemma not_transGen_self (h : PostOrder next done ps out)
    (hdone : ∀ p ∈ done, ¬ Relation.TransGen (fun p q => q ∈ next p) p p) :
    ∀ p ∈ out, ¬ Relation.TransGen (fun p q => q ∈ next p) p p := by
  induction h with
  | nil done => exact hdone
  | skip _ _ ih => exact ih hdone
  | visit _ inner _ ihInner ihRest =>
    refine ihRest (fun q hq hcycle => ?_)
    rcases List.mem_append.mp hq with hq | hq
    · exact ihInner hdone q hq hcycle
    · rw [List.mem_singleton.mp hq] at hcycle
      -- The cycle can be entered at its next thing, with which the walk was done before.
      obtain ⟨r, hr, hback⟩ := Relation.TransGen.head'_iff.mp hcycle
      exact ihInner hdone r (inner.subset hr) (.tail' hback hr)

/-- A walk from one thing finishes with just what can be reached from it. -/
theorem mem_iff_reachable {p q : α} (h : PostOrder next [] [p] out) :
    q ∈ out ↔ Relation.ReflTransGen (fun p q => q ∈ next p) p q := by
  constructor
  · intro hq
    rcases h.reached hq with hq | ⟨r, hr, hrq⟩
    · cases hq
    · rwa [List.mem_singleton.mp hr] at hrq
  · intro hpq
    induction hpq with
    | refl => exact h.subset (List.mem_cons_self ..)
    | tail _ hstep ih => exact h.next_subset (by simp) _ ih hstep

end PostOrder

end Stylebook
