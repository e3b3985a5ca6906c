import Mathlib.Data.List.Forall2
import Stylebook.Rule
import Stylebook.Selector.Parser

/-! When the rules of a stylesheet can be made ready, and what they hold then. -/
namespace Stylebook

lemma bind_eq_ok_iff {ε α β : Type} {x : Except ε α} {f : α → Except ε β} {b : β} :
    x >>= f = .ok b ↔ ∃ a, x = .ok a ∧ f a = .ok b := by
  refine ⟨of_bind_eq_ok, ?_⟩
  rintro ⟨a, rfl, hf⟩
  exact hf

namespace Term

lemma ofSelectors_eq_ok_iff {ss : List Selector} {ts : List Term} :
    ofSelectors ss = .ok ts ↔ List.Forall₂ (fun s t => ofSelector s = .ok t) ss ts := by
  unfold ofSelectors
  induction ss generalizing ts with
  | nil =>
    rw [List.mapM_nil, List.forall₂_nil_left_iff]
    exact ⟨fun h => (Except.ok.inj h).symm, fun h => h ▸ rfl⟩
  | cons s ss ih =>
    simp only [List.mapM_cons, bind_eq_ok_iff, List.forall₂_cons_left_iff, ih]
    constructor
    · rintro ⟨t, hst, us, hus, h⟩
      exact ⟨t, us, hst, hus, (Except.ok.inj h).symm⟩
    · rintro ⟨t, us, hst, hus, rfl⟩
      exact ⟨t, hst, us, hus, rfl⟩

/-- The canonical forms of a list of selectors are those of its members. -/
lemma mem_ofSelectors {ss : List Selector} {ts : List Term} (h : ofSelectors ss = .ok ts) {t : Term} :
    t ∈ ts ↔ ∃ s ∈ ss, ofSelector s = .ok t := by
  have hall := ofSelectors_eq_ok_iff.mp h
  clear h
  induction hall with
  | nil => simp
  | cons hst _ ih => simp [ih, hst, eq_comm]

lemma exists_ofSelectors_iff {ss : List Selector} :
    (∃ ts, ofSelectors ss = .ok ts) ↔ ∀ s ∈ ss, ∃ t, ofSelector s = .ok t := by
  simp only [ofSelectors_eq_ok_iff]
  induction ss with
  | nil => simp
  | cons s ss ih =>
    rw [List.forall_mem_cons, ← ih]
    constructor
    · rintro ⟨-, hst | ⟨hst, hrest⟩⟩
      exact ⟨⟨_, hst⟩, _, hrest⟩
    · rintro ⟨⟨t, hst⟩, ts, hrest⟩
      exact ⟨t :: ts, .cons hst hrest⟩

end Term

namespace Rule

variable {registry : Registry}

lemma ofStyleRule_eq_ok_iff {r : StyleRule} {rule : Rule} :
    ofStyleRule registry r = .ok rule ↔ ∃ ts, Term.ofSelectors r.selectors = .ok ts ∧
      rule = ⟨ts, registry.typedAll r.settings, registry.warnings r.settings⟩ := by
  unfold ofStyleRule
  cases Term.ofSelectors r.selectors <;> simp [Except.map, eq_comm]

lemma attributes_eq {r : StyleRule} {rule : Rule} (h : ofStyleRule registry r = .ok rule) :
    rule.attributes = r.settings.map registry.typed := by
  obtain ⟨ts, -, rfl⟩ := ofStyleRule_eq_ok_iff.mp h
  rfl

lemma ofStyleRules_eq_iff {rs : List StyleRule} {rules : List Rule} :
    ofStyleRules registry rs = (rules, none) ↔
      List.Forall₂ (fun r rule => ofStyleRule registry r = .ok rule) rs rules := by
  induction rs generalizing rules with
  | nil => cases rules <;> simp [ofStyleRules]
  | cons r rs ih =>
    cases hr : ofStyleRule registry r with
    | error e => cases rules <;> simp [ofStyleRules, hr]
    | ok rule => cases rules <;> simp [ofStyleRules, hr, ← ih, Prod.ext_iff, and_assoc]

lemma ofStyleRules_snd_eq_none_iff {rs : List StyleRule} :
    (ofStyleRules registry rs).2 = none ↔
      ∀ r ∈ rs, ∀ s ∈ r.selectors, ∃ t, Term.ofSelector s = .ok t := by
  induction rs with
  | nil => simp [ofStyleRules]
  | cons r rs ih =>
    rw [List.forall_mem_cons, ← ih, ← Term.exists_ofSelectors_iff, ofStyleRules, ofStyleRule]
    cases Term.ofSelectors r.selectors <;> simp [Except.map]

/-- A rule stands for each of its settings once for each selector. -/
lemma declarationCount_of_ofStyleRule {r : StyleRule} {rule : Rule}
    (h : ofStyleRule registry r = .ok rule) :
    rule.declarationCount = r.selectors.length * r.settings.length := by
  obtain ⟨ts, hts, rfl⟩ := ofStyleRule_eq_ok_iff.mp h
  have hlength := (Term.ofSelectors_eq_ok_iff.mp hts).length_eq
  simp [declarationCount, hlength, Registry.typedAll]

end Rule

end Stylebook
