import Stylebook.Declaration
import Stylebook.Term.Canonical

/-! Rules of a stylesheet ready to be applied: canonical selectors and typed values. -/
namespace Stylebook

structure Rule where
  terms : List Term
  attributes : List Attribute
  /-- What the values gave cause to warn of. -/
  warnings : List Event
  deriving DecidableEq

namespace Rule

/-- A rule is ready only if all its selectors are. -/
def ofStyleRule (registry : Registry) (r : StyleRule) : Except TermError Rule :=
  (Term.ofSelectors r.selectors).map fun terms =>
    ⟨terms, registry.typedAll r.settings, registry.warnings r.settings⟩

/-- The rules before the first one that cannot be made ready, and what is wrong with that one. -/
def ofStyleRules (registry : Registry) : List StyleRule → List Rule × Option TermError
  | [] => ([], none)
  | r :: rs =>
    match ofStyleRule registry r with
    | .error e => ([], some e)
    | .ok rule =>
      let (rules, failure) := ofStyleRules registry rs
      (rule :: rules, failure)

/-- The number of declarations that the rule stands for: each of its values once for each selector. -/
def declarationCount (r : Rule) : Nat := r.terms.length * r.attributes.length

end Rule

namespace StyleRule

variable {σ : Type}

/-- Adds a rule, given how one that is ready is added. All its selectors are brought into canonical form
before anything changes. -/
def addTo (add : σ → Rule → σ) (registry : Registry) (s : σ) (r : StyleRule) :
    σ × Except TermError (List Term) :=
  match Rule.ofStyleRule registry r with
  | .error e => (s, .error e)
  | .ok rule => (add s rule, .ok rule.terms)

/-- Adds rules one after the other, up to the first that fails. The answer is the selectors of all. -/
def addAllTo (add : σ → Rule → σ) (registry : Registry) : σ → List StyleRule → σ × Except TermError (List Term)
  | s, [] => (s, .ok [])
  | s, r :: rs =>
    match r.addTo add registry s with
    | (s, .error e) => (s, .error e)
    | (s, .ok terms) =>
      let (s, answer) := addAllTo add registry s rs
      (s, answer.map (terms ++ ·))

/-- Adding rules one by one is adding those that can be made ready before one fails. -/
theorem addAllTo_eq (add : σ → Rule → σ) (registry : Registry) (s : σ) (rs : List StyleRule) :
    addAllTo add registry s rs = ((Rule.ofStyleRules registry rs).1.foldl add s,
      (Rule.ofStyleRules registry rs).2.elim (.ok ((Rule.ofStyleRules registry rs).1.flatMap Rule.terms))
        .error) := by
  induction rs generalizing s with
  | nil => rfl
  | cons r rs ih =>
    rw [addAllTo, addTo, Rule.ofStyleRules]
    cases Rule.ofStyleRule registry r with
    | error e => rfl
    | ok rule =>
      simp only [ih, List.foldl_cons, List.flatMap_cons]
      cases (Rule.ofStyleRules registry rs).2 <;> rfl

end StyleRule

end Stylebook
