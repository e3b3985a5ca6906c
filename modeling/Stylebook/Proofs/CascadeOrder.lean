import Stylebook.Proofs.Agreement
import Stylebook.Proofs.Readiness

/-! Which declaration wins, said without stamps: of all rules that hold of an element the one whose
strongest selector weighs most, among those the last, and in it the last setting of the name. Stamping
each selector of a rule anew does not show in the result. -/
namespace Stylebook

namespace Rule

/-- The priorities of the selectors of a rule that hold of an element. -/
def priorities (doc : ElementTree) (n : NodeId) (r : Rule) : Set ℕ :=
  {p | ∃ t ∈ r.terms, t.holds doc n = true ∧ t.specificity.priority = p}

/-- The number of declarations stamped for the rules before a position. -/
def stampsBefore (rs : List Rule) (i : Nat) : Nat :=
  Insertion.count ((rs.take i).flatMap insertions)

lemma stampsBefore_add_le {rs : List Rule} {r : Rule} {i k : Nat} (hr : rs[i]? = some r) (hik : i < k) :
    stampsBefore rs i + r.declarationCount ≤ stampsBefore rs k := by
  have htake : rs.take k = rs.take (i + 1) ++ (rs.drop (i + 1)).take (k - (i + 1)) := by
    rw [← List.take_add, Nat.add_sub_cancel' hik]
  have hsucc : rs.take (i + 1) = rs.take i ++ [r] := by
    rw [List.take_add_one, hr]
    rfl
  unfold stampsBefore
  rw [htake, hsucc]
  simp only [List.flatMap_append, List.flatMap_singleton, Insertion.count_append, count_insertions]
  omega

end Rule

namespace CascadeSelector
variable {doc : ElementTree} {n : NodeId}

lemma exists_mem_stampAll (as : List Attribute) (first : Nat) {ts : List Term} {t : Term} (h : t ∈ ts) :
    ∃ ds, ⟨t, t.specificity.priority, ds⟩ ∈ stampAll as first ts := by
  obtain ⟨l, hl⟩ := List.getElem?_of_mem h
  refine ⟨Declaration.stamp t.specificity.priority (first + l * as.length : Nat) as,
    List.mem_of_getElem? (i := l) ?_⟩
  rw [getElem?_stampAll, hl]
  rfl

/-- The selector that counts for a rule has the greatest priority of those that hold, and the rule's
attributes as its declarations. -/
lemma of_best?_stampAll {r : Rule} {first : Nat} {b : CascadeSelector}
    (h : best? doc n (stampAll r.attributes first r.terms) = some b) :
    IsGreatest (r.priorities doc n) b.priority ∧
      ∃ k < r.terms.length, b.declarations =
        Declaration.stamp b.priority (first + k * r.attributes.length : Nat) r.attributes := by
  obtain ⟨k, hk⟩ := isBest_of_best? h
  have hget := hk.getElem
  rw [getElem?_stampAll, Option.map_eq_some_iff] at hget
  obtain ⟨t, ht, rfl⟩ := hget
  have hlt : k < r.terms.length := (List.getElem?_eq_some_iff.mp ht).1
  refine ⟨⟨⟨t, List.mem_of_getElem? ht, hk.holds, rfl⟩, ?_⟩, k, hlt, rfl⟩
  rintro p ⟨u, hu, hholds, rfl⟩
  obtain ⟨ds, hds⟩ := exists_mem_stampAll r.attributes first hu
  exact hk.priority_le hds hholds

/-- Where a selector of a rule holds, there is one that counts. -/
lemma exists_best? {r : Rule} (h : (r.priorities doc n).Nonempty) (first : Nat) :
    ∃ b, best? doc n (stampAll r.attributes first r.terms) = some b := by
  cases hb : best? doc n (stampAll r.attributes first r.terms) with
  | some b => exact ⟨b, rfl⟩
  | none =>
    obtain ⟨-, t, ht, hholds, -⟩ := h
    obtain ⟨ds, hds⟩ := exists_mem_stampAll r.attributes first ht
    exact absurd (best?_eq_none_iff.mp hb _ hds) (by simp [hholds])

end CascadeSelector

namespace Cascade
variable {doc : ElementTree} {n : NodeId}

/-- The declaration that counts for an element at position `j` of the rule at position `i`. -/
def Stands (rs : List Rule) (doc : ElementTree) (n : NodeId) (i j : Nat) (d : Declaration) : Prop :=
  ∃ r b, rs[i]? = some r ∧
    CascadeSelector.best? doc n
      (CascadeSelector.stampAll r.attributes (Rule.stampsBefore rs i) r.terms) = some b ∧
    b.declarations[j]? = some d

lemma mem_counting_iff_stands {rs : List Rule} {d : Declaration} :
    d ∈ (empty.addRules rs).counting doc n ↔ ∃ i j, Stands rs doc n i j d := by
  rw [mem_counting]
  constructor
  · rintro ⟨ss, hss, b, hb, hd⟩
    obtain ⟨i, hi⟩ := List.getElem?_of_mem hss
    obtain ⟨j, hj⟩ := List.getElem?_of_mem hd
    rw [getElem?_rules, Option.map_eq_some_iff] at hi
    obtain ⟨r, hr, rfl⟩ := hi
    exact ⟨i, j, r, b, hr, hb, hj⟩
  · rintro ⟨i, j, r, b, hr, hb, hj⟩
    refine ⟨_, List.mem_of_getElem? (i := i) ?_, b, hb, List.mem_of_getElem? hj⟩
    rw [getElem?_rules, hr]
    rfl

/-- What a declaration that counts takes from its rule, and where its stamp lies. -/
lemma Stands.spec {rs : List Rule} {i j : Nat} {d : Declaration} (h : Stands rs doc n i j d) :
    ∃ r p a, rs[i]? = some r ∧ IsGreatest (r.priorities doc n) p ∧ r.attributes[j]? = some a ∧
      d.name = a.name ∧ d.value = a.value ∧ d.priority = (p : ℤ) ∧
      (Rule.stampsBefore rs i : ℤ) ≤ d.order ∧
      d.order < (Rule.stampsBefore rs i : ℤ) + r.declarationCount := by
  obtain ⟨r, b, hr, hb, hj⟩ := h
  obtain ⟨hp, k, hk, hdecl⟩ := CascadeSelector.of_best?_stampAll hb
  rw [hdecl, Declaration.getElem?_stamp, Option.map_eq_some_iff] at hj
  obtain ⟨a, ha, rfl⟩ := hj
  have hlt : j < r.attributes.length := (List.getElem?_eq_some_iff.mp ha).1
  have hblock : k * r.attributes.length + j < r.declarationCount := by
    have := Nat.mul_le_mul_right r.attributes.length (Nat.succ_le_of_lt hk)
    rw [Nat.succ_mul] at this
    unfold Rule.declarationCount
    omega
  refine ⟨r, b.priority, a, hr, hp, ha, rfl, rfl, rfl, ?_, ?_⟩ <;> simp only <;> omega

lemma exists_stands {rs : List Rule} {i j p : Nat} {r : Rule} {a : Attribute} (hr : rs[i]? = some r)
    (hp : IsGreatest (r.priorities doc n) p) (ha : r.attributes[j]? = some a) :
    ∃ d, Stands rs doc n i j d ∧ d.name = a.name ∧ d.priority = (p : ℤ) := by
  obtain ⟨b, hb⟩ := CascadeSelector.exists_best? ⟨p, hp.1⟩ (Rule.stampsBefore rs i)
  obtain ⟨hbest, k, -, hdecl⟩ := CascadeSelector.of_best?_stampAll hb
  obtain rfl : b.priority = p := hbest.unique hp
  have hj : b.declarations[j]? = some ⟨a.name, a.value, b.priority,
      (Rule.stampsBefore rs i + k * r.attributes.length : Nat) + j⟩ := by
    rw [hdecl, Declaration.getElem?_stamp, ha]
    rfl
  exact ⟨_, ⟨r, b, hr, hb, hj⟩, rfl, rfl⟩

/-- Among the declarations that count, stamps follow the positions of rules and settings. -/
lemma Stands.rank_lt {rs : List Rule} {i j k l : Nat} {d e : Declaration}
    (hd : Stands rs doc n i j d) (he : Stands rs doc n k l e)
    (h : d.priority < e.priority ∨ d.priority = e.priority ∧ (i < k ∨ i = k ∧ j < l)) :
    d.rank < e.rank := by
  rw [Declaration.rank_lt_iff]
  rcases h with hlt | ⟨heq, hik | ⟨rfl, hjl⟩⟩
  · exact .inl hlt
  · obtain ⟨r, -, -, hr, -, -, -, -, -, -, hhi⟩ := hd.spec
    obtain ⟨-, -, -, -, -, -, -, -, -, hlo, -⟩ := he.spec
    have := Rule.stampsBefore_add_le hr hik
    exact .inr ⟨heq, by omega⟩
  · obtain ⟨r, b, hr, hb, hj⟩ := hd
    obtain ⟨r', b', hr', hb', hl⟩ := he
    obtain rfl : r = r' := Option.some.inj (hr.symm.trans hr')
    obtain rfl : b = b' := Option.some.inj (hb.symm.trans hb')
    obtain ⟨-, m, -, hdecl⟩ := CascadeSelector.of_best?_stampAll hb
    rw [hdecl, Declaration.getElem?_stamp, Option.map_eq_some_iff] at hj hl
    obtain ⟨a, -, rfl⟩ := hj
    obtain ⟨c, -, rfl⟩ := hl
    exact .inr ⟨rfl, by simp only; omega⟩

end Cascade

namespace StyleRule

/-- The priorities of the selectors of a rule, in canonical form, that hold of an element. -/
def priorities (doc : ElementTree) (n : NodeId) (r : StyleRule) : Set ℕ :=
  {p | ∃ s ∈ r.selectors, ∃ t, Term.ofSelector s = .ok t ∧ t.holds doc n = true ∧
    t.specificity.priority = p}

/-- The settings of a named attribute in the rules that hold of an element: the greatest priority among
the rule's selectors that hold, the position of the rule, and that of the setting in it. -/
def contenders (rs : List StyleRule) (doc : ElementTree) (n : NodeId) (name : String) :
    Set (ℕ ×ₗ ℕ ×ₗ ℕ) :=
  {c | ∃ p i j r s, c = toLex (p, toLex (i, j)) ∧ rs[i]? = some r ∧
    IsGreatest (r.priorities doc n) p ∧ r.settings[j]? = some s ∧ Text.camelCase s.property = name}

/-- Styles as the rules settle them: a name is set if a rule that holds of the element sets it, and the
greatest contender gives value and priority. -/
structure Settles (registry : Registry) (rs : List StyleRule) (doc : ElementTree) (n : NodeId)
    (styles : Styles) : Prop where
  get?_eq_none : ∀ name, styles.get? name = none ↔
    ∀ r ∈ rs, (r.priorities doc n).Nonempty → ∀ s ∈ r.settings, Text.camelCase s.property ≠ name
  of_get? : ∀ name d, styles.get? name = some d → ∃ p i j r s,
    IsGreatest (contenders rs doc n name) (toLex (p, toLex (i, j))) ∧ rs[i]? = some r ∧
      r.settings[j]? = some s ∧ d.value = registry.valueOf name s.value ∧ d.priority = (p : ℤ)

/-- The same settings under the same selectors, whatever their order and however often each is given. -/
def SameButSelectors (r r' : StyleRule) : Prop :=
  r.settings = r'.settings ∧ ∀ s, s ∈ r.selectors ↔ s ∈ r'.selectors

end StyleRule

namespace Rule
variable {registry : Registry}

lemma priorities_eq {r : StyleRule} {rule : Rule} (h : ofStyleRule registry r = .ok rule)
    (doc : ElementTree) (n : NodeId) : rule.priorities doc n = r.priorities doc n := by
  obtain ⟨ts, hts, rfl⟩ := ofStyleRule_eq_ok_iff.mp h
  ext p
  constructor
  · rintro ⟨t, ht, hp⟩
    obtain ⟨s, hs, hst⟩ := (Term.mem_ofSelectors hts).mp ht
    exact ⟨s, hs, t, hst, hp⟩
  · rintro ⟨s, hs, t, hst, hp⟩
    exact ⟨t, (Term.mem_ofSelectors hts).mpr ⟨s, hs, hst⟩, hp⟩

lemma exists_isGreatest {rule : Rule} {doc : ElementTree} {n : NodeId}
    (h : (rule.priorities doc n).Nonempty) : ∃ p, IsGreatest (rule.priorities doc n) p := by
  obtain ⟨b, hb⟩ := CascadeSelector.exists_best? h 0
  exact ⟨b.priority, (CascadeSelector.of_best?_stampAll hb).1⟩

end Rule

lemma exists_getElem?_of_forall₂ {α β : Type} {R : α → β → Prop} {as : List α} {bs : List β}
    (h : List.Forall₂ R as bs) {i : Nat} {a : α} (ha : as[i]? = some a) :
    ∃ b, bs[i]? = some b ∧ R a b := by
  induction h generalizing i with
  | nil => simp at ha
  | @cons c b _ _ hcb _ ih =>
    cases i with
    | zero =>
      cases ha
      exact ⟨b, rfl, hcb⟩
    | succ i => exact ih ha

/-- The cascade gives each name the value of its greatest contender. -/
theorem Cascade.settles_matched {registry : Registry} {rs : List StyleRule} {rules : List Rule}
    (hrs : List.Forall₂ (fun r rule => Rule.ofStyleRule registry r = .ok rule) rs rules)
    (doc : ElementTree) (n : NodeId) :
    StyleRule.Settles registry rs doc n ((empty.addRules rules).matched doc n) where
  get?_eq_none name := by
    rw [matched, Styles.get?_strongest_eq_none_iff]
    constructor
    · intro h r hr hne s hs hname
      obtain ⟨i, hi⟩ := List.getElem?_of_mem hr
      obtain ⟨j, hj⟩ := List.getElem?_of_mem hs
      obtain ⟨rule, hrule, hok⟩ := exists_getElem?_of_forall₂ hrs hi
      rw [← Rule.priorities_eq hok] at hne
      obtain ⟨p, hp⟩ := Rule.exists_isGreatest hne
      have ha : rule.attributes[j]? = some (registry.typed s) := by
        rw [Rule.attributes_eq hok, List.getElem?_map, hj]
        rfl
      obtain ⟨d, hd, hdn, -⟩ := exists_stands hrule hp ha
      exact h d (mem_counting_iff_stands.mpr ⟨i, j, hd⟩) (hdn.trans hname)
    · intro h d hd hname
      obtain ⟨i, j, hs⟩ := mem_counting_iff_stands.mp hd
      obtain ⟨rule, p, a, hrule, hp, ha, hdn, -⟩ := hs.spec
      obtain ⟨r, hr, hok⟩ := exists_getElem?_of_forall₂ hrs.flip hrule
      rw [Rule.priorities_eq hok] at hp
      rw [Rule.attributes_eq hok, List.getElem?_map, Option.map_eq_some_iff] at ha
      obtain ⟨s, hs, rfl⟩ := ha
      exact h r (List.mem_of_getElem? hr) ⟨p, hp.1⟩ s (List.mem_of_getElem? hs) (hdn.symm.trans hname)
  of_get? name d hget := by
    have hd := Styles.isStrongest_of_get? hget
    obtain ⟨i, j, hs⟩ := mem_counting_iff_stands.mp hd.mem
    obtain ⟨rule, p, a, hrule, hp, ha, hdn, hdv, hdp, -⟩ := hs.spec
    obtain ⟨r, hr, hok⟩ := exists_getElem?_of_forall₂ hrs.flip hrule
    rw [Rule.priorities_eq hok] at hp
    rw [Rule.attributes_eq hok, List.getElem?_map, Option.map_eq_some_iff] at ha
    obtain ⟨s, hsj, rfl⟩ := ha
    have hname : Text.camelCase s.property = name := hdn.symm.trans hd.name_eq
    refine ⟨p, i, j, r, s, ⟨⟨p, i, j, r, s, rfl, hr, hp, hsj, hname⟩, ?_⟩, hr, hsj, ?_, hdp⟩
    · rintro c ⟨q, k, l, r', s', rfl, hr', hq, hsl, hname'⟩
      obtain ⟨rule', hrule', hok'⟩ := exists_getElem?_of_forall₂ hrs hr'
      rw [← Rule.priorities_eq hok'] at hq
      have ha' : rule'.attributes[l]? = some (registry.typed s') := by
        rw [Rule.attributes_eq hok', List.getElem?_map, hsl]
        rfl
      obtain ⟨e, he, hen, hep⟩ := exists_stands hrule' hq ha'
      have hle := hd.rank_le (mem_counting_iff_stands.mpr ⟨k, l, he⟩) (hen.trans hname')
      -- A greater triple would give a declaration of greater rank.
      by_contra hlt
      rw [not_le, Prod.Lex.toLex_lt_toLex, Prod.Lex.toLex_lt_toLex] at hlt
      refine absurd (hs.rank_lt he ?_) (not_lt.mpr hle)
      rw [hdp, hep]
      exact_mod_cast hlt
    · rw [hdv, ← hname]
      rfl

namespace StyleRule
variable {registry : Registry} {doc : ElementTree} {n : NodeId}

lemma SameButSelectors.symm {r r' : StyleRule} (h : r.SameButSelectors r') : r'.SameButSelectors r :=
  ⟨h.1.symm, fun s => (h.2 s).symm⟩

lemma SameButSelectors.priorities_eq {r r' : StyleRule} (h : r.SameButSelectors r') :
    r.priorities doc n = r'.priorities doc n := by
  ext p
  exact exists_congr (fun s => and_congr_left' (h.2 s))

lemma forall₂_symm {rs rs' : List StyleRule} (h : List.Forall₂ SameButSelectors rs rs') :
    List.Forall₂ SameButSelectors rs' rs :=
  h.flip.imp (fun _ _ hr => SameButSelectors.symm hr)

lemma contenders_subset {rs rs' : List StyleRule} (h : List.Forall₂ SameButSelectors rs rs')
    (name : String) : contenders rs doc n name ⊆ contenders rs' doc n name := by
  rintro c ⟨p, i, j, r, s, rfl, hr, hp, hs, hname⟩
  obtain ⟨r', hr', hsame⟩ := exists_getElem?_of_forall₂ h hr
  rw [hsame.priorities_eq] at hp
  rw [hsame.1] at hs
  exact ⟨p, i, j, r', s, rfl, hr', hp, hs, hname⟩

lemma contenders_eq {rs rs' : List StyleRule} (h : List.Forall₂ SameButSelectors rs rs')
    (name : String) : contenders rs doc n name = contenders rs' doc n name :=
  (contenders_subset h name).antisymm (contenders_subset (forall₂_symm h) name)

/-- What no rule sets stays unset when selectors change places. -/
lemma Settles.get?_eq_none_of_same {rs rs' : List StyleRule} {styles styles' : Styles}
    (hs : Settles registry rs doc n styles) (hs' : Settles registry rs' doc n styles')
    (h : List.Forall₂ SameButSelectors rs rs') {name : String} (hnone : styles.get? name = none) :
    styles'.get? name = none := by
  rw [hs.get?_eq_none] at hnone
  rw [hs'.get?_eq_none]
  intro r' hr' hne s hsm
  obtain ⟨i, hi⟩ := List.getElem?_of_mem hr'
  obtain ⟨r, hr, hsame⟩ := exists_getElem?_of_forall₂ (forall₂_symm h) hi
  rw [hsame.priorities_eq] at hne
  rw [hsame.1] at hsm
  exact hnone r (List.mem_of_getElem? hr) hne s hsm

/-- Values and priorities do not depend on the order of the selectors of a rule, nor on how often each
is given. -/
lemma Settles.values_eq {rs rs' : List StyleRule} {styles styles' : Styles}
    (hs : Settles registry rs doc n styles) (hs' : Settles registry rs' doc n styles')
    (h : List.Forall₂ SameButSelectors rs rs') (name : String) :
    (styles.get? name).map (fun d => (d.value, d.priority)) =
      (styles'.get? name).map (fun d => (d.value, d.priority)) := by
  cases hd : styles.get? name with
  | none => rw [hs.get?_eq_none_of_same hs' h hd]
  | some d =>
    cases hd' : styles'.get? name with
    | none =>
      rw [hs'.get?_eq_none_of_same hs (forall₂_symm h) hd'] at hd
      cases hd
    | some d' =>
      obtain ⟨p, i, j, r, s, hc, hr, hsj, hv, hp⟩ := hs.of_get? name d hd
      obtain ⟨p', i', j', r', s', hc', hr', hsj', hv', hp'⟩ := hs'.of_get? name d' hd'
      rw [← contenders_eq h] at hc'
      have heq := hc.unique hc'
      simp only [EmbeddingLike.apply_eq_iff_eq, Prod.mk.injEq] at heq
      obtain ⟨rfl, rfl, rfl⟩ := heq
      obtain ⟨r'', hr'', hsame⟩ := exists_getElem?_of_forall₂ h hr
      obtain rfl : r' = r'' := Option.some.inj (hr'.symm.trans hr'')
      rw [hsame.1] at hsj
      obtain rfl : s = s' := Option.some.inj (hsj.symm.trans hsj')
      simp [hv, hv', hp, hp']

end StyleRule

/-- Rules stay ready when their selectors change places. -/
lemma Rule.exists_ofStyleRules_of_same {registry : Registry} {rs rs' : List StyleRule}
    {rules : List Rule}
    (hrs : List.Forall₂ (fun r rule => ofStyleRule registry r = .ok rule) rs rules)
    (h : List.Forall₂ StyleRule.SameButSelectors rs rs') :
    ∃ rules', List.Forall₂ (fun r rule => ofStyleRule registry r = .ok rule) rs' rules' := by
  induction h generalizing rules with
  | nil => exact ⟨[], .nil⟩
  | @cons r r' rs rs' hsame _ ih =>
    cases hrs with
    | cons hok hrest =>
      obtain ⟨ts, hts, -⟩ := ofStyleRule_eq_ok_iff.mp hok
      obtain ⟨ts', hts'⟩ := Term.exists_ofSelectors_iff.mpr (fun s hs =>
        Term.exists_ofSelectors_iff.mp ⟨ts, hts⟩ s ((hsame.2 s).mpr hs))
      obtain ⟨rules', hrules'⟩ := ih hrest
      exact ⟨_, .cons (ofStyleRule_eq_ok_iff.mpr ⟨ts', hts', rfl⟩) hrules'⟩

/-- Reference semantics of the cascade. When all rules can be made ready, index and cascade give each
name the value of its greatest contender, by priority of the rule, position of the rule, and position of
the setting. Selectors of a rule that change places or are repeated change neither value nor priority. -/
theorem matched_settles (registry : Registry) {rs : List StyleRule} {rules : List Rule}
    (hrs : Rule.ofStyleRules registry rs = (rules, none)) {doc : ElementTree} (hd : doc.Built)
    {n : NodeId} (hn : doc.contains n = true) :
    StyleRule.Settles registry rs doc n ((Index.empty.addRules rules).matched doc n) ∧
    StyleRule.Settles registry rs doc n ((Cascade.empty.addRules rules).matched doc n) ∧
    ∀ rs', List.Forall₂ StyleRule.SameButSelectors rs rs' →
      ∃ rules', Rule.ofStyleRules registry rs' = (rules', none) ∧ ∀ name,
        (((Index.empty.addRules rules).matched doc n).get? name).map (fun d => (d.value, d.priority)) =
          (((Index.empty.addRules rules').matched doc n).get? name).map (fun d => (d.value, d.priority)) ∧
        (((Cascade.empty.addRules rules).matched doc n).get? name).map (fun d => (d.value, d.priority)) =
          (((Cascade.empty.addRules rules').matched doc n).get? name).map
            (fun d => (d.value, d.priority)) := by
  have hrules := Rule.ofStyleRules_eq_iff.mp hrs
  have hs := Cascade.settles_matched hrules doc n
  refine ⟨by rwa [matched_addRules hd hn], hs, fun rs' hsame => ?_⟩
  obtain ⟨rules', hrules'⟩ := Rule.exists_ofStyleRules_of_same hrules hsame
  have hvalues := hs.values_eq (Cascade.settles_matched hrules' doc n) hsame
  refine ⟨rules', Rule.ofStyleRules_eq_iff.mpr hrules', fun name => ⟨?_, hvalues name⟩⟩
  rw [matched_addRules hd hn, matched_addRules hd hn]
  exact hvalues name

/-- Two settings under two selectors and a later rule: the last setting of the first rule wins by the
rule's stronger selector, also when the selectors are given in another order and one of them twice. -/
theorem matched_settles_label :
    let place : Location := ⟨1, 1, 0⟩
    let label : Selector := ⟨[.typeName "Label"], ⟨0, 0, 1⟩, "Label"⟩
    let nested : Selector := ⟨[.typeName "View", .combinator .child, .typeName "Label"], ⟨0, 0, 2⟩, "View > Label"⟩
    let colors : List Setting := [⟨"color", "red", false⟩, ⟨"color", "blue", false⟩]
    let last : StyleRule := ⟨[label], [⟨"color", "green", false⟩], place⟩
    let rs : List StyleRule := [⟨[nested, label], colors, place⟩, last]
    let rs' : List StyleRule := [⟨[label, nested, label], colors, place⟩, last]
    let rules := (Rule.ofStyleRules .empty rs).1
    let doc : ElementTree := ⟨#[⟨.ofTag "View", none, [1]⟩, ⟨.ofTag "Label", some 0, []⟩]⟩
    Rule.ofStyleRules .empty rs = (rules, none) ∧ doc.Built ∧ doc.contains 1 = true ∧
      List.Forall₂ StyleRule.SameButSelectors rs rs' ∧
      StyleRule.Settles .empty rs doc 1 ((Index.empty.addRules rules).matched doc 1) ∧
      StyleRule.Settles .empty rs doc 1 ((Cascade.empty.addRules rules).matched doc 1) ∧
      ∃ rules', Rule.ofStyleRules .empty rs' = (rules', none) ∧
        (((Index.empty.addRules rules').matched doc 1).get? "color").map
          (fun d => (d.value, d.priority)) = some (.ofString "blue", 2) := by
  intro place label nested colors last rs rs' rules doc
  have happend : (ElementTree.ofRoot (.ofTag "View")).appendElement 0 (.ofTag "Label") = .ok (1, doc) := rfl
  have hd : doc.Built := .appendElement (.ofRoot _) happend
  have hn : doc.contains 1 = true := rfl
  have hrs : Rule.ofStyleRules .empty rs = (rules, none) := by decide
  have hsame : List.Forall₂ StyleRule.SameButSelectors rs rs' :=
    .cons ⟨rfl, fun s => by simp; tauto⟩ (.cons ⟨rfl, fun _ => Iff.rfl⟩ .nil)
  obtain ⟨hindex, hcascade, hswap⟩ := matched_settles .empty hrs hd hn
  obtain ⟨rules', hrules', hvalues⟩ := hswap rs' hsame
  refine ⟨hrs, hd, hn, hsame, hindex, hcascade, rules', hrules', ?_⟩
  rw [← (hvalues "color").1]
  decide

end Stylebook
