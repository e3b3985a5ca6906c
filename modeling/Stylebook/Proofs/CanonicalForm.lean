import Mathlib.Data.List.Forall2
import Stylebook.Index
import Stylebook.Proofs.OrderedList
import Stylebook.Proofs.Readiness

/-! A canonical form keeps the predicates of a selector and nothing else. Compound by compound it has the
predicates that stand in the text, each once and in order; so two selectors have one canonical form just
when they differ by the order of predicates, by repetition, by `*` and by how a progression is spelled. -/
namespace Stylebook

namespace Part

/-- The predicate that a part stands for. `*` stands for none. -/
def predicate? : Part → Option Edge
  | typeName name => some (.tag name)
  | className name => some (.className name)
  | id name => some (.id name)
  | attr name (some (.equals, value)) => some (.attr name value)
  | pseudoClass "first-child" none => some .firstChild
  | pseudoClass "last-child" none => some .lastChild
  | pseudoClass "nth-child" (some argument) => (NthChild.parse? argument).map .nthChild
  | _ => none

/-- The predicates that parts stand for. -/
def predicates (ps : List Part) : List Edge := ps.filterMap predicate?

def combinator? : Part → Option Combinator
  | combinator k => some k
  | _ => none

/-- The parts that a selector with a canonical form can have. -/
def IsSupported : Part → Prop
  | universal => True
  | typeName _ => True
  | className _ => True
  | id _ => True
  | attr _ test => ∃ value, test = some (.equals, value)
  | pseudoClass name argument =>
    (name = "first-child" ∨ name = "last-child") ∧ argument = none ∨
      name = "nth-child" ∧ ∃ text nth, argument = some text ∧ NthChild.parse? text = some nth
  | pseudoElement _ => False
  | combinator k => k = .child ∨ k = .descendant

/-- The parts between combinators, from right to left. -/
def compounds (ps : List Part) : List (List Part) := (ps.splitOnP isCombinator).reverse

/-- The combinators, from right to left. -/
def combinators (ps : List Part) : List Combinator := (ps.filterMap combinator?).reverse

/-- The parts name no two different types. -/
def OneType (ps : List Part) : Prop := ∀ a b, typeName a ∈ ps → typeName b ∈ ps → a = b

def SamePredicates (ps qs : List Part) : Prop := ∀ e, e ∈ predicates ps ↔ e ∈ predicates qs

end Part

/-- Every part is supported, and no compound names two different types. -/
structure Selector.IsSupported (s : Selector) : Prop where
  parts : ∀ p ∈ s.parts, p.IsSupported
  types : ∀ ps ∈ Part.compounds s.parts, Part.OneType ps

def Link.combinator : Link → Combinator
  | child => .child
  | descendant => .descendant

lemma Link.combinator_injective : Function.Injective combinator := by
  intro l m h
  cases l <;> cases m <;> simp_all [combinator]

/-! ## Compounds -/

namespace Compound

/-- Whether a predicate is among those of the compound. -/
def Has (c : Compound) : Edge → Prop
  | .id name => name ∈ c.ids
  | .className name => name ∈ c.classes
  | .tag name => c.tag = some name
  | .attr name value => (name, value) ∈ c.attributes
  | .firstChild => c.firstChild = true
  | .lastChild => c.lastChild = true
  | .nthChild nth => nth ∈ c.nths
  | .parent => False
  | .ancestor => False

/-- Predicates of each kind are in strictly increasing order: names, names with values, and progressions
by the step and then by the offset. -/
structure Increasing (c : Compound) : Prop where
  ids : c.ids.Pairwise (· < ·)
  classes : c.classes.Pairwise (· < ·)
  attributes : c.attributes.Pairwise fun a b => toLex a < toLex b
  nths : c.nths.Pairwise fun a b => a.position < b.position

/-- The compound has the predicates that parts stand for, in order. -/
structure Gathers (c : Compound) (ps : List Part) : Prop where
  increasing : c.Increasing
  has_iff : ∀ e, c.Has e ↔ e ∈ Part.predicates ps

variable {c d : Compound} {p : Part} {ps qs : List Part} {text : String}

lemma Increasing.eq_of_has_iff (hc : c.Increasing) (hd : d.Increasing) (h : ∀ e, c.Has e ↔ d.Has e) :
    c = d := by
  have hids : c.ids = d.ids := Ordered.eq_of_mem_iff id hc.ids hd.ids fun name => h (.id name)
  have hclasses : c.classes = d.classes :=
    Ordered.eq_of_mem_iff id hc.classes hd.classes fun name => h (.className name)
  have htag : c.tag = d.tag := Option.ext fun name => h (.tag name)
  have hattributes : c.attributes = d.attributes :=
    Ordered.eq_of_mem_iff toLex hc.attributes hd.attributes fun a => h (.attr a.1 a.2)
  have hfirst : c.firstChild = d.firstChild := Bool.eq_iff_iff.mpr (h .firstChild)
  have hlast : c.lastChild = d.lastChild := Bool.eq_iff_iff.mpr (h .lastChild)
  have hnths : c.nths = d.nths :=
    Ordered.eq_of_mem_iff NthChild.position hc.nths hd.nths fun nth => h (.nthChild nth)
  cases c
  cases d
  simp_all

/-- Compounds are equal just when the parts they come from have the same predicates. -/
lemma Gathers.eq_iff (hc : c.Gathers ps) (hd : d.Gathers qs) : c = d ↔ Part.SamePredicates ps qs := by
  constructor
  · rintro rfl e
    rw [← hc.has_iff, hd.has_iff]
  · intro h
    refine hc.increasing.eq_of_has_iff hd.increasing fun e => ?_
    rw [hc.has_iff, hd.has_iff]
    exact h e

lemma gathers_universal : universal.Gathers [] where
  increasing := ⟨.nil, .nil, .nil, .nil⟩
  has_iff e := by cases e <;> simp [Has, universal, Part.predicates]

/-- The compound has one predicate besides those of another. -/
structure Adds (c d : Compound) (e : Edge) : Prop where
  increasing : c.Increasing → d.Increasing
  has_iff : ∀ f, d.Has f ↔ c.Has f ∨ f = e

section Adds
variable (c : Compound) (name : String)

lemma adds_id : c.Adds { c with ids := Ordered.insert Ordered.word name c.ids } (.id name) where
  increasing h := ⟨Ordered.pairwise_insert Ordered.word_iff Function.injective_id name h.ids, h.classes,
    h.attributes, h.nths⟩
  has_iff f := by
    cases f <;> simp [Has, Ordered.mem_insert_iff Ordered.word_iff Function.injective_id, or_comm]

lemma adds_className :
    c.Adds { c with classes := Ordered.insert Ordered.word name c.classes } (.className name) where
  increasing h := ⟨h.ids, Ordered.pairwise_insert Ordered.word_iff Function.injective_id name h.classes,
    h.attributes, h.nths⟩
  has_iff f := by
    cases f <;> simp [Has, Ordered.mem_insert_iff Ordered.word_iff Function.injective_id, or_comm]

lemma adds_attr (value : String) :
    c.Adds { c with attributes :=
      Ordered.insert (Ordered.pair Ordered.word Ordered.word) (name, value) c.attributes }
      (.attr name value) where
  increasing h := ⟨h.ids, h.classes,
    Ordered.pairwise_insert Ordered.pair_word_iff toLex.injective (name, value) h.attributes, h.nths⟩
  has_iff f := by
    cases f <;> simp [Has, Ordered.mem_insert_iff Ordered.pair_word_iff toLex.injective, or_comm]

lemma adds_nthChild (nth : NthChild) :
    c.Adds { c with nths := Ordered.insert NthChild.lt nth c.nths } (.nthChild nth) where
  increasing h := by
    have hlt (a b : NthChild) : a.lt b = true ↔ a.position < b.position := NthChild.lt_iff a b
    exact ⟨h.ids, h.classes, h.attributes, Ordered.pairwise_insert hlt NthChild.position_injective nth h.nths⟩
  has_iff f := by
    cases f <;> simp [Has, Ordered.mem_insert_iff NthChild.lt_iff Function.injective_id, or_comm]

lemma adds_firstChild : c.Adds { c with firstChild := true } .firstChild where
  increasing h := ⟨h.ids, h.classes, h.attributes, h.nths⟩
  has_iff f := by cases f <;> simp [Has]

lemma adds_lastChild : c.Adds { c with lastChild := true } .lastChild where
  increasing h := ⟨h.ids, h.classes, h.attributes, h.nths⟩
  has_iff f := by cases f <;> simp [Has]

end Adds

/-- A type that is named again is the one that was named. -/
lemma adds_of_addTag {name : String} (h : c.addTag name text = .ok d) : c.Adds d (.tag name) := by
  unfold addTag at h
  split at h
  · next other hother =>
    split_ifs at h with heq
    cases h
    refine ⟨fun hc => hc, fun f => ?_⟩
    cases f with
    | tag again =>
      simp only [Has, hother, heq, Option.some.injEq, Edge.tag.injEq]
      tauto
    | _ => simp [Has]
  · next hnone =>
    cases h
    refine ⟨fun hc => ⟨hc.ids, hc.classes, hc.attributes, hc.nths⟩, fun f => ?_⟩
    cases f with
    | tag first =>
      simp only [Has, hnone, Option.some.injEq, Edge.tag.injEq]
      tauto
    | _ => simp [Has]

/-- What a part adds to a compound: the predicate that it stands for. -/
lemma of_add_eq_ok (h : c.add text p = .ok d) :
    p.IsSupported ∧ (p = .universal ∧ d = c ∨ ∃ e, p.predicate? = some e ∧ c.Adds d e) := by
  cases p with
  | universal =>
    cases h
    exact ⟨trivial, .inl ⟨rfl, rfl⟩⟩
  | typeName name => exact ⟨trivial, .inr ⟨.tag name, rfl, adds_of_addTag h⟩⟩
  | className name =>
    cases h
    exact ⟨trivial, .inr ⟨.className name, rfl, adds_className c name⟩⟩
  | id name =>
    cases h
    exact ⟨trivial, .inr ⟨.id name, rfl, adds_id c name⟩⟩
  | attr name test =>
    simp only [add, addAttribute] at h
    split at h
    · next value =>
      cases h
      exact ⟨⟨value, rfl⟩, .inr ⟨.attr name value, rfl, adds_attr c name value⟩⟩
    · cases h
    · cases h
  | pseudoClass name argument =>
    simp only [add, addPseudoClass] at h
    split at h
    · cases h
      exact ⟨.inl ⟨.inl rfl, rfl⟩, .inr ⟨.firstChild, rfl, adds_firstChild c⟩⟩
    · cases h
      exact ⟨.inl ⟨.inr rfl, rfl⟩, .inr ⟨.lastChild, rfl, adds_lastChild c⟩⟩
    · next argument =>
      unfold addNth at h
      split at h
      · next nth hnth =>
        cases h
        refine ⟨.inr ⟨rfl, argument, nth, rfl, hnth⟩, .inr ⟨.nthChild nth, ?_, adds_nthChild c nth⟩⟩
        simp [Part.predicate?, hnth]
      · cases h
    -- Every other name, and every other use of these names, is a fault.
    all_goals cases h
  | pseudoElement name => cases h
  | combinator k => cases h

/-- A part that is supported can be added, unless it names a second type. -/
lemma exists_add_eq_ok (hsimple : p.isCombinator = false) (hp : p.IsSupported)
    (htype : ∀ a b, p = .typeName a → c.tag = some b → a = b) : ∃ d, c.add text p = .ok d := by
  cases p with
  | universal => exact ⟨c, rfl⟩
  | typeName name =>
    simp only [add, addTag]
    split
    · next other hother =>
      rw [if_pos (htype name other rfl hother).symm]
      exact ⟨c, rfl⟩
    · exact ⟨_, rfl⟩
  | className name => exact ⟨_, rfl⟩
  | id name => exact ⟨_, rfl⟩
  | attr name test =>
    obtain ⟨value, rfl⟩ := hp
    exact ⟨_, rfl⟩
  | pseudoClass name argument =>
    rcases hp with ⟨rfl | rfl, rfl⟩ | ⟨rfl, text, nth, rfl, hnth⟩
    · exact ⟨_, rfl⟩
    · exact ⟨_, rfl⟩
    · simp [add, addPseudoClass, addNth, hnth]
  | pseudoElement name => exact absurd hp id
  | combinator k => cases hsimple

lemma Gathers.add (hc : c.Gathers ps) (h : c.add text p = .ok d) : p.IsSupported ∧ d.Gathers (ps ++ [p]) := by
  obtain ⟨hp, hadds⟩ := of_add_eq_ok h
  refine ⟨hp, ?_⟩
  rcases hadds with ⟨rfl, rfl⟩ | ⟨e, he, hadds⟩
  · refine ⟨hc.increasing, fun f => ?_⟩
    simp [hc.has_iff, Part.predicates, Part.predicate?]
  · refine ⟨hadds.increasing hc.increasing, fun f => ?_⟩
    rw [hadds.has_iff, hc.has_iff]
    simp [Part.predicates, he]

/-- The type that a compound has is named by one of the parts. -/
lemma Gathers.tag_eq_iff (hc : c.Gathers ps) {name : String} : c.tag = some name ↔ .typeName name ∈ ps := by
  have hpredicate (p : Part) : p.predicate? = some (.tag name) ↔ p = .typeName name := by
    constructor
    · intro h
      unfold Part.predicate? at h
      split at h <;> simp_all
    · rintro rfl
      rfl
  have hhas := hc.has_iff (.tag name)
  simpa only [Has, Part.predicates, List.mem_filterMap, hpredicate, exists_eq_right] using hhas

lemma Gathers.oneType (hc : c.Gathers ps) : Part.OneType ps := by
  intro a b ha hb
  rw [← hc.tag_eq_iff] at ha hb
  exact Option.some.inj (ha.symm.trans hb)

lemma Gathers.exists_add (hc : c.Gathers ps) (hsimple : p.isCombinator = false) (hp : p.IsSupported)
    (htypes : Part.OneType (ps ++ [p])) : ∃ d, c.add text p = .ok d := by
  apply exists_add_eq_ok hsimple hp
  intro a b ha hb
  have hold : .typeName b ∈ ps := hc.tag_eq_iff.mp hb
  exact htypes a b (by simp [ha]) (by simp [hold])

section Rows
variable {cs ds : List Compound} {pss qss : List (List Part)}

lemma forall_oneType (h : List.Forall₂ Gathers cs pss) : ∀ ps ∈ pss, Part.OneType ps := by
  induction h with
  | nil => simp
  | cons hc _ ih => exact List.forall_mem_cons.mpr ⟨hc.oneType, ih⟩

lemma eq_iff_of_forall₂ (hcs : List.Forall₂ Gathers cs pss) (hds : List.Forall₂ Gathers ds qss) :
    cs = ds ↔ List.Forall₂ Part.SamePredicates pss qss := by
  induction hcs generalizing ds qss with
  | nil => cases hds <;> simp
  | cons hc _ ih =>
    cases hds with
    | nil => simp
    | cons hd hds => rw [List.cons.injEq, List.forall₂_cons, hc.eq_iff hd, ih hds]

end Rows

end Compound

/-! ## Chains -/

namespace Part

variable {p : Part} {ps : List Part}

lemma compounds_concat_of_isCombinator (hp : p.isCombinator = true) :
    compounds (ps ++ [p]) = [] :: compounds ps := by
  simp [compounds, List.splitOnP_append_cons, hp]

/-- A part that is no combinator belongs to the last compound. -/
lemma exists_compounds_concat (hp : p.isCombinator = false) (ps : List Part) :
    ∃ qs rest, compounds ps = qs :: rest ∧ compounds (ps ++ [p]) = (qs ++ [p]) :: rest := by
  -- Splitting goes from left to right, so the last compound is reached through all those before it.
  have hsplit : ∃ before qs, ps.splitOnP isCombinator = before ++ [qs] ∧
      (ps ++ [p]).splitOnP isCombinator = before ++ [qs ++ [p]] := by
    induction ps with
    | nil => exact ⟨[], [], rfl, by simp [List.splitOnP_cons_eq_if_modifyHead, hp]⟩
    | cons q ps ih =>
      obtain ⟨before, qs, hps, hconcat⟩ := ih
      rw [List.cons_append, List.splitOnP_cons_eq_if_modifyHead, List.splitOnP_cons_eq_if_modifyHead, hps,
        hconcat]
      split_ifs
      · exact ⟨[] :: before, qs, rfl, rfl⟩
      · cases before with
        | nil => exact ⟨[], q :: qs, rfl, rfl⟩
        | cons first before => exact ⟨(q :: first) :: before, qs, rfl, rfl⟩
  obtain ⟨before, qs, hps, hconcat⟩ := hsplit
  exact ⟨qs, before.reverse, by simp [compounds, hps], by simp [compounds, hconcat]⟩

lemma combinators_concat_combinator (k : Combinator) :
    combinators (ps ++ [.combinator k]) = k :: combinators ps := by
  simp [combinators, combinator?]

lemma combinators_concat (hp : p.isCombinator = false) : combinators (ps ++ [p]) = combinators ps := by
  have hnone : p.combinator? = none := by cases p <;> simp_all [combinator?, isCombinator]
  simp [combinators, hnone]

lemma exists_of_isCombinator (hp : p.isCombinator = true) : ∃ k, p = .combinator k := by
  cases p <;> simp_all [isCombinator]

/-- Types that agree in every compound agreed before the last part. -/
lemma forall_oneType_of_concat (h : ∀ qs ∈ compounds (ps ++ [p]), OneType qs) :
    ∀ qs ∈ compounds ps, OneType qs := by
  intro qs hqs
  cases hp : p.isCombinator with
  | true =>
    rw [compounds_concat_of_isCombinator hp] at h
    exact h qs (List.mem_cons_of_mem _ hqs)
  | false =>
    obtain ⟨last, rest, hps, hconcat⟩ := exists_compounds_concat hp ps
    rw [hps] at hqs
    rw [hconcat] at h
    rcases List.mem_cons.mp hqs with rfl | hrest
    · intro a b ha hb
      exact h _ (List.mem_cons_self ..) a b (List.mem_append_left _ ha) (List.mem_append_left _ hb)
    · exact h qs (List.mem_cons_of_mem _ hrest)

end Part

namespace Term

/-- The compounds, from right to left. -/
def compounds (t : Term) : List Compound := t.head :: t.outer.map Prod.snd

/-- The links between them, from right to left. -/
def links (t : Term) : List Link := t.outer.map Prod.fst

/-- The chain has one compound for each of those in the text, with the same predicates, and the links that
the combinators stand for. -/
structure Reads (t : Term) (ps : List Part) : Prop where
  compounds : List.Forall₂ Compound.Gathers t.compounds (Part.compounds ps)
  links : t.links.map Link.combinator = Part.combinators ps

variable {t u : Term} {p : Part} {ps qs : List Part} {text : String}

lemma reads_nil : Reads ⟨.universal, []⟩ [] where
  compounds := .cons Compound.gathers_universal .nil
  links := rfl

lemma link?_eq_some_iff {k : Combinator} {link : Link} : link? k = some link ↔ k = link.combinator := by
  cases k <;> cases link <;> simp [link?, Link.combinator]

lemma add_combinator_eq_ok_iff {k : Combinator} :
    t.add text (.combinator k) = .ok u ↔ ∃ link : Link, k = link.combinator ∧ u = t.extend link := by
  simp only [← link?_eq_some_iff, add]
  cases link? k <;> simp [eq_comm]

lemma add_eq_ok_iff (hp : p.isCombinator = false) :
    t.add text p = .ok u ↔ ∃ c, t.head.add text p = .ok c ∧ u = { t with head := c } := by
  have hbind : t.add text p = t.head.add text p >>= fun c => .ok { t with head := c } := by
    cases p with
    | combinator k => cases hp
    | _ => rfl
  rw [hbind, bind_eq_ok_iff]
  simp [eq_comm]

/-- What one more part leaves. -/
lemma Reads.add (h : t.Reads ps) (hadd : t.add text p = .ok u) : p.IsSupported ∧ u.Reads (ps ++ [p]) := by
  cases hp : p.isCombinator with
  | true =>
    obtain ⟨k, rfl⟩ := Part.exists_of_isCombinator hp
    obtain ⟨link, rfl, rfl⟩ := add_combinator_eq_ok_iff.mp hadd
    refine ⟨by cases link <;> simp [Part.IsSupported, Link.combinator], ?_, ?_⟩
    · rw [Part.compounds_concat_of_isCombinator hp]
      exact .cons Compound.gathers_universal h.compounds
    · rw [Part.combinators_concat_combinator, ← h.links]
      rfl
  | false =>
    obtain ⟨c, hc, rfl⟩ := (add_eq_ok_iff hp).mp hadd
    obtain ⟨qs, rest, hps, hconcat⟩ := Part.exists_compounds_concat hp ps
    have hcompounds := h.compounds
    rw [hps] at hcompounds
    obtain ⟨hhead, houter⟩ := List.forall₂_cons.mp hcompounds
    obtain ⟨hsupported, hgathers⟩ := hhead.add hc
    refine ⟨hsupported, ?_, ?_⟩
    · rw [hconcat]
      exact .cons hgathers houter
    · rw [Part.combinators_concat hp]
      exact h.links

/-- One more part can be added if it is supported and names no second type in its compound. -/
lemma Reads.exists_add (h : t.Reads ps) (hp : p.IsSupported)
    (htypes : ∀ qs ∈ Part.compounds (ps ++ [p]), Part.OneType qs) : ∃ u, t.add text p = .ok u := by
  cases hcomb : p.isCombinator with
  | true =>
    obtain ⟨k, rfl⟩ := Part.exists_of_isCombinator hcomb
    rcases hp with rfl | rfl
    · exact ⟨t.extend .child, rfl⟩
    · exact ⟨t.extend .descendant, rfl⟩
  | false =>
    obtain ⟨qs, rest, hps, hconcat⟩ := Part.exists_compounds_concat hcomb ps
    have hcompounds := h.compounds
    rw [hps] at hcompounds
    rw [hconcat] at htypes
    obtain ⟨hhead, -⟩ := List.forall₂_cons.mp hcompounds
    obtain ⟨c, hc⟩ := hhead.exists_add hcomb hp (htypes _ (List.mem_cons_self ..))
    exact ⟨_, (add_eq_ok_iff hcomb).mpr ⟨c, hc, rfl⟩⟩

lemma foldlM_concat (t : Term) (ps : List Part) (p : Part) :
    (ps ++ [p]).foldlM (add text) t = ps.foldlM (add text) t >>= fun u => u.add text p := by
  simp [List.foldlM_append]

/-- What all parts leave. -/
lemma reads_of_foldlM (h : ps.foldlM (add text) ⟨.universal, []⟩ = .ok t) :
    (∀ p ∈ ps, p.IsSupported) ∧ t.Reads ps := by
  induction ps using List.reverseRecOn generalizing t with
  | nil =>
    cases h
    exact ⟨by simp, reads_nil⟩
  | append_singleton ps p ih =>
    rw [foldlM_concat, bind_eq_ok_iff] at h
    obtain ⟨s, hs, hadd⟩ := h
    obtain ⟨hsupported, hreads⟩ := ih hs
    obtain ⟨hp, hreads⟩ := hreads.add hadd
    exact ⟨List.forall_mem_append.mpr ⟨hsupported, by simpa using hp⟩, hreads⟩

lemma exists_foldlM (hps : ∀ p ∈ ps, p.IsSupported) (htypes : ∀ qs ∈ Part.compounds ps, Part.OneType qs) :
    ∃ t, ps.foldlM (add text) ⟨.universal, []⟩ = .ok t := by
  induction ps using List.reverseRecOn with
  | nil => exact ⟨_, rfl⟩
  | append_singleton ps p ih =>
    obtain ⟨hps, hp⟩ := List.forall_mem_append.mp hps
    obtain ⟨t, ht⟩ := ih hps (Part.forall_oneType_of_concat htypes)
    obtain ⟨u, hu⟩ := (reads_of_foldlM ht).2.exists_add (hp p (List.mem_cons_self ..)) htypes
    exact ⟨u, by rw [foldlM_concat, ht]; exact hu⟩

lemma eq_iff : t = u ↔ t.links = u.links ∧ t.compounds = u.compounds := by
  refine ⟨by rintro rfl; exact ⟨rfl, rfl⟩, ?_⟩
  rintro ⟨hlinks, hcompounds⟩
  obtain ⟨hhead, hsnd⟩ := List.cons.inj hcompounds
  have houter : t.outer = u.outer := by
    rw [← List.zip_unzip t.outer, ← List.zip_unzip u.outer, List.unzip_eq_map, List.unzip_eq_map]
    exact congrArg₂ List.zip hlinks hsnd
  cases t
  cases u
  simp_all

/-- Chains are equal just when the parts they come from have the same combinators and, compound by compound,
the same predicates. -/
lemma Reads.eq_iff (ht : t.Reads ps) (hu : u.Reads qs) :
    t = u ↔ Part.combinators ps = Part.combinators qs ∧
      List.Forall₂ Part.SamePredicates (Part.compounds ps) (Part.compounds qs) := by
  rw [Term.eq_iff, ← ht.links, ← hu.links, List.map_inj_right (fun _ _ h => Link.combinator_injective h)]
  refine and_congr_right fun _ => ?_
  exact Compound.eq_iff_of_forall₂ ht.compounds hu.compounds

/-- A selector has a canonical form just when all its parts are supported and no compound names two types.
The form has the compounds of the text from right to left, with their predicates and no others, each once
and in order, and links as the combinators say. So only the combinators and the predicates of each compound
count: not their order, nor how often they are written, nor `*`. -/
theorem ofSelector_keeps_predicates (s : Selector) :
    ((∃ t, ofSelector s = .ok t) ↔ s.IsSupported) ∧
    (∀ t, ofSelector s = .ok t → t.links.map Link.combinator = Part.combinators s.parts ∧
      List.Forall₂ Compound.Gathers t.compounds (Part.compounds s.parts)) ∧
    ∀ s' t u, ofSelector s = .ok t → ofSelector s' = .ok u →
      (t = u ↔ Part.combinators s.parts = Part.combinators s'.parts ∧
        List.Forall₂ Part.SamePredicates (Part.compounds s.parts) (Part.compounds s'.parts)) := by
  refine ⟨⟨?_, ?_⟩, ?_, ?_⟩
  · rintro ⟨t, ht⟩
    obtain ⟨hparts, hreads⟩ := reads_of_foldlM ht
    exact ⟨hparts, Compound.forall_oneType hreads.compounds⟩
  · intro h
    exact exists_foldlM h.parts h.types
  · intro t ht
    obtain ⟨-, hreads⟩ := reads_of_foldlM ht
    exact ⟨hreads.links, hreads.compounds⟩
  · intro s' t u ht hu
    exact (reads_of_foldlM ht).2.eq_iff (reads_of_foldlM hu).2

/-- One selector in two spellings: classes in another order and one of them twice, with `*` and without it,
and a progression by its name and by its formula. -/
theorem ofSelector_keeps_predicates_respelled :
    let s : Selector := ⟨[.typeName "ul", .className "b", .className "a", .combinator .child, .universal,
      .pseudoClass "nth-child" (some "odd")], ⟨0, 3, 1⟩, "ul.b.a > *:nth-child(odd)"⟩
    let s' : Selector := ⟨[.typeName "ul", .className "a", .className "b", .className "a", .combinator .child,
      .pseudoClass "nth-child" (some "2n + 1")], ⟨0, 4, 1⟩, "ul.a.b.a>:nth-child(2n + 1)"⟩
    let t : Term := ⟨{ Compound.universal with nths := [⟨2, 1⟩] },
      [(.child, { Compound.universal with classes := ["a", "b"], tag := some "ul" })]⟩
    Selector.parseList "ul.b.a > *:nth-child(odd), ul.a.b.a>:nth-child(2n + 1)" = .ok [s, s'] ∧
      s.IsSupported ∧ ofSelector s = .ok t ∧ ofSelector s' = .ok t ∧
      List.Forall₂ Part.SamePredicates (Part.compounds s.parts) (Part.compounds s'.parts) := by
  intro s s' t
  have hs : ofSelector s = .ok t := by decide +kernel
  have hs' : ofSelector s' = .ok t := by decide +kernel
  obtain ⟨hsupported, -, hsame⟩ := ofSelector_keeps_predicates s
  exact ⟨by decide +kernel, hsupported.mp ⟨t, hs⟩, hs, hs', ((hsame s' t t hs hs').mp rfl).2⟩

end Term

end Stylebook
