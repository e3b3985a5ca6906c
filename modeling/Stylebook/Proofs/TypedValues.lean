import Mathlib.Data.List.Forall2
import Mathlib.Data.List.TakeWhile
import Stylebook.Proofs.RuleCalls
import Stylebook.Proofs.WireForm
import Stylebook.Stylesheet.Parser

/-! Values on their way from the text of a stylesheet to the form in which an index is handed on. There the kind of
a value is taken from the first of its fields that is not empty or zero. This loses nothing because the reader takes
no value without text, and because a value that was read as a number has no text left. -/
namespace Stylebook

namespace Stylesheet

/-! ## No value is empty -/

section Written
variable {f g : Feed}

lemma value_ne_of_settingValue {property : String} {s : Setting} (h : settingValue property f = .ok (s, g)) :
    s.value ≠ "" := by
  obtain ⟨⟨ls, g₁⟩, -, h⟩ := of_bind_eq_ok h
  obtain ⟨⟨important, g₂⟩, -, h⟩ := of_bind_eq_ok h
  simp only at h
  split at h
  · cases h
  · next hvalue =>
    have hne : valueText ls ≠ "" := by simpa using hvalue
    split at h
    · obtain ⟨g₃, -, h⟩ := of_bind_eq_ok h
      cases h
      exact hne
    · cases h
      exact hne

lemma value_ne_of_setting {s : Setting} (h : setting f = .ok (s, g)) : s.value ≠ "" := by
  unfold setting at h
  split at h
  · obtain ⟨g₁, -, h⟩ := of_bind_eq_ok h
    obtain ⟨g₂, -, h⟩ := of_bind_eq_ok h
    obtain ⟨g₃, -, h⟩ := of_bind_eq_ok h
    obtain ⟨g₄, -, h⟩ := of_bind_eq_ok h
    exact value_ne_of_settingValue h
  · cases h

lemma value_ne_of_block {ss : List Setting} (h : block f = .ok (ss, g)) : ∀ s ∈ ss, s.value ≠ "" := by
  fun_induction block f generalizing ss with
  | case1 => cases h
  | case2 =>
    obtain ⟨g₁, -, h⟩ := of_bind_eq_ok h
    cases h
    exact List.forall_mem_nil _
  | case3 => cases h
  | case4 => cases h
  | case5 _ _ _ _ _ _ _ _ ih => exact ih h
  | case6 => cases h
  | case7 _ _ _ _ _ _ s _ hs ih =>
    obtain ⟨⟨ss', g₁⟩, hblock, h⟩ := of_bind_eq_ok h
    cases h
    exact List.forall_mem_cons.mpr ⟨value_ne_of_setting hs, ih hblock⟩

lemma value_ne_of_rule {r : StyleRule} (h : rule f = .ok (r, g)) : ∀ s ∈ r.settings, s.value ≠ "" := by
  obtain ⟨g₁, -, h⟩ := of_bind_eq_ok h
  simp only at h
  split at h
  · cases h
  · obtain ⟨selectors, -, h⟩ := of_bind_eq_ok h
    obtain ⟨g₂, -, h⟩ := of_bind_eq_ok h
    obtain ⟨⟨settings, g₃⟩, hblock, h⟩ := of_bind_eq_ok h
    cases h
    exact value_ne_of_block hblock

lemma value_ne_of_statement {r : StyleRule} (h : statement f = .ok (some (.rule r), g)) :
    ∀ s ∈ r.settings, s.value ≠ "" := by
  unfold statement at h
  split at h
  · obtain ⟨g₁, -, h⟩ := of_bind_eq_ok h
    unfold atStatement at h
    split at h
    · obtain ⟨⟨i, g₂⟩, -, h⟩ := of_bind_eq_ok h
      cases h
    · obtain ⟨g₂, -, h⟩ := of_bind_eq_ok h
      cases h
    · cases h
  · obtain ⟨⟨r', g₁⟩, hrule, h⟩ := of_bind_eq_ok h
    cases h
    exact value_ne_of_rule hrule

lemma value_ne_of_mem_outlineOf {r : StyleRule} (h : .rule r ∈ (outlineOf f).statements) :
    ∀ s ∈ r.settings, s.value ≠ "" := by
  fun_induction outlineOf f with
  | case1 => cases h
  | case2 => cases h
  | case3 => cases h
  | case4 _ _ _ _ s _ hs ih =>
    rcases List.mem_append.mp h with h | h
    · rw [Option.mem_toList] at h
      subst h
      exact value_ne_of_statement hs
    · exact ih h

/-- All values in a text that can be read have text of their own. -/
lemma value_ne_of_parse {text : String} {sheet : Stylesheet} (h : parse text = .ok sheet) :
    ∀ r ∈ sheet.rules, ∀ s ∈ r.settings, s.value ≠ "" := by
  intro r hr
  unfold parse at h
  simp only at h
  split at h
  · cases h
  · cases h
    obtain ⟨st, hst, hrule⟩ := List.mem_filterMap.mp hr
    cases st with
    | importing i => cases hrule
    | rule r' =>
      cases hrule
      unfold outline at hst
      split at hst
      · cases hst
      · exact value_ne_of_mem_outlineOf hst

end Written

end Stylesheet

/-! ## One value -/

/-- What becomes of the text of a value under an attribute of some kind. Blanks around a number do not count, but
they stay where the text is kept. An integer of zero becomes a double. -/
inductive HandedOnAs : Kind → String → WireValue → Prop
  | string (v : String) : HandedOnAs .string v (.string v)
  | int {v : String} {k : Int32} (h : Numeral.int32? (Text.trim v.toList) = some k) (hk : k ≠ 0) :
      HandedOnAs .int v (.int k)
  | zero {v : String} (h : Numeral.int32? (Text.trim v.toList) = some 0) : HandedOnAs .int v (.double .zero)
  | noInt {v : String} (h : Numeral.int32? (Text.trim v.toList) = none) : HandedOnAs .int v (.string v)
  | double {v : String} {x : Binary64} (h : Numeral.binary64? (Text.trim v.toList) = some x) :
      HandedOnAs .double v (.double x)
  | noDouble {v : String} (h : Numeral.binary64? (Text.trim v.toList) = none) :
      HandedOnAs .double v (.string v)

namespace HandedOnAs
variable {kind : Kind} {v : String} {w : WireValue}

lemma ne_string_empty (h : HandedOnAs kind v w) (hv : v ≠ "") : w ≠ .string "" := by
  cases h <;> simp [hv]

lemma eq_string (h : HandedOnAs kind v w) (hkind : kind = .string) : w = .string v := by
  subst hkind
  cases h
  rfl

end HandedOnAs

namespace Value

lemma wire_ofString {v : String} (hv : v ≠ "") : (ofString v).wire = .string v := by
  simp [wire, ofString, hv]

lemma wire_ofInt {k : Int32} (hk : k ≠ 0) : (ofInt k).wire = .int k := by simp [wire, ofInt, hk]

lemma wire_ofInt_zero : (ofInt 0).wire = .double .zero := rfl

lemma wire_ofDouble (x : Binary64) : (ofDouble x).wire = .double x := by simp [wire, ofDouble]

end Value

/-- The fields of a value tell its kind, as long as its text is not empty. -/
lemma Registry.handedOnAs_valueOf (registry : Registry) (name : String) {v : String} (hv : v ≠ "") :
    HandedOnAs (registry.kindOf name) v (registry.valueOf name v).wire := by
  unfold valueOf
  cases registry.kindOf name with
  | string =>
    rw [Value.ofText?, Option.getD_some, Value.wire_ofString hv]
    exact .string v
  | int =>
    rw [Value.ofText?]
    cases hread : Numeral.int32? (Text.trim v.toList) with
    | none =>
      rw [Option.map_none, Option.getD_none, Value.wire_ofString hv]
      exact .noInt hread
    | some k =>
      rw [Option.map_some, Option.getD_some]
      by_cases hk : k = 0
      · subst hk
        rw [Value.wire_ofInt_zero]
        exact .zero hread
      · rw [Value.wire_ofInt hk]
        exact .int hread hk
  | double =>
    rw [Value.ofText?]
    cases hread : Numeral.binary64? (Text.trim v.toList) with
    | none =>
      rw [Option.map_none, Option.getD_none, Value.wire_ofString hv]
      exact .noDouble hread
    | some x =>
      rw [Option.map_some, Option.getD_some, Value.wire_ofDouble]
      exact .double hread

/-! ## All values at a path -/

/-- What a declaration gives, without its weight. -/
def Declaration.toAttribute (d : Declaration) : Attribute := ⟨d.name, d.value⟩

lemma Declaration.map_toAttribute_stamp (priority first : ℤ) (as : List Attribute) :
    (stamp priority first as).map toAttribute = as := by
  induction as generalizing first with
  | nil => rfl
  | cons a as ih =>
    rw [stamp, List.map_cons, ih]
    rfl

/-- Stamps change nothing of what is put at the end of a path, nor its order. -/
lemma Insertion.map_toAttribute_stampAll (first : ℕ) (is : List Insertion) (path : List Edge) :
    (((stampAll first is).filter fun s => s.term.path = path).flatMap (·.declarations)).map
        Declaration.toAttribute =
      (is.filter fun s => s.term.path = path).flatMap (·.attributes) := by
  induction is generalizing first with
  | nil => rfl
  | cons s is ih =>
    rw [stampAll]
    by_cases hpath : s.term.path = path
    · rw [List.filter_cons_of_pos (by simpa using hpath), List.filter_cons_of_pos (by simpa using hpath),
        List.flatMap_cons, List.flatMap_cons, List.map_append, ih, Declaration.map_toAttribute_stamp]
    · rw [List.filter_cons_of_neg (by simpa using hpath), List.filter_cons_of_neg (by simpa using hpath), ih]

/-- The settings of a rule, once for each of its selectors that spells the path. -/
def StyleRule.settingsAt (path : List Edge) (r : StyleRule) : List Setting :=
  r.selectors.flatMap fun s => if (Term.ofSelector s).toOption.map Term.path = some path then r.settings else []

/-- The settings that a stylesheet has for a path: those of the rules before the first that cannot be made ready. -/
def Stylesheet.settingsAt (path : List Edge) (sheet : Stylesheet) : List Setting :=
  (sheet.rules.takeWhile (·.IsReady)).flatMap (·.settingsAt path)

lemma StyleRule.attributes_insertions (registry : Registry) (path : List Edge) (r : StyleRule) :
    ((r.insertions registry).filter fun s => s.term.path = path).flatMap (·.attributes) =
      (r.settingsAt path).map registry.typed := by
  unfold insertions settingsAt
  induction r.selectors with
  | nil => rfl
  | cons s ss ih =>
    rw [List.flatMap_cons, List.map_append, ← ih, List.filterMap_cons]
    cases (Term.ofSelector s).toOption with
    | none => rfl
    | some t =>
      by_cases hpath : t.path = path
      · simp [hpath, Registry.typedAll]
      · simp [hpath]

lemma Stylesheet.attributes_insertions (registry : Registry) (path : List Edge) (sheet : Stylesheet) :
    ((RuleCall.insertions (.stylesheet registry sheet)).filter fun s => s.term.path = path).flatMap
        (·.attributes) =
      (sheet.settingsAt path).map registry.typed := by
  rw [RuleCall.insertions, settingsAt]
  induction sheet.rules.takeWhile (·.IsReady) with
  | nil => rfl
  | cons r rs ih =>
    rw [List.flatMap_cons, List.filter_append, List.flatMap_append, ih, r.attributes_insertions,
      List.flatMap_cons, List.map_append]

lemma Stylesheet.mem_settingsAt_iff {path : List Edge} {sheet : Stylesheet} {s : Setting} :
    s ∈ sheet.settingsAt path ↔ ∃ r ∈ sheet.rules.takeWhile (·.IsReady), s ∈ r.settings ∧
      ∃ selector ∈ r.selectors, (Term.ofSelector selector).toOption.map Term.path = some path := by
  simp only [settingsAt, StyleRule.settingsAt, List.mem_flatMap, List.mem_ite_nil_right]
  tauto

/-- The declarations handed on for a path. -/
def WireNode.stylesAt (path : List Edge) (n : WireNode) : List WireDeclaration :=
  ((n.at? path).map styles).getD []

lemma Index.stylesAt_wire {i : Index} (h : i.root.branches.Distinct) (path : List Edge) :
    i.wire.stylesAt path = (i.root.declarationsAt path).map Declaration.wire := by
  have hat : i.wire.at? path = (i.root.at? path).map IndexNode.wire := IndexNode.at?_wire h path
  rw [WireNode.stylesAt, IndexNode.declarationsAt, hat]
  cases i.root.at? path <;> rfl

/-- A stylesheet adds to a path the declarations that its settings for the path give. -/
lemma Index.exists_stylesAt_addStylesheet {i : Index} (h : i.root.branches.Distinct) (registry : Registry)
    (sheet : Stylesheet) (path : List Edge) :
    ∃ ds : List Declaration,
      (i.addStylesheet registry sheet).1.wire.stylesAt path = i.wire.stylesAt path ++ ds.map Declaration.wire ∧
      (sheet.settingsAt path).map registry.typed = ds.map Declaration.toAttribute := by
  have hadd : (i.addStylesheet registry sheet).1 = i.insertAll (RuleCall.insertions (.stylesheet registry sheet)) :=
    i.fst_add (.stylesheet registry sheet)
  rw [hadd, stylesAt_wire (insertAll_distinct _ h), stylesAt_wire h, declarationsAt_insertAll, List.map_append]
  refine ⟨_, rfl, ?_⟩
  rw [Insertion.map_toAttribute_stampAll, Stylesheet.attributes_insertions]

lemma Index.isReady_of_addStylesheet {i : Index} {registry : Registry} {sheet : Stylesheet} {ts : List Term}
    (h : (i.addStylesheet registry sheet).2 = .ok ts) : ∀ r ∈ sheet.rules, r.IsReady := by
  have hnone : (Rule.ofStyleRules registry sheet.rules).2 = none := by
    cases hfault : (Rule.ofStyleRules registry sheet.rules).2 with
    | none => rfl
    | some e =>
      have herror : (i.addStylesheet registry sheet).2 = .error e :=
        (addsReady.answer i (.stylesheet registry sheet) e).mpr hfault
      cases h.symm.trans herror
  exact Rule.ofStyleRules_snd_eq_none_iff.mp hnone

/-- A setting and what is handed on for it. -/
structure Registry.HandsOn (registry : Registry) (s : Setting) (d : WireDeclaration) : Prop where
  name : d.name = Text.camelCase s.property
  value : HandedOnAs (registry.kindOf d.name) s.value d.value

namespace Registry
variable {registry : Registry}

lemma handsOn_wire {s : Setting} {d : Declaration} (hs : s.value ≠ "") (h : registry.typed s = d.toAttribute) :
    registry.HandsOn s d.wire := by
  obtain ⟨hname, hvalue⟩ := Attribute.mk.inj h
  refine ⟨hname.symm, ?_⟩
  show HandedOnAs (registry.kindOf d.name) s.value d.value.wire
  rw [← hname, ← hvalue]
  exact registry.handedOnAs_valueOf _ hs

lemma forall₂_handsOn_wire {ss : List Setting} {ds : List Declaration} (hss : ∀ s ∈ ss, s.value ≠ "")
    (h : ss.map registry.typed = ds.map Declaration.toAttribute) :
    List.Forall₂ registry.HandsOn ss (ds.map Declaration.wire) := by
  rw [← List.forall₂_eq_eq_eq, List.forall₂_map_left_iff, List.forall₂_map_right_iff] at h
  rw [List.forall₂_map_right_iff]
  exact ((List.forall₂_and_left ss ds).mpr ⟨hss, h⟩).imp fun s d hsd => handsOn_wire hsd.1 hsd.2

lemma exists_handsOn_of_mem {ss : List Setting} {ds : List Declaration} (hss : ∀ s ∈ ss, s.value ≠ "")
    (h : ss.map registry.typed = ds.map Declaration.toAttribute) {s : Setting} (hs : s ∈ ss) :
    ∃ d ∈ ds, registry.HandsOn s d.wire := by
  have hmem : registry.typed s ∈ ds.map Declaration.toAttribute := h ▸ List.mem_map_of_mem hs
  obtain ⟨d, hd, htyped⟩ := List.mem_map.mp hmem
  exact ⟨d, hd, handsOn_wire (hss s hs) htyped.symm⟩

lemma value_of_mem_wire {ss : List Setting} {ds : List Declaration} (hss : ∀ s ∈ ss, s.value ≠ "")
    (h : ss.map registry.typed = ds.map Declaration.toAttribute) {d : WireDeclaration}
    (hd : d ∈ ds.map Declaration.wire) :
    d.value ≠ .string "" ∧ (registry.kindOf d.name = .string → ∃ v, d.value = .string v) := by
  obtain ⟨e, he, rfl⟩ := List.mem_map.mp hd
  have hmem : e.toAttribute ∈ ss.map registry.typed := h ▸ List.mem_map_of_mem he
  obtain ⟨s, hs, htyped⟩ := List.mem_map.mp hmem
  have hvalue := (handsOn_wire (hss s hs) htyped).value
  exact ⟨hvalue.ne_string_empty (hss s hs), fun hkind => ⟨s.value, hvalue.eq_string hkind⟩⟩

end Registry

/-- A text that can be read adds to each path, in what is handed on, the settings of its rules for that path, in
their order and nothing else. Each keeps its text, or is the number that its attribute's kind makes of it. So
without a number kind it is a string, and none comes from an empty text. If no rule fails, then each setting is
handed on for each selector of its rule. -/
theorem stylesheet_hands_on_typed_values (calls : List IndexCall) (registry : Registry) {text : String}
    {sheet : Stylesheet} (h : Stylesheet.parse text = .ok sheet) :
    let before := Index.empty.performAll calls
    let after := (before.addStylesheet registry sheet).1
    (∀ r ∈ sheet.rules, ∀ s ∈ r.settings, s.value ≠ "") ∧
    (∀ path, ∃ added, after.wire.stylesAt path = before.wire.stylesAt path ++ added ∧
      List.Forall₂ registry.HandsOn (sheet.settingsAt path) added ∧
      ∀ d ∈ added, d.value ≠ .string "" ∧ (registry.kindOf d.name = .string → ∃ v, d.value = .string v)) ∧
    ∀ ts, (before.addStylesheet registry sheet).2 = .ok ts → ∀ r ∈ sheet.rules, ∀ selector ∈ r.selectors,
      ∃ t, Term.ofSelector selector = .ok t ∧
        ∀ s ∈ r.settings, ∃ d ∈ after.wire.stylesAt t.path, registry.HandsOn s d := by
  intro before after
  have hwritten := Stylesheet.value_ne_of_parse h
  have hdistinct : before.root.branches.Distinct := by
    simp only [before, Index.performAll_eq]
    exact Index.insertAll_distinct _ trivial
  have hsettings (path : List Edge) : ∀ s ∈ sheet.settingsAt path, s.value ≠ "" := by
    intro s hs
    obtain ⟨r, hr, hs, -⟩ := Stylesheet.mem_settingsAt_iff.mp hs
    exact hwritten r ((List.takeWhile_sublist _).mem hr) s hs
  refine ⟨hwritten, fun path => ?_, fun ts hts r hr selector hselector => ?_⟩
  · obtain ⟨ds, hstyles, htyped⟩ := Index.exists_stylesAt_addStylesheet hdistinct registry sheet path
    exact ⟨_, hstyles, Registry.forall₂_handsOn_wire (hsettings path) htyped,
      fun d hd => Registry.value_of_mem_wire (hsettings path) htyped hd⟩
  · have hready := Index.isReady_of_addStylesheet hts
    obtain ⟨t, ht⟩ := hready r hr selector hselector
    refine ⟨t, ht, fun s hs => ?_⟩
    -- Where no rule fails, the rules before the first that does are all rules.
    have hmem : s ∈ sheet.settingsAt t.path := by
      refine Stylesheet.mem_settingsAt_iff.mpr ⟨r, ?_, hs, selector, hselector, by rw [ht]; rfl⟩
      rwa [List.takeWhile_eq_self_iff.mpr (by simpa using hready)]
    obtain ⟨ds, hstyles, htyped⟩ := Index.exists_stylesAt_addStylesheet hdistinct registry sheet t.path
    obtain ⟨d, hd, hhanded⟩ := Registry.exists_handsOn_of_mem (hsettings t.path) htyped hmem
    refine ⟨d.wire, ?_, hhanded⟩
    rw [hstyles]
    exact List.mem_append_right _ (List.mem_map_of_mem hd)

/-- A number, a zero and a word under an attribute for integers, a fraction under one for doubles, and a zero and a
blank under attributes of no kind. The last rule stands behind one that cannot be made ready. -/
theorem stylesheet_hands_on_typed_values_mixed :
    let text := "q>p,p\x7bz-index:3;z-index:-0;z-index: auto;opacity:.5;width:0;content:' '\x7d" ++
      "a::before\x7bb:c\x7dp\x7bd:e\x7d"
    let path := [.tag "p"]
    ∃ sheet added, Stylesheet.parse text = .ok sheet ∧
      (sheet.settingsAt path).map (·.value) = ["3", "-0", "auto", ".5", "0", " "] ∧
      (Index.empty.addStylesheet .standard sheet).1.wire.stylesAt path = added ∧
      added.map (·.value) = [.int 3, .double .zero, .string "auto", .double ⟨0x3FE0000000000000⟩,
        .string "0", .string " "] ∧
      List.Forall₂ Registry.standard.HandsOn (sheet.settingsAt path) added := by
  intro text path
  have hread : (Stylesheet.parse text).map (fun sheet => ((sheet.settingsAt path).map (·.value),
      ((Index.empty.addStylesheet .standard sheet).1.wire.stylesAt path).map (·.value))) =
        .ok (["3", "-0", "auto", ".5", "0", " "], [.int 3, .double .zero, .string "auto",
          .double ⟨0x3FE0000000000000⟩, .string "0", .string " "]) := by
    decide +kernel
  cases hsheet : Stylesheet.parse text with
  | error fault => simp [hsheet, Except.map] at hread
  | ok sheet =>
    rw [hsheet] at hread
    obtain ⟨hvalues, hhanded⟩ := Prod.mk.inj (Except.ok.inj hread)
    obtain ⟨added, hadded, hall, -⟩ := (stylesheet_hands_on_typed_values [] .standard hsheet).2.1 path
    have hstyles : (Index.empty.addStylesheet .standard sheet).1.wire.stylesAt path = added := hadded
    rw [hstyles] at hhanded
    exact ⟨sheet, added, rfl, hvalues, hstyles, hhanded, hall⟩

end Stylebook
