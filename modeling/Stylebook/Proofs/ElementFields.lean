import Stylebook.Element
import Stylebook.Proofs.OrderedList

/-! The classes and attributes of an element. Whatever changes are made, no class is listed twice and the
attributes stand in increasing order of their names, so that there is one of each name at most. -/
namespace Stylebook.Element

/-- The lists of an element are as its description says. -/
structure Tidy (e : Element) : Prop where
  classes : e.classes.Nodup
  named : "" ∉ e.classes
  attributes : e.attributes.Pairwise (fun a b => a.1 < b.1)

variable {e : Element}

lemma tidy_ofTag (tag : String) : (ofTag tag).Tidy := ⟨.nil, List.not_mem_nil, .nil⟩

lemma mem_classes_addClass {name c : String} :
    c ∈ (e.addClass name).classes ↔ c ∈ e.classes ∨ c = name ∧ name ≠ "" := by
  unfold addClass
  split_ifs with hskip
  · simp only [hasClass, Bool.or_eq_true, String.isEmpty_iff, List.contains_iff_mem] at hskip
    refine ⟨.inl, fun h => ?_⟩
    rcases h with hc | ⟨rfl, hne⟩
    · exact hc
    · exact hskip.resolve_left hne
  · simp only [hasClass, Bool.or_eq_true, String.isEmpty_iff, List.contains_iff_mem, not_or] at hskip
    simp [hskip.1]

lemma Tidy.addClass (h : e.Tidy) (name : String) : (e.addClass name).Tidy := by
  refine ⟨?_, fun hmem => ?_, ?_⟩
  · unfold Element.addClass
    split_ifs with hskip
    · exact h.classes
    · simp only [hasClass, Bool.or_eq_true, List.contains_iff_mem, not_or] at hskip
      exact List.nodup_append_comm.mp (List.nodup_cons.mpr ⟨hskip.2, h.classes⟩)
  · rcases mem_classes_addClass.mp hmem with hmem | ⟨rfl, hne⟩
    · exact h.named hmem
    · exact hne rfl
  · unfold Element.addClass
    split_ifs <;> exact h.attributes

lemma Tidy.foldl_addClass (h : e.Tidy) (names : List String) : (names.foldl Element.addClass e).Tidy := by
  induction names generalizing e with
  | nil => exact h
  | cons name names ih => exact ih (h.addClass name)

lemma Tidy.setClasses (h : e.Tidy) (text : String) : (e.setClasses text).Tidy := by
  have hbare : Tidy { e with classes := [] } := ⟨.nil, List.not_mem_nil, h.attributes⟩
  exact hbare.foldl_addClass _

lemma Tidy.setAttribute (h : e.Tidy) (name value : String) : (e.setAttribute name value).Tidy :=
  ⟨h.classes, h.named, Ordered.pairwise_put Prod.fst Ordered.word_iff (name, value) h.attributes⟩

lemma Tidy.removeAttribute (h : e.Tidy) (name : String) : (e.removeAttribute name).Tidy :=
  ⟨h.classes, h.named, h.attributes.filter _⟩

/-- Elements made from a tag by the operations on elements. -/
inductive Made : Element → Prop
  | ofTag (tag : String) : Made (ofTag tag)
  | setId {e : Element} (id : Option String) (he : Made e) : Made { e with id := id }
  | addClass {e : Element} (name : String) (he : Made e) : Made (e.addClass name)
  | setClasses {e : Element} (text : String) (he : Made e) : Made (e.setClasses text)
  | setAttribute {e : Element} (name value : String) (he : Made e) : Made (e.setAttribute name value)
  | removeAttribute {e : Element} (name : String) (he : Made e) : Made (e.removeAttribute name)

theorem Made.tidy (h : e.Made) : e.Tidy := by
  induction h with
  | ofTag tag => exact tidy_ofTag tag
  | setId id _ ih => exact ⟨ih.classes, ih.named, ih.attributes⟩
  | addClass name _ ih => exact ih.addClass name
  | setClasses text _ ih => exact ih.setClasses text
  | setAttribute name value _ ih => exact ih.setAttribute name value
  | removeAttribute name _ ih => exact ih.removeAttribute name

end Stylebook.Element
