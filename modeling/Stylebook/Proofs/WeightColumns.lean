import Mathlib.Data.List.Basic
import Stylebook.Index
import Stylebook.Selector

/-! The columns of a weight. Every simple selector, and every predicate of an element, counts in at most one of
them, and a weight is the number of entries in each. -/
namespace Stylebook

inductive Column
  | ids
  | classes
  | types
  deriving DecidableEq

/-- Where a part counts. The universal selector and the combinators count nowhere. -/
def Part.column? : Part → Option Column
  | id _ => some .ids
  | className _ | attr _ _ | pseudoClass _ _ => some .classes
  | typeName _ | pseudoElement _ => some .types
  | universal | combinator _ => none

/-- Where a predicate counts. Steps to other elements count nowhere. -/
def Edge.column? : Edge → Option Column
  | id _ => some .ids
  | className _ | attr _ _ | firstChild | lastChild | nthChild _ => some .classes
  | tag _ => some .types
  | parent | ancestor => none

namespace Specificity

/-- The number of entries in each column, in words of 32 bits. -/
def ofColumns (cs : List Column) : Specificity :=
  ⟨.ofNat (cs.count .ids), .ofNat (cs.count .classes), .ofNat (cs.count .types)⟩

variable {cs ds : List Column}

lemma add_def (s t : Specificity) : s + t = ⟨s.ids + t.ids, s.classes + t.classes, s.types + t.types⟩ := rfl

lemma add_assoc (s t u : Specificity) : s + t + u = s + (t + u) := by
  simp only [add_def, UInt32.add_assoc]

@[simp] lemma zero_add (s : Specificity) : zero + s = s := by
  simp [add_def, zero]

@[simp] lemma add_zero (s : Specificity) : s + zero = s := by
  simp [add_def, zero]

lemma ofColumns_append (cs ds : List Column) : ofColumns (cs ++ ds) = ofColumns cs + ofColumns ds := by
  simp only [ofColumns, List.count_append, UInt32.ofNat_add, add_def]

lemma ofColumns_congr (h : cs.Perm ds) : ofColumns cs = ofColumns ds := by
  simp only [ofColumns, h.count_eq]

lemma foldl_ofColumns (s : Specificity) (css : List (List Column)) :
    (css.map ofColumns).foldl (· + ·) s = s + ofColumns css.flatten := by
  induction css generalizing s with
  | nil => exact s.add_zero.symm
  | cons cs css ih => rw [List.map_cons, List.foldl_cons, ih, List.flatten_cons, ofColumns_append, add_assoc]

/-- Every entry stands in one of the columns. -/
lemma length_eq_counts (cs : List Column) : cs.length = cs.count .ids + cs.count .classes + cs.count .types := by
  induction cs with
  | nil => rfl
  | cons c cs ih => cases c <;> simp [ih] <;> omega

/-- The counts fit into words. -/
def Fits (cs : List Column) : Prop := ∀ c, cs.count c < UInt32.size

namespace Fits

lemma of_sublist (h : Fits ds) (hsub : cs.Sublist ds) : Fits cs := fun c => Nat.lt_of_le_of_lt (hsub.count_le c) (h c)

lemma toNat_eq (h : Fits cs) : (ofColumns cs).ids.toNat = cs.count .ids ∧
    (ofColumns cs).classes.toNat = cs.count .classes ∧ (ofColumns cs).types.toNat = cs.count .types :=
  ⟨UInt32.toNat_ofNat_of_lt' (h _), UInt32.toNat_ofNat_of_lt' (h _), UInt32.toNat_ofNat_of_lt' (h _)⟩

lemma ofColumns_le (h : Fits ds) (hsub : cs.Sublist ds) :
    (ofColumns cs).ids ≤ (ofColumns ds).ids ∧ (ofColumns cs).classes ≤ (ofColumns ds).classes ∧
      (ofColumns cs).types ≤ (ofColumns ds).types := by
  obtain ⟨hids, hclasses, htypes⟩ := h.toNat_eq
  obtain ⟨hids', hclasses', htypes'⟩ := (h.of_sublist hsub).toNat_eq
  simp only [UInt32.le_iff_toNat_le, hids, hclasses, htypes, hids', hclasses', htypes']
  exact ⟨hsub.count_le _, hsub.count_le _, hsub.count_le _⟩

/-- Whatever is left out lowers the weight. -/
lemma ofColumns_eq_iff (h : Fits ds) (hsub : cs.Sublist ds) : ofColumns cs = ofColumns ds ↔ cs = ds := by
  refine ⟨fun heq => hsub.eq_of_length ?_, fun heq => by rw [heq]⟩
  obtain ⟨hids, hclasses, htypes⟩ := h.toNat_eq
  obtain ⟨hids', hclasses', htypes'⟩ := (h.of_sublist hsub).toNat_eq
  rw [length_eq_counts cs, length_eq_counts ds, ← hids, ← hclasses, ← htypes, ← hids', ← hclasses', ← htypes', heq]

end Fits

end Specificity

/-- What parts weigh together. -/
def Part.tally (ps : List Part) : Specificity := .ofColumns (ps.filterMap Part.column?)

namespace Part
variable (p : Part) (ps qs : List Part)

@[simp] lemma tally_nil : tally [] = .zero := rfl

lemma tally_append : tally (ps ++ qs) = tally ps + tally qs := by
  rw [tally, List.filterMap_append, Specificity.ofColumns_append, tally, tally]

lemma tally_cons : tally (p :: ps) = tally [p] + tally ps := tally_append [p] ps

/-- A part with what it weighs. -/
def weighed : Part × Specificity := (p, tally [p])

/-- One in its column. -/
lemma weighed_eq : p.weighed = (p, match p.column? with
    | some .ids => ⟨1, 0, 0⟩
    | some .classes => ⟨0, 1, 0⟩
    | some .types => ⟨0, 0, 1⟩
    | none => .zero) := by
  cases p <;> rfl

lemma tally_combinator_cons (c : Combinator) : tally (combinator c :: ps) = tally ps := rfl

end Part

end Stylebook
