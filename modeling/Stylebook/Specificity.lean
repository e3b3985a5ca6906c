/-! The weight of a selector. -/
namespace Stylebook

/-- Counts of ids, of classes with attributes and pseudo-classes, and of types with pseudo-elements,
in words of 32 bits. -/
structure Specificity where
  ids : UInt32
  classes : UInt32
  types : UInt32
  deriving DecidableEq

namespace Specificity

def zero : Specificity := ⟨0, 0, 0⟩

instance : Inhabited Specificity := ⟨zero⟩

def add (s t : Specificity) : Specificity :=
  ⟨s.ids + t.ids, s.classes + t.classes, s.types + t.types⟩

instance : Add Specificity := ⟨add⟩

def sum (ss : List Specificity) : Specificity := ss.foldl (· + ·) zero

/-- Ids count before classes, classes before types. -/
def le (s t : Specificity) : Bool :=
  s.ids < t.ids || (s.ids == t.ids &&
    (s.classes < t.classes || (s.classes == t.classes && s.types ≤ t.types)))

/-- One number for all three counts, a byte each; a count past a byte is taken as the largest. -/
def priority (s : Specificity) : Nat :=
  min s.ids.toNat 255 * 65536 + min s.classes.toNat 255 * 256 + min s.types.toNat 255

end Specificity

end Stylebook
