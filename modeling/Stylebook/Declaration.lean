import Stylebook.Attribute

/-! Attributes with their weight in the cascade, and the strongest of each name. -/
namespace Stylebook

structure Declaration where
  name : String
  value : Value
  /-- The packed specificity of the selector. -/
  priority : Int
  /-- The position among all declarations of a compile. -/
  order : Int
  deriving DecidableEq

namespace Declaration

/-- Declarations are told apart by their order. -/
def id (d : Declaration) : Int := d.order

/-- The stronger selector wins, then the later declaration. -/
def cascade (a b : Declaration) : Ordering :=
  (compare a.priority b.priority).then (compare a.order b.order)

/-- The attributes of one selector, stamped from `first` on. -/
def stamp (priority : Int) : Int → List Attribute → List Declaration
  | _, [] => []
  | first, a :: as => ⟨a.name, a.value, priority, first⟩ :: stamp priority (first + 1) as

@[simp] theorem length_stamp (priority first : Int) (as : List Attribute) :
    (stamp priority first as).length = as.length := by
  induction as generalizing first with
  | nil => rfl
  | cons a as ih => simp [stamp, ih]

end Declaration

/-- At most one declaration for each name, in increasing order of names. -/
structure Styles where
  entries : List Declaration
  deriving DecidableEq

namespace Styles

def empty : Styles := ⟨[]⟩

def get? (s : Styles) (name : String) : Option Declaration := s.entries.find? (·.name == name)

def contains (s : Styles) (name : String) : Bool := (s.get? name).isSome

def insert (s : Styles) (d : Declaration) : Styles :=
  ⟨Ordered.put Ordered.word Declaration.name d s.entries⟩

/-- Keeps the stronger of a declaration and the one of the same name. -/
def merge (s : Styles) (d : Declaration) : Styles :=
  match s.get? d.name with
  | some current => if current.cascade d = .lt then s.insert d else s
  | none => s.insert d

/-- The strongest declaration of each name. -/
def strongest (ds : List Declaration) : Styles := ds.foldl merge empty

end Styles

end Stylebook
