/-! Paths of files: names divided by slashes. -/
namespace Stylebook

/-- What a path is made of. Only the first component can be the root or the place where one is. -/
inductive Component
  | root
  | here
  | up
  | name (s : String)
  deriving DecidableEq

namespace Component

/-- What stands between slashes for a component; the root is the slash itself. -/
def piece : Component → List Char
  | root => []
  | here => ['.']
  | up => ['.', '.']
  | name s => s.toList

/-- The root comes first and names last, in their own order. -/
def lt : Component → Component → Bool
  | root, root => false
  | root, _ => true
  | _, root => false
  | here, here => false
  | here, _ => true
  | _, here => false
  | up, up => false
  | up, _ => true
  | _, up => false
  | name a, name b => a < b

/-- A piece between slashes. Empty pieces and single dots do not count. -/
def ofPiece? (piece : List Char) : Option Component :=
  if piece = [] ∨ piece = ['.'] then none
  else if piece = ['.', '.'] then some up
  else some (name (String.ofList piece))

end Component

structure Path where
  text : String
  deriving DecidableEq

namespace Path

/-- The text between slashes, empty pieces among it. -/
def pieces : List Char → List (List Char)
  | [] => [[]]
  | c :: cs =>
    if c = '/' then [] :: pieces cs
    else match pieces cs with
      | [] => [[c]]
      | p :: ps => (c :: p) :: ps

def isAbsolute (p : Path) : Bool := p.text.toList.head? == some '/'

/-- The components of a path. A dot at its start counts, others do not. -/
def components (p : Path) : List Component :=
  let ps := pieces p.text.toList
  let rest := ps.filterMap Component.ofPiece?
  if p.isAbsolute then .root :: rest
  else if ps.head? = some ['.'] then .here :: rest
  else rest

/-- Pieces with a slash between each two. -/
def joined : List (List Char) → List Char
  | [] => []
  | [p] => p
  | p :: ps => p ++ '/' :: joined ps

theorem pieces_ne_nil (cs : List Char) : pieces cs ≠ [] := by
  cases cs with
  | nil => simp [pieces]
  | cons c cs =>
    simp only [pieces]
    split
    · simp
    · split <;> simp

/-- Cutting at slashes loses nothing. -/
@[simp] theorem joined_pieces (cs : List Char) : joined (pieces cs) = cs := by
  induction cs with
  | nil => rfl
  | cons c cs ih =>
    simp only [pieces]
    split
    · next hc =>
      cases hp : pieces cs with
      | nil => exact absurd hp (pieces_ne_nil cs)
      | cons p ps => simp [joined, ← hp, ih, hc]
    · split
      · next hp => exact absurd hp (pieces_ne_nil cs)
      · next p ps hp =>
        rw [hp] at ih
        cases ps with
        | nil => simpa [joined] using ih
        | cons q qs => simpa [joined] using ih

def ofComponents : List Component → Path
  | .root :: cs => ⟨String.ofList ('/' :: joined (cs.map Component.piece))⟩
  | cs => ⟨String.ofList (joined (cs.map Component.piece))⟩

/-- Paths are ordered by their components. -/
def lt (p q : Path) : Bool := List.lex p.components q.components Component.lt

/-- The path without its last component. The root and the empty path have no parent. -/
def parent? (p : Path) : Option Path :=
  match p.components.reverse with
  | [] => none
  | .root :: _ => none
  | _ :: rest => some (ofComponents rest.reverse)

/-- The target as seen from a directory; an absolute one is what it is. -/
def join (dir : Path) (target : String) : Path :=
  if (Path.mk target).isAbsolute then ⟨target⟩
  else if dir.text.isEmpty || dir.text.toList.getLast? == some '/' then ⟨dir.text ++ target⟩
  else ⟨dir.text ++ "/" ++ target⟩

/-- The target as seen from a file. -/
def beside (file : Path) (target : String) : Path :=
  match file.parent? with
  | some dir => dir.join target
  | none => ⟨target⟩

/-- Follows one component from a place given last component first. A step up undoes the last component,
also one that itself goes up; from the root or from nowhere it is kept. -/
def follow (place : List Component) : Component → List Component
  | .here => place
  | .up =>
    match place with
    | [] => [.up]
    | .root :: _ => .up :: place
    | _ :: outer => outer
  | c => c :: place

/-- The path with dots and steps up resolved without regard to what exists. -/
def normalize (p : Path) : Path := ofComponents (p.components.foldl follow []).reverse

end Path

end Stylebook
