import Stylebook.Ordered
import Stylebook.Path

/-! Where stylesheets are kept: which file an import leads to, and what is written there. -/
namespace Stylebook

/-- A file that cannot be had. -/
structure FileError where
  path : Path
  reason : String
  deriving DecidableEq

def FileError.message (e : FileError) : String := s!"{e.path.text}: {e.reason}"

structure Library where
  /-- The file that a target leads to from another file; from the empty path it is taken as it is. -/
  resolve : Path → String → Except FileError Path
  /-- What is written in the files, or why they cannot be read. -/
  files : List (Path × Except String String)

namespace Library

def load (l : Library) (p : Path) : Except FileError String :=
  match l.files.lookup p with
  | none => .error ⟨p, "no such file"⟩
  | some text => text.mapError fun reason => ⟨p, reason⟩

end Library

/-- Texts under normalized paths. -/
structure Shelf where
  files : List (Path × String)
  deriving DecidableEq

namespace Shelf

def empty : Shelf := ⟨[]⟩

/-- Puts a text under a path, instead of what was there. -/
def insert (s : Shelf) (p : Path) (text : String) : Shelf :=
  ⟨Ordered.put Path.lt Prod.fst (p.normalize, text) s.files⟩

def ofFiles (files : List (Path × String)) : Shelf := files.foldl (fun s (p, text) => s.insert p text) empty

def size (s : Shelf) : Nat := s.files.length

/-- The normalized path of a target, if there is a text under it. -/
def resolve (s : Shelf) (base : Path) (target : String) : Except FileError Path :=
  let p := (base.beside target).normalize
  if (s.files.lookup p).isSome then .ok p else .error ⟨p, "no such file"⟩

def load (s : Shelf) (p : Path) : Except FileError String :=
  match s.files.lookup p.normalize with
  | some text => .ok text
  | none => .error ⟨p, "no such file"⟩

def library (s : Shelf) : Library := ⟨s.resolve, s.files.map fun (p, text) => (p, .ok text)⟩

end Shelf

end Stylebook
