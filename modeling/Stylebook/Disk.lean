import Stylebook.Library

/-! Files in folders, as a program meets them: what a path leads to, what is read there, and what is
left after writing. -/
namespace Stylebook

/-- Why a file cannot be read or written. -/
inductive Trouble
  | notFound
  | notFolder
  | isFolder
  | nameTooLong
  | zeroInPath
  | notText
  deriving DecidableEq

def Trouble.message : Trouble → String
  | notFound => "No such file or directory (os error 2)"
  | notFolder => "Not a directory (os error 20)"
  | isFolder => "Is a directory (os error 21)"
  | nameTooLong => "File name too long (os error 36)"
  | zeroInPath => "file name contained an unexpected NUL byte"
  | notText => "stream did not contain valid UTF-8"

/-- A place is reached from the root through these names. -/
abbrev Place := List String

def Place.path (p : Place) : Path := .ofComponents (.root :: p.map .name)

/-- The place with all that it lies in, from the root on. -/
def Place.within (p : Place) : List Place := (List.range (p.length + 1)).map fun n => p.take n

/-- Files by their places. Folders are there as far as files or the working directory need them. -/
structure Disk where
  files : List (Place × List UInt8)
  workingDirectory : Place
  deriving DecidableEq

namespace Disk

def folders (d : Disk) : List Place :=
  d.workingDirectory.within ++ d.files.flatMap fun (p, _) => Place.within p.dropLast

def isFolder (d : Disk) (p : Place) : Bool := d.folders.contains p

def file? (d : Disk) (p : Place) : Option (List UInt8) := d.files.lookup p

def isPlace (d : Disk) (p : Place) : Bool := (d.file? p).isSome || d.isFolder p

/-- One piece of a path, followed from a folder. Nothing and a single dot stay, two dots go up, and
above the root is the root. -/
def step (d : Disk) (p : Place) (piece : List Char) : Except Trouble Place :=
  if !d.isFolder p then .error .notFolder
  else if piece = [] ∨ piece = ['.'] then .ok p
  else if piece = ['.', '.'] then .ok p.dropLast
  else
    let name := String.ofList piece
    if 255 < name.utf8ByteSize then .error .nameTooLong
    else if d.isPlace (p ++ [name]) then .ok (p ++ [name])
    else .error .notFound

def walk (d : Disk) (start : Place) (pieces : List (List Char)) : Except Trouble Place :=
  pieces.foldlM d.step start

/-- Paths that do not start at the root start at the working directory. -/
def start (d : Disk) (p : Path) : Place := if p.isAbsolute then [] else d.workingDirectory

/-- Why a path cannot be a path at all. -/
def malformed? (p : Path) : Option Trouble :=
  if p.text.contains '\x00' then some .zeroInPath
  else if p.text.isEmpty then some .notFound
  else none

/-- The longest text of a path that can be opened, in bytes. -/
def longestPath : Nat := 4095

/-- Why a path cannot be opened, wherever it leads. Following a path name by name knows no limit on
the whole of its text, opening it does. -/
def unopenable? (p : Path) : Option Trouble :=
  (malformed? p).or (if longestPath < p.text.utf8ByteSize then some .nameTooLong else none)

/-- The place that a path leads to. Slashes and dots at its end ask for a folder. -/
def resolve (d : Disk) (p : Path) : Except Trouble Place :=
  match malformed? p with
  | some t => .error t
  | none => d.walk (d.start p) (Path.pieces p.text.toList)

def textOf (bytes : List UInt8) : Except Trouble String :=
  match String.fromUTF8? ⟨bytes.toArray⟩ with
  | some s => .ok s
  | none => .error .notText

def readPlace (d : Disk) (p : Place) : Except Trouble String :=
  match d.file? p with
  | some bytes => textOf bytes
  | none => .error (if d.isFolder p then .isFolder else .notFound)

def read (d : Disk) (p : Path) : Except Trouble String :=
  match unopenable? p with
  | some t => .error t
  | none => d.resolve p >>= d.readPlace

/-- Puts bytes in a place, instead of what was there. -/
def put (d : Disk) (p : Place) (bytes : List UInt8) : Disk :=
  if (d.file? p).isSome then
    { d with files := d.files.map fun (q, old) => (q, if q = p then bytes else old) }
  else { d with files := d.files ++ [(p, bytes)] }

/-- The folder and the name in it that a path to be written gives. A path that ends in a slash or in
dots can only be a folder. -/
def target (d : Disk) (p : Path) : Except Trouble Place :=
  match unopenable? p with
  | some t => .error t
  | none =>
    let pieces := Path.pieces p.text.toList
    match (pieces.reverse.dropWhile List.isEmpty) with
    | [] => .error .isFolder
    | last :: outer => do
      let folder ← d.walk (d.start p) outer.reverse
      if !d.isFolder folder then .error .notFolder
      else if last = ['.'] ∨ last = ['.', '.'] ∨ pieces.getLast? = some [] then .error .isFolder
      else
        let name := String.ofList last
        if 255 < name.utf8ByteSize then .error .nameTooLong
        else if d.isFolder (folder ++ [name]) then .error .isFolder
        else .ok (folder ++ [name])

def write (d : Disk) (p : Path) (bytes : List UInt8) : Except Trouble Disk :=
  (d.target p).map fun place => d.put place bytes

/-- The stylesheets on a disk. A target leads to a place, and is named as joined if it does not. -/
def library (d : Disk) : Library where
  resolve base target :=
    let p := base.beside target
    match d.resolve p with
    | .ok place => .ok place.path
    | .error t => .error ⟨p, t.message⟩
  files := (d.files.map Prod.fst ++ d.folders).map fun p =>
    (p.path, (d.readPlace p).mapError Trouble.message)

end Disk

end Stylebook
