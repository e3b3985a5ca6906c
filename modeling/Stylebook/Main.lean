import Stylebook.CommandLine

/-! The command line on the files of the machine. All that a compile may look at is gathered first. -/
namespace Stylebook.Machine

/-- The number that the system gives a failure, and its words. -/
def particulars : IO.Error → Option (UInt32 × String)
  | .noFileOrDirectory _ code details => some (code, details)
  | .inappropriateType _ code details => some (code, details)
  | .permissionDenied _ code details => some (code, details)
  | .invalidArgument _ code details => some (code, details)
  | .resourceExhausted _ code details => some (code, details)
  | .alreadyExists _ code details => some (code, details)
  | .noSuchThing _ code details => some (code, details)
  | .interrupted _ code details => some (code, details)
  | .otherError code details => some (code, details)
  | .resourceBusy code details => some (code, details)
  | .resourceVanished code details => some (code, details)
  | .unsupportedOperation code details => some (code, details)
  | .hardwareFault code details => some (code, details)
  | .unsatisfiedConstraints code details => some (code, details)
  | .illegalOperation code details => some (code, details)
  | .protocolError code details => some (code, details)
  | .timeExpired code details => some (code, details)
  | .unexpectedEof => none
  | .userError _ => none

/-- The words for a failure. The number may come with its sign turned round. -/
def reason (e : IO.Error) : String :=
  match particulars e with
  | none => toString e
  | some (code, details) =>
    let number := code.toInt32.toInt.natAbs
    match number with
    | 2 => Trouble.message .notFound
    | 20 => Trouble.message .notFolder
    | 21 => Trouble.message .isFolder
    | 36 => Trouble.message .nameTooLong
    | _ => s!"{details.capitalize} (os error {number})"

def attempt {α : Type} (act : IO α) : IO (Except String α) := do
  try return .ok (← act) catch e => return .error (reason e)

def read (p : Path) : IO (Except String String) := do
  match ← attempt (IO.FS.readBinFile p.text) with
  | .error r => return .error r
  | .ok bytes => return (Disk.textOf bytes.data.toList).mapError Trouble.message

/-- The place that a path leads to. Reading tells more exactly than looking why there is none. -/
def resolve (p : Path) : IO (Except FileError Path) := do
  if p.text.isEmpty then return .error ⟨p, Trouble.message .notFound⟩
  match ← attempt (IO.FS.realPath p.text) with
  | .ok found => return .ok ⟨found.toString⟩
  | .error general =>
    match ← attempt (IO.FS.readBinFile p.text) with
    | .error exact => return .error ⟨p, exact⟩
    | .ok _ => return .error ⟨p, general⟩

/-- What is known about the files: where targets lead, and what is written there. -/
structure Findings where
  targets : List ((Path × String) × Except FileError Path)
  files : List (Path × Except String String)

def Findings.library (f : Findings) : Library where
  resolve base target :=
    match f.targets.lookup (base, target) with
    | some found => found
    | none => .error ⟨base.beside target, Trouble.message .notFound⟩
  files := f.files

/-- Follows targets through the imports of the files they lead to. -/
partial def gather (f : Findings) : List (Path × String) → IO Findings
  | [] => return f
  | (base, target) :: rest => do
    if (f.targets.lookup (base, target)).isSome then gather f rest
    else
      let found ← resolve (base.beside target)
      let f := { f with targets := ((base, target), found) :: f.targets }
      match found with
      | .error _ => gather f rest
      | .ok path =>
        if (f.files.lookup path).isSome then gather f rest
        else
          let text ← read path
          let f := { f with files := (path, text) :: f.files }
          let imports := match text.toOption.map Stylesheet.parse with
            | some (.ok sheet) => sheet.imports.map fun i => (path, i.url)
            | _ => []
          gather f (imports ++ rest)

def write (p : Path) (bytes : List UInt8) : IO (Except String Unit) :=
  attempt (IO.FS.writeBinFile p.text ⟨bytes.toArray⟩)

def carryOut (r : CommandLine.Request) : IO CommandLine.Outcome := do
  let config ← match r.config with
    | some p => read ⟨p⟩
    | none => pure (.ok "")
  match r.options fun _ => config with
  | .error message => return .failed message
  | .ok o =>
    let findings ← gather ⟨[], []⟩ [(⟨""⟩, r.input)]
    match r.compile o findings.library ⟨(← IO.currentDir).toString⟩ with
    | .error message => return .failed message
    | .ok result => return r.conclude result (← write r.outputPath result.bytes)

def run (program : String) (args : List String) : IO CommandLine.Outcome := do
  match CommandLine.parse args with
  | .ok (.compile r) => carryOut r
  | _ => return (CommandLine.run program args ⟨[], []⟩).1

end Stylebook.Machine

def main (args : List String) : IO UInt32 := do
  let outcome ← Stylebook.Machine.run "stylec" args
  IO.print outcome.stdout
  IO.eprint outcome.stderr
  return if outcome.success then 0 else 1
