import Stylebook.Compile
import Stylebook.Disk
import Stylebook.Wire.Text

/-! The program: its arguments, what it prints and what it writes. -/
namespace Stylebook.CommandLine

def version : String := "0.1.0"

structure Request where
  input : String
  output : Option String
  config : Option String
  json : Bool
  deps : Bool
  classes : Bool
  deriving DecidableEq

inductive Command
  | help
  | version
  | compile (r : Request)
  deriving DecidableEq

/-- The arguments read so far; the input comes in its turn. -/
structure Draft where
  input : Option String
  output : Option String
  config : Option String
  json : Bool
  deps : Bool
  classes : Bool

def Draft.empty : Draft := ⟨none, none, none, false, false, false⟩

def isOption (arg : String) : Bool :=
  match arg.toList with
  | '-' :: _ :: _ => true
  | _ => false

/-- Arguments are taken from left to right. A later value of an option counts instead of an earlier
one, and the first of help, version and mistakes ends the reading. -/
def parseFrom (d : Draft) : List String → Except String Command
  | [] =>
    match d.input with
    | none => .error "No input file given"
    | some input => .ok (.compile ⟨input, d.output, d.config, d.json, d.deps, d.classes⟩)
  | arg :: rest =>
    if arg = "--help" ∨ arg = "-h" then .ok .help
    else if arg = "--version" ∨ arg = "-V" then .ok .version
    else if arg = "-o" ∨ arg = "--output" then
      match rest with
      | [] => .error s!"{arg} requires a path"
      | value :: rest => parseFrom { d with output := some value } rest
    else if arg = "--config" then
      match rest with
      | [] => .error "--config requires a path"
      | value :: rest => parseFrom { d with config := some value } rest
    else if arg = "--json" then parseFrom { d with json := true } rest
    else if arg = "--deps" then parseFrom { d with deps := true } rest
    else if arg = "--classes" then parseFrom { d with classes := true } rest
    else if isOption arg then .error s!"Unknown option: {arg}"
    else if d.input.isSome then .error s!"Unexpected argument: {arg}"
    else parseFrom { d with input := some arg } rest

def parse (args : List String) : Except String Command := parseFrom .empty args

def lines (ls : List String) : String := String.join (ls.map (· ++ "\n"))

def usage (program : String) : String :=
  lines [
    s!"stylec {version} - Stylesheet compiler",
    "",
    "USAGE:",
    s!"    {program} <INPUT> [OPTIONS]",
    "",
    "OPTIONS:",
    "    -h, --help            Print this help message",
    "    -V, --version         Print version information",
    "    -o, --output <PATH>   Write the compiled tree to PATH (default: <INPUT>.stylec)",
    "    --config <PATH>       Read compile options from a JSON file",
    "    --json                Print the compiled tree as JSON",
    "    --deps                Print every file the compile read",
    "    --classes             Print the generated class identifiers",
    "",
    "EXAMPLES:",
    s!"    {program} styles/main.css",
    s!"    {program} styles/main.css -o build/main.stylec --deps",
    "",
    ""]

/-- How a run ends. -/
structure Outcome where
  success : Bool
  stdout : String
  stderr : String
  deriving DecidableEq

namespace Outcome

def done (stdout : String) : Outcome := ⟨true, stdout, ""⟩

def failed (message : String) : Outcome := ⟨false, "", lines ["Error: " ++ message]⟩

/-- Wrong arguments bring the usage too. -/
def misused (program message : String) : Outcome := { failed message with stdout := usage program }

end Outcome

namespace Request

/-- The file that the result goes to. -/
def outputPath (r : Request) : Path := ⟨r.output.getD (r.input ++ ".stylec")⟩

/-- The options, given how reading the file that holds them went. -/
def options (r : Request) (read : Path → Except String String) : Except String Options :=
  match r.config with
  | none => .ok .standard
  | some config =>
    match read ⟨config⟩ with
    | .error reason => .error (FileError.message ⟨⟨config⟩, reason⟩)
    | .ok text =>
      match Options.ofText? text with
      | some o => .ok o
      | none => .error "Invalid configuration: these are no compile options"

def compile (o : Options) (l : Library) (workingDirectory : Path) (r : Request) :
    Except String Compiler.Compiled :=
  (Compiler.compile ⟨o, l, .plain, workingDirectory⟩ r.input).1.mapError CompileError.message

/-- What is printed about a result, in the order of tree, files and classes. -/
def report (r : Request) (o : Compiler.Compiled) : String :=
  lines ((if r.json then [o.wire.text] else []) ++
    (if r.deps then o.dependencies.map Path.text else []) ++
    (if r.classes then o.classNames.map fun (name, identifier) => s!"{name} {identifier}" else []))

/-- How the run ends once the result was, or was not, written. -/
def conclude (r : Request) (o : Compiler.Compiled) (written : Except String Unit) : Outcome :=
  match written with
  | .ok () => .done (r.report o)
  | .error reason => .failed (FileError.message ⟨r.outputPath, reason⟩)

/-- Carries out a request on a disk. -/
def run (r : Request) (d : Disk) : Outcome × Disk :=
  let result := do
    let o ← r.options fun p => (d.read p).mapError Trouble.message
    r.compile o d.library d.workingDirectory.path
  match result with
  | .error message => (.failed message, d)
  | .ok o =>
    match d.write r.outputPath o.bytes with
    | .error t => (r.conclude o (.error t.message), d)
    | .ok d => (r.conclude o (.ok ()), d)

end Request

/-- The whole program on a disk. -/
def run (program : String) (args : List String) (d : Disk) : Outcome × Disk :=
  match parse args with
  | .error message => (.misused program message, d)
  | .ok .help => (.done (usage program), d)
  | .ok .version => (.done (lines [s!"stylec {version}"]), d)
  | .ok (.compile r) => r.run d

end Stylebook.CommandLine
