import Stylebook.ClassNames
import Stylebook.Index
import Stylebook.Library
import Stylebook.Options
import Stylebook.Stylesheet.Parser
import Stylebook.Wire.Binary

/-! Compiling a stylesheet with all that it imports into one index. A file's imports come before its
own rules, and each file counts once. -/
namespace Stylebook

inductive CompileError
  | fault (path : Path) (f : Fault)
  | selector (path : Path) (e : TermError)
  | file (e : FileError)
  | cycle (chain : List Path)
  | preparation (path : Path) (message : String)
  deriving DecidableEq

namespace CompileError

def message : CompileError → String
  | fault path f => s!"{path.text}: {f.message}"
  | selector path e => s!"{path.text}: {e.message}"
  | file e => e.message
  | cycle chain => "Cyclic import: " ++ " -> ".intercalate (chain.map Path.text)
  | preparation path message => s!"{path.text}: preprocessing failed: {message}"

/-- The file that is to blame. -/
def path? : CompileError → Option Path
  | fault path _ => some path
  | selector path _ => some path
  | file e => some e.path
  | cycle chain => chain.getLast?
  | preparation path _ => some path

end CompileError

/-- A source made ready for parsing, and the files that were read for it. -/
structure Prepared where
  text : String
  filesRead : List Path
  deriving DecidableEq

/-- How sources are made ready; a failure is told in words. -/
abbrev Preparation := Path → String → Except String Prepared

/-- Sources are stylesheets already. -/
def Preparation.plain : Preparation := fun _ source => .ok ⟨source, []⟩

/-- What a compile has done so far. -/
structure Session where
  index : Index
  /-- The files that are done with. -/
  completed : List Path
  /-- All files read, in increasing order. -/
  dependencies : List Path
  terms : List Term
  ruleCount : Nat
  events : List Event
  deriving DecidableEq

namespace Session

def empty : Session := ⟨.empty, [], [], [], 0, []⟩

def report (s : Session) (events : List Event) : Session := { s with events := s.events ++ events }

def read (s : Session) (paths : List Path) : Session :=
  { s with dependencies := paths.foldl (fun ps p => Ordered.insert Path.lt p ps) s.dependencies }

def addRule (s : Session) (r : Rule) : Session :=
  { s with
    index := s.index.addRule r
    terms := s.terms ++ r.terms
    ruleCount := s.ruleCount + 1
    events := s.events ++ Index.ruleEvents r }

def complete (s : Session) (path : Path) : Session := { s with completed := path :: s.completed }

/-- Adds the rules of a file, up to the first that cannot be added. -/
def addRules (registry : Registry) (path : Path) (rules : List StyleRule) (s : Session) :
    Session × Except CompileError Unit :=
  match StyleRule.addAllTo addRule registry s rules with
  | (s, .error e) => (s, .error (.selector path e))
  | (s, .ok _) => (s.complete path, .ok ())

theorem addRules_eq (registry : Registry) (path : Path) (rules : List StyleRule) (s : Session) :
    s.addRules registry path rules =
      let s := (Rule.ofStyleRules registry rules).1.foldl addRule s
      match (Rule.ofStyleRules registry rules).2 with
      | some e => (s, .error (.selector path e))
      | none => (s.complete path, .ok ()) := by
  rw [addRules, StyleRule.addAllTo_eq]
  cases (Rule.ofStyleRules registry rules).2 <;> rfl

end Session

structure Compiler where
  options : Options
  library : Library
  prepare : Preparation
  workingDirectory : Path

namespace Library

def paths (l : Library) : List Path := l.files.map Prod.fst

/-- The number of files that are not among the given ones. -/
def outside (l : Library) (chain : List Path) : Nat := (l.paths.filter (· ∉ chain)).length

theorem mem_paths_of_lookup {fs : List (Path × Except String String)} {p : Path}
    {r : Except String String} (h : fs.lookup p = some r) : p ∈ fs.map Prod.fst := by
  induction fs with
  | nil => simp at h
  | cons f fs ih =>
    obtain ⟨q, t⟩ := f
    by_cases hq : p = q
    · simp [hq]
    · have hb : (p == q) = false := by simp [hq]
      simp only [List.lookup_cons, hb] at h
      simp [ih h]

theorem mem_paths_of_load {l : Library} {p : Path} {text : String} (h : l.load p = .ok text) :
    p ∈ l.paths := by
  unfold load at h
  split at h
  · simp at h
  · next hr => exact mem_paths_of_lookup hr

/-- A file that joins the chain is no longer outside it. -/
theorem outside_append_lt {l : Library} {chain : List Path} {p : Path} (hp : p ∈ l.paths)
    (hc : p ∉ chain) : l.outside (chain ++ [p]) < l.outside chain := by
  unfold outside
  have hs : (l.paths.filter (· ∉ chain ++ [p])) = (l.paths.filter (· ∉ chain)).filter (· ≠ p) := by
    rw [List.filter_filter]
    congr 1
    funext q
    by_cases h₁ : q ∈ chain <;> by_cases h₂ : q = p <;> simp [h₁, h₂]
  rw [hs]
  have hm : p ∈ l.paths.filter (· ∉ chain) := by simp [hp, hc]
  exact List.length_filter_lt_length_iff_exists.2 ⟨p, hm, by simp⟩

end Library

namespace Compiler

def registry (c : Compiler) : Registry := c.options.registry

mutual

/-- Compiles a file imported along a chain of others: its imports, then its rules. -/
def compileFile (c : Compiler) (chain : List Path) (path : Path) (source : String) (s : Session) :
    Session × Except CompileError Unit :=
  let s := s.read [path]
  match c.prepare path source with
  | .error message => (s, .error (.preparation path message))
  | .ok prepared =>
    let s := (s.read prepared.filesRead).report (Stylesheet.events prepared.text)
    match Stylesheet.parse prepared.text with
    | .error f => (s, .error (.fault path f))
    | .ok sheet =>
      match compileImports c (chain ++ [path]) path sheet.imports s with
      | (s, .error e) => (s, .error e)
      | (s, .ok ()) => s.addRules c.registry path sheet.rules
termination_by (c.library.outside (chain ++ [path]), 1, 0)

/-- Compiles the imports of the last file of a chain, one after the other. -/
def compileImports (c : Compiler) (chain : List Path) (path : Path) (imports : List Import)
    (s : Session) : Session × Except CompileError Unit :=
  match imports with
  | [] => (s, .ok ())
  | i :: rest =>
    match c.library.resolve path i.url with
    | .error e => (s, .error (.file e))
    | .ok target =>
      if _hc : target ∈ chain then (s, .error (.cycle (chain ++ [target])))
      else if target ∈ s.completed then
        compileImports c chain path rest
          (s.report [⟨.debug, s!"Skipping {target.text}, already compiled"⟩])
      else
        let s := s.report [⟨.debug, s!"Importing {target.text} from {path.text}"⟩]
        match _hl : c.library.load target with
        | .error e => (s, .error (.file e))
        | .ok text =>
          match compileFile c chain target text s with
          | (s, .error e) => (s, .error e)
          | (s, .ok ()) => compileImports c chain path rest s
termination_by (c.library.outside chain, 0, imports.length)
decreasing_by
  · exact Prod.Lex.right _ (Prod.Lex.right _ (by simp))
  · exact Prod.Lex.left _ _ (Library.outside_append_lt (Library.mem_paths_of_load _hl) _hc)
  · exact Prod.Lex.right _ (Prod.Lex.right _ (by simp))

end

/-- The result of a compile. -/
structure Compiled where
  index : Index
  dependencies : List Path
  classNames : List (String × String)
  ruleCount : Nat
  deriving DecidableEq

namespace Compiled

def wire (o : Compiled) : WireNode := o.index.wire

def bytes (o : Compiled) : List UInt8 := o.wire.toBytes

def declarationCount (o : Compiled) : Nat := o.index.declarationCount

def event (o : Compiled) : Event :=
  let counts := s!"{o.ruleCount} rules ({o.declarationCount} declarations)"
  ⟨.info, s!"Compiled {counts} from {o.dependencies.length} files into {o.bytes.length} bytes"⟩

end Compiled

/-- The path under which a given text is compiled. One that leads nowhere is taken from the working
directory. -/
def sourcePath (c : Compiler) (path : Path) : Path :=
  match c.library.resolve ⟨""⟩ path.text with
  | .ok p => p
  | .error _ => (c.workingDirectory.join path.text).normalize

/-- Compiles a text as if it were the file at a path, and tells what happened. -/
def compileSource (c : Compiler) (path : Path) (source : String) :
    Except CompileError Compiled × List Event :=
  let path := c.sourcePath path
  let start := Session.empty.report [⟨.info, s!"Compiling {path.text}"⟩]
  match c.compileFile [] path source start with
  | (s, .error e) => (.error e, s.events)
  | (s, .ok ()) =>
    let o : Compiled :=
      ⟨s.index, s.dependencies, ClassNames.ofTerms c.options.classPrefix s.terms, s.ruleCount⟩
    (.ok o, s.events ++ [o.event])

/-- Compiles the file that an entry leads to. -/
def compile (c : Compiler) (entry : String) : Except CompileError Compiled × List Event :=
  match c.library.resolve ⟨""⟩ entry with
  | .error e => (.error (.file e), [])
  | .ok path =>
    match c.library.load path with
    | .error e => (.error (.file e), [])
    | .ok source => c.compileSource path source

end Compiler

end Stylebook
