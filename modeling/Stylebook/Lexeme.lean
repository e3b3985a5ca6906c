import Stylebook.Fault
import Stylebook.Token

/-! Tokens together with the source they were read from and the place they were read at. -/
namespace Stylebook

structure Lexeme where
  token : Token
  /-- The comments skipped in front of the token. -/
  gap : List Char
  /-- The characters of the token itself. -/
  text : List Char
  /-- The place where the gap begins. -/
  before : Location
  deriving DecidableEq

namespace Lexeme

/-- The place of the token's first character. -/
def start (l : Lexeme) : Location := l.before.past l.gap

/-- The place behind the token. -/
def after (l : Lexeme) : Location := l.start.past l.text

/-- All characters the lexeme stands for. -/
def source (l : Lexeme) : List Char := l.gap ++ l.text

/-- What is read at the end once the end has been read. -/
def again (l : Lexeme) : Lexeme := ⟨.eof, [], [], l.after⟩

end Lexeme

/-- One step through a text, with its place. -/
inductive Reading
  | lexeme (l : Lexeme)
  | fault (f : Fault) (after : Location)

namespace Reading

/-- Whether the end has been read. -/
def isEnd : Reading → Bool
  | lexeme l => l.token = .eof
  | fault _ _ => false

/-- The lexemes in front of the first fault, and that fault. -/
def untilFault : List Reading → List Lexeme × Option Fault
  | [] => ([], none)
  | .fault f _ :: _ => ([], some f)
  | .lexeme l :: rest =>
    let (ls, first) := untilFault rest
    (l :: ls, first)

end Reading

end Stylebook
