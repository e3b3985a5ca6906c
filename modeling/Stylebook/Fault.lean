import Stylebook.Location

/-! What can be wrong with a stylesheet text, and where. -/
namespace Stylebook

/-- What can be wrong with an unquoted `url(…)`. -/
inductive UrlProblem
  | trailing
  | character
  | unterminated
  deriving DecidableEq

def UrlProblem.message : UrlProblem → String
  | .trailing => "Invalid url()"
  | .character => "Invalid character in url()"
  | .unterminated => "Unterminated url()"

/-- The reason why a text is refused. -/
inductive Cause
  | unexpectedEnd
  | expected (what found : String)
  | invalidSelector (text : String)
  | emptyValue (property : String)
  | unsupportedAtRule (name : String)
  | unterminatedString
  | unterminatedComment
  | invalidNumber (text : String)
  | url (problem : UrlProblem)
  deriving DecidableEq

def Cause.message : Cause → String
  | .unexpectedEnd => "Unexpected end of file"
  | .expected what found => s!"Expected {what}, found '{found}'"
  | .invalidSelector text => s!"Invalid selector '{text}'"
  | .emptyValue property => s!"Empty value for property '{property}'"
  | .unsupportedAtRule name => s!"Unsupported at-rule '@{name}'"
  | .unterminatedString => "Unterminated string"
  | .unterminatedComment => "Unterminated comment"
  | .invalidNumber text => s!"Invalid number '{text}'"
  | .url problem => s!"Parse error: {problem.message}"

structure Fault where
  cause : Cause
  place : Location
  deriving DecidableEq

def Fault.message (f : Fault) : String := s!"{f.cause.message} at {f.place.text}"

end Stylebook
