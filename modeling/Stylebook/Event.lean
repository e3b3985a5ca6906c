/-! What happens along the way, as lines of a log. -/
namespace Stylebook

inductive Level
  | trace
  | debug
  | info
  | warn
  deriving DecidableEq

structure Event where
  level : Level
  message : String
  deriving DecidableEq

namespace Event

def levelName : Level → String
  | .trace => "TRACE"
  | .debug => "DEBUG"
  | .info => "INFO"
  | .warn => "WARN"

def line (e : Event) : String := s!"{levelName e.level} {e.message}"

end Event

end Stylebook
