import Stylebook.Event
import Stylebook.Location
import Stylebook.Selector

/-! Stylesheets: imports of others, and rules that give properties to what their selectors match. -/
namespace Stylebook

structure Import where
  /-- The target as written. -/
  url : String
  place : Location
  deriving DecidableEq

/-- A property with its value as written. A value that is a single string has lost its quotes. -/
structure Setting where
  property : String
  value : String
  important : Bool
  deriving DecidableEq

structure StyleRule where
  selectors : List Selector
  settings : List Setting
  place : Location
  deriving DecidableEq

structure Stylesheet where
  imports : List Import
  rules : List StyleRule
  deriving DecidableEq

/-- A statement at the top of a stylesheet. -/
inductive Statement
  | importing (i : Import)
  | rule (r : StyleRule)
  deriving DecidableEq

namespace Statement

def import? : Statement → Option Import
  | importing i => some i
  | rule _ => none

def rule? : Statement → Option StyleRule
  | importing _ => none
  | rule r => some r

end Statement

namespace Stylesheet

def ofStatements (ss : List Statement) : Stylesheet :=
  ⟨ss.filterMap Statement.import?, ss.filterMap Statement.rule?⟩

/-- The number of settings of all rules. -/
def settingCount (s : Stylesheet) : Nat := (s.rules.flatMap (·.settings)).length

end Stylesheet

end Stylebook
