import Stylebook.Specificity

/-! Selectors as they are written: simple selectors and combinators from left to right. -/
namespace Stylebook

/-- How an attribute's value is compared. -/
inductive AttributeTest
  | equals
  | includes
  | dashMatch
  | prefixMatch
  | suffixMatch
  | substringMatch
  deriving DecidableEq

namespace AttributeTest

def text : AttributeTest → String
  | equals => "="
  | includes => "~="
  | dashMatch => "|="
  | prefixMatch => "^="
  | suffixMatch => "$="
  | substringMatch => "*="

/-- The test that a character in front of the equals sign selects. -/
def ofChar? : Char → Option AttributeTest
  | '~' => some includes
  | '|' => some dashMatch
  | '^' => some prefixMatch
  | '$' => some suffixMatch
  | '*' => some substringMatch
  | _ => none

end AttributeTest

inductive Combinator
  | descendant
  | child
  | nextSibling
  | subsequentSibling
  deriving DecidableEq

namespace Combinator

def text : Combinator → String
  | descendant => "descendant"
  | child => ">"
  | nextSibling => "+"
  | subsequentSibling => "~"

end Combinator

/-- A simple selector or a combinator. -/
inductive Part
  | universal
  | typeName (name : String)
  | className (name : String)
  | id (name : String)
  | attr (name : String) (test : Option (AttributeTest × String))
  | pseudoClass (name : String) (argument : Option String)
  | pseudoElement (name : String)
  | combinator (c : Combinator)
  deriving DecidableEq

namespace Part

def isCombinator : Part → Bool
  | combinator _ => true
  | _ => false

end Part

structure Selector where
  parts : List Part
  specificity : Specificity
  /-- The selector as written, without blanks at its ends. -/
  text : String
  deriving DecidableEq

namespace Selector

def hasCombinator (s : Selector) : Bool := s.parts.any Part.isCombinator

end Selector

end Stylebook
