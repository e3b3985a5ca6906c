import Stylebook.Term

/-! Bringing a selector into canonical form, where that exists. -/
namespace Stylebook

/-- Why a selector has no canonical form. -/
inductive TermError
  | unknownPseudoClass (name : String)
  | unsupportedPseudoElement (name : String)
  | unsupportedCombinator (c : Combinator)
  | invalidNthChild (argument : String)
  | superfluousArgument (name : String)
  | missingArgument (name : String)
  | unsupportedAttribute (name : String) (test : Option AttributeTest)
  | conflictingTags (selector : String)
  deriving DecidableEq

def TermError.message : TermError → String
  | unknownPseudoClass name => s!"Unknown pseudo-class ':{name}'"
  | unsupportedPseudoElement name => s!"Unsupported pseudo-element '::{name}'"
  | unsupportedCombinator c => s!"Unsupported combinator '{c.text}'"
  | invalidNthChild argument => s!"Invalid nth-child argument '{argument}'"
  | superfluousArgument name => s!"Pseudo-class ':{name}' takes no argument"
  | missingArgument name => s!"Pseudo-class ':{name}' requires an argument"
  | unsupportedAttribute name test =>
    let sign := (test.map AttributeTest.text).getD ""
    s!"Unsupported attribute selector '[{name}{sign}]': only '=' is supported"
  | conflictingTags selector => s!"Selector '{selector}' has more than one tag"

namespace Compound

def addTag (c : Compound) (tag selector : String) : Except TermError Compound :=
  match c.tag with
  | some other => if other = tag then .ok c else .error (.conflictingTags selector)
  | none => .ok { c with tag := some tag }

def addAttribute (c : Compound) (name : String) :
    Option (AttributeTest × String) → Except TermError Compound
  | some (.equals, value) =>
    .ok { c with attributes :=
      Ordered.insert (Ordered.pair Ordered.word Ordered.word) (name, value) c.attributes }
  | some (test, _) => .error (.unsupportedAttribute name (some test))
  | none => .error (.unsupportedAttribute name none)

def addNth (c : Compound) (argument : String) : Except TermError Compound :=
  match NthChild.parse? argument with
  | some n => .ok { c with nths := Ordered.insert NthChild.lt n c.nths }
  | none => .error (.invalidNthChild (Text.trimString argument))

def addPseudoClass (c : Compound) : String → Option String → Except TermError Compound
  | "first-child", none => .ok { c with firstChild := true }
  | "last-child", none => .ok { c with lastChild := true }
  | "nth-child", some argument => c.addNth argument
  | "first-child", some _ => .error (.superfluousArgument "first-child")
  | "last-child", some _ => .error (.superfluousArgument "last-child")
  | "nth-child", none => .error (.missingArgument "nth-child")
  | name, _ => .error (.unknownPseudoClass name)

/-- The compound with one more predicate. Only a compound with two different tags contradicts
itself; `selector` is the text to name in that case. -/
def add (selector : String) (c : Compound) : Part → Except TermError Compound
  | .universal => .ok c
  | .typeName name => c.addTag name selector
  | .id name => .ok { c with ids := Ordered.insert Ordered.word name c.ids }
  | .className name => .ok { c with classes := Ordered.insert Ordered.word name c.classes }
  | .attr name test => c.addAttribute name test
  | .pseudoClass name argument => c.addPseudoClass name argument
  | .pseudoElement name => .error (.unsupportedPseudoElement name)
  | .combinator k => .error (.unsupportedCombinator k)

end Compound

namespace Term

def link? : Combinator → Option Link
  | .child => some .child
  | .descendant => some .descendant
  | _ => none

/-- The chain after one more part of a selector. -/
def add (selector : String) (t : Term) : Part → Except TermError Term
  | .combinator k =>
    match link? k with
    | some link => .ok (t.extend link)
    | none => .error (.unsupportedCombinator k)
  | part => do return { t with head := ← t.head.add selector part }

/-- The canonical form of a selector. -/
def ofSelector (s : Selector) : Except TermError Term :=
  s.parts.foldlM (add s.text) ⟨.universal, []⟩

/-- The canonical forms of a list of selectors, if all have one. -/
def ofSelectors (ss : List Selector) : Except TermError (List Term) := ss.mapM ofSelector

end Term

end Stylebook
