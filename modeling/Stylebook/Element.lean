import Stylebook.Ordered
import Stylebook.Text.Blank

/-! What an element is: its tag, id, classes and other attributes. -/
namespace Stylebook

structure Element where
  tag : String
  id : Option String
  /-- In the order given, without repetition. -/
  classes : List String
  /-- In increasing order of names. -/
  attributes : List (String × String)
  deriving DecidableEq

namespace Element

def ofTag (tag : String) : Element := ⟨tag, none, [], []⟩

def hasClass (e : Element) (name : String) : Bool := e.classes.contains name

/-- Adds a class unless it is empty or already there. -/
def addClass (e : Element) (name : String) : Element :=
  if name.isEmpty || e.hasClass name then e else { e with classes := e.classes ++ [name] }

/-- Replaces the classes by the words of a text. -/
def setClasses (e : Element) (text : String) : Element :=
  (Text.words text).foldl addClass { e with classes := [] }

def getAttribute? (e : Element) (name : String) : Option String := e.attributes.lookup name

def setAttribute (e : Element) (name value : String) : Element :=
  { e with attributes := Ordered.put Ordered.word Prod.fst (name, value) e.attributes }

def removeAttribute (e : Element) (name : String) : Element :=
  { e with attributes := e.attributes.filter (·.1 ≠ name) }

/-- The element as a compound selector that describes all of it. -/
def text (e : Element) : String :=
  let id := (e.id.map fun i => s!"#{i}").getD ""
  let classes := e.classes.map fun c => s!".{c}"
  let attributes := e.attributes.map fun (name, value) => s!"[{name}=\"{value}\"]"
  e.tag ++ id ++ String.join (classes ++ attributes)

end Element

end Stylebook
