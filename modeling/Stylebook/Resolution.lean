import Stylebook.Declaration
import Stylebook.ElementTree

/-! The styles of an element: those that match it, and inherited ones from its ancestors. -/
namespace Stylebook.Resolution

/-- The inherited names that nothing sets. -/
def missing (inherited : Inherited) (own : Styles) : List String :=
  inherited.names.filter fun name => !own.contains name

/-- Takes the named declarations that another element has. -/
def take (names : List String) (upper own : Styles) : Styles :=
  names.foldl (fun s name => (upper.get? name).elim s s.insert) own

/-- The styles of the first node of a chain of parents. -/
def along (matched : NodeId → Styles) (inherited : Inherited) : List NodeId → Styles
  | [] => .empty
  | n :: above =>
    let own := matched n
    let names := missing inherited own
    if names.isEmpty then own else take names (along matched inherited above) own

/-- The part of the chain that has to be looked at: it ends where nothing inherited is missing. -/
def visited (matched : NodeId → Styles) (inherited : Inherited) : List NodeId → List NodeId
  | [] => []
  | n :: above =>
    n :: if (missing inherited (matched n)).isEmpty then [] else visited matched inherited above

/-- The styles of an element, given the styles that match each element. -/
def styles (matched : ElementTree → NodeId → Styles) (inherited : Inherited) (doc : ElementTree)
    (n : NodeId) : Styles :=
  along (matched doc) inherited (n :: doc.ancestors n)

def event? (doc : ElementTree) (n : NodeId) : Option Event :=
  (doc.element? n).map fun e => ⟨.trace, s!"Resolving styles for {e.text} ({nodeText n})"⟩

/-- What is reported while the styles of an element are found. -/
def events (matched : ElementTree → NodeId → Styles) (inherited : Inherited) (doc : ElementTree)
    (n : NodeId) : List Event :=
  (visited (matched doc) inherited (n :: doc.ancestors n)).filterMap (event? doc)

end Stylebook.Resolution
