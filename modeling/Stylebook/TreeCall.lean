import Stylebook.ElementTree

/-! Calls that change a tree in place. Each leaves a tree, also one that fails: what it had done by then
stays done. -/
namespace Stylebook

/-- What can be asked of a tree. -/
inductive TreeCall
  | create (e : Element)
  | appendElement (parent : NodeId) (e : Element)
  | appendChild (parent child : NodeId)
  deriving DecidableEq

namespace TreeCall

/-- The tree that a call leaves, and its answer: the new node if there is one. -/
def perform (t : ElementTree) : TreeCall → ElementTree × Except TreeError (Option NodeId)
  | create e =>
    let (n, t) := t.create e
    (t, .ok (some n))
  | appendElement parent e =>
    let (t, answer) := t.putElement parent e
    (t, answer.map some)
  | appendChild parent child =>
    let (t, answer) := t.putChild parent child
    (t, answer.map fun () => none)

/-- One call after the other, whether they fail or not, with their answers. -/
def performAll : List TreeCall → ElementTree → ElementTree × List (Except TreeError (Option NodeId))
  | [], t => (t, [])
  | call :: calls, t =>
    let (t, answer) := perform t call
    let (t, answers) := performAll calls t
    (t, answer :: answers)

/-- The nodes that calls have made, in order. -/
def newNodes (answers : List (Except TreeError (Option NodeId))) : List NodeId :=
  answers.filterMap fun answer => answer.toOption.join

end TreeCall

end Stylebook
