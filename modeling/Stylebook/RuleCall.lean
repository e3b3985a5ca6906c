import Stylebook.Arena
import Stylebook.Cascade

/-! Calls that add rules in place. Each leaves a state, also one that fails: what it had added by then
stays. -/
namespace Stylebook

/-- What can be asked of all that takes rules. -/
inductive RuleCall
  | rule (registry : Registry) (r : StyleRule)
  | stylesheet (registry : Registry) (sheet : Stylesheet)
  deriving DecidableEq

/-- What can be asked of an index besides: to put attributes under a selector with any weight. -/
inductive IndexCall
  | insert (attributes : List Attribute) (t : Term) (s : Specificity)
  | add (call : RuleCall)
  deriving DecidableEq

namespace Arena

def add (a : Arena) : RuleCall → Arena × Except TermError (List Term)
  | .rule registry r => r.addTo addRule registry a
  | .stylesheet registry sheet => a.addStylesheet registry sheet

def perform (a : Arena) : IndexCall → Arena × Except TermError (List Term)
  | .insert attributes t s => (a.insert attributes t s, .ok [])
  | .add call => a.add call

/-- What calls leave, whether they fail or not. -/
def performAll (a : Arena) (calls : List IndexCall) : Arena := calls.foldl (fun a call => (a.perform call).1) a

end Arena

namespace Index

def add (i : Index) : RuleCall → Index × Except TermError (List Term)
  | .rule registry r => r.addTo addRule registry i
  | .stylesheet registry sheet => i.addStylesheet registry sheet

def perform (i : Index) : IndexCall → Index × Except TermError (List Term)
  | .insert attributes t s => (i.insert attributes t s, .ok [])
  | .add call => i.add call

def performAll (i : Index) (calls : List IndexCall) : Index := calls.foldl (fun i call => (i.perform call).1) i

end Index

namespace Cascade

/-- The cascade does not give back the selectors. -/
def add (c : Cascade) : RuleCall → Cascade × Except TermError Unit
  | .rule registry r =>
    let (c, answer) := r.addTo addRule registry c
    (c, answer.map fun _ => ())
  | .stylesheet registry sheet => c.addStylesheet registry sheet

def addAll (c : Cascade) (calls : List RuleCall) : Cascade := calls.foldl (fun c call => (c.add call).1) c

end Cascade

end Stylebook
