import ConstantFlow.Propagation

/-!
# Named facts

Several facts side by side, each under a name and each changed on its own. An action may read one
fact and change another, and both may be the same: a fact can be overwritten with itself, joined
into itself, and transferred in place.
-/

namespace ConstantFlow

/-- Facts by name. -/
structure FactStore where
  facts : List (String × Fact)
deriving DecidableEq, Repr, Inhabited

namespace FactStore

/-- The store without facts. -/
def empty : FactStore where
  facts := []

/-- The fact of a name. -/
def get? (s : FactStore) (name : String) : Option Fact :=
  s.facts.lookup name

/-- The store with `f` under a name, in place of what was there. -/
def set (s : FactStore) (name : String) (f : Fact) : FactStore where
  facts := Entries.put name f s.facts

/-- What can be done with the facts of a store. -/
inductive Action where
  | make (name : String) (bindings : List (Var × Value))
  | update (name : String) (x : Var) (v : Value)
  | remove (name : String) (x : Var)
  | overwrite (name source : String)
  | copy (name target : String)
  | clear (name : String)
  | join (name source : String)
  | transfer (code : Stmt) (input output : String)
deriving DecidableEq, Repr

/-- What an action reports. -/
inductive Answer where
  | done
  | changed (flag : Bool)
  | removed (old : Option Value)
deriving DecidableEq, Repr

/-- The store after an action, with the report of the action. There is none if a name that the
action reads stands for no fact. -/
def perform (s : FactStore) : Action → Option (FactStore × Answer)
  | .make name bindings => some (s.set name (.ofList bindings), .done)
  | .update name x v => do
    let (f, changed) := (← s.get? name).update x v
    return (s.set name f, .changed changed)
  | .remove name x => do
    let (f, old) := (← s.get? name).remove x
    return (s.set name f, .removed old)
  | .overwrite name source => do
    let (f, changed) := (← s.get? name).overwrite (← s.get? source)
    return (s.set name f, .changed changed)
  | .copy name target => do
    return (s.set target (← s.get? name), .done)
  | .clear name => do
    let _ ← s.get? name
    return (s.set name .empty, .done)
  | .join name source => do
    return (s.set name ((← s.get? name).join (← s.get? source)), .done)
  | .transfer code input output => do
    let arriving ← s.get? input
    let left ← s.get? output
    let (f, changed) :=
      if input = output then Propagation.transferInPlace code arriving
      else Propagation.transfer code arriving left
    return (s.set output f, .changed changed)

/-- The store after a list of actions, if each of them finds the facts that it reads. -/
def run (s : FactStore) : List Action → Option FactStore
  | [] => some s
  | a :: actions => do
    let (s, _) ← s.perform a
    s.run actions

end FactStore

end ConstantFlow
