import NumericActions.Registry.Basic

/-!
# Invocations

An invocation names an action and gives its arguments. A host may state it as a value,
which must then obey the contract of invocations.

* `Registry.invoke`: the results of an invocation.
* `Invocation.readBy`: the invocation that a value states, by any validator.
* `Registry.invokeValueBy`: both, so no action runs on a value that breaks the contract.
* `Registry.invokeValue`: the same by the evaluation of the contract.
-/

namespace NumericActions

structure Invocation where
  action : String
  arguments : List Value
  parallel : Bool

namespace Registry

def execute (registry : Registry) (invocation : Invocation) (sink : List Value) :
    Except Failure Unit × List Value :=
  match registry.get invocation.action with
  | .error failure => (.error failure, sink)
  | .ok action => action.execute invocation.parallel invocation.arguments sink

def invoke (registry : Registry) (invocation : Invocation) : Except Failure (List Value) :=
  match registry.execute invocation [] with
  | (.ok _, results) => .ok results
  | (.error failure, _) => .error failure

end Registry

namespace Invocation

def textOf (entries : List (String × Value)) (key : String) : String :=
  match entries.lookup key with
  | some (.text s) => s
  | _ => ""

def itemsOf (entries : List (String × Value)) (key : String) : List Value :=
  match entries.lookup key with
  | some (.list vs) => vs
  | _ => []

def flagOf (entries : List (String × Value)) (key : String) : Bool :=
  match entries.lookup key with
  | some (.bool b) => b
  | _ => false

def ofEntries (entries : List (String × Value)) : Invocation :=
  ⟨textOf entries "action", itemsOf entries "arguments", flagOf entries "parallel"⟩

def ofValue : Value → Invocation
  | .dict entries => ofEntries entries
  | _ => ofEntries []

/-- The invocation that a value states, or the first violation of the contract. -/
def readBy {ε : Type} (V : Validator ε) (value : Value) :
    Except ε (Except Violation Invocation) := do
  let verdict ← Contract.invocation.checkBy V value
  return verdict.map fun _ => ofValue value

end Invocation

namespace Registry

/-- A breakdown of the validator is handed on; nothing is invoked then. -/
def invokeValueBy {ε : Type} (V : Validator ε) (registry : Registry) (value : Value) :
    Except ε (Except Rejection (List Value)) := do
  let stated ← Invocation.readBy V value
  return do
    let invocation ← stated.mapError .violation
    (registry.invoke invocation).mapError .failure

def invokeValue (registry : Registry) (value : Value) : Except Rejection (List Value) :=
  certain (registry.invokeValueBy .standard value)

theorem invokeValueBy_standard (registry : Registry) (value : Value) :
    registry.invokeValueBy .standard value = .ok (registry.invokeValue value) :=
  eq_ok_certain _

end Registry

end NumericActions
