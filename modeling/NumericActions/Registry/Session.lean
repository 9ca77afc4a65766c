import NumericActions.Registry.Invocation

/-!
# Sessions

A session is a registry and a sink that live through a sequence of requests. A request
that is turned down changes neither of them.

* `Session.register`, `Session.execute`: the two requests that change something.
* `Session.executeAll`: a sequence of executions.
* `execute_registry`: executions leave the registry as it is.
-/

namespace NumericActions

structure Session where
  registry : Registry
  sink : List Value

namespace Session

def register (session : Session) (action : Action) : Except Fault Session := do
  return { session with registry := ← session.registry.register action }

def execute (session : Session) (invocation : Invocation) : Except Failure Unit × Session :=
  let (outcome, sink) := session.registry.execute invocation session.sink
  (outcome, { session with sink })

/-- The outcomes of a sequence of invocations and the session behind it. -/
def executeAll (session : Session) :
    List Invocation → List (Except Failure Unit) × Session
  | [] => ([], session)
  | invocation :: rest =>
    let (outcome, session) := session.execute invocation
    let (outcomes, session) := session.executeAll rest
    (outcome :: outcomes, session)

/-- What has come to the sink since it had a given length. -/
def added (session : Session) (length : Nat) : List Value := session.sink.drop length

theorem execute_registry (session : Session) (invocation : Invocation) :
    (session.execute invocation).2.registry = session.registry := rfl

end Session

end NumericActions
