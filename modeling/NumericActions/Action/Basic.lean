import NumericActions.Action.Spec
import NumericActions.Grouping.Discipline

/-!
# Actions

An action has a name and a method: a way of grouping the numbers of its arguments and a
function of a group. It computes all its results before it delivers any, so a failing
action delivers nothing.

* `Action.of?`: the action of a method and of values for its specification.
* `Action.results`: the results on a list of arguments.
* `Action.execute`: the results put at the end of a sink.
* `execute_of_ok`, `execute_of_error`: a sink grows by all results or stays as it is.
* `results_of_length_lt`: too few arguments are a fault whatever they contain.
* `results_eq_ok_iff`: there are results on enough arguments on which the method has them.
-/

namespace NumericActions

/-! ## Methods -/

/-- A way of grouping numbers with a function of a group. -/
inductive Method where
  | elementwise (f : Number → Except Fault Value)
  | windowed (window : Window) (f : List Number → Except Fault Value)
  | aggregate (f : List Number → Except Fault Value)
  /-- a function of the parameters and one more number, all of them widened -/
  | parameterized (layout : ParameterLayout) (f : List Binary64 → Except Fault Value)

namespace Method

def discipline : Method → Discipline
  | .elementwise _ => .elementwise
  | .windowed _ _ => .windowed
  | .aggregate _ => .aggregate
  | .parameterized _ _ => .parameterized

/-- The least number of arguments of an action that states none. -/
def defaultMinimum : Method → Int
  | .elementwise _ => 1
  | .windowed window _ => window.size
  | .aggregate _ => 1
  | .parameterized layout _ => layout.count

/-- The stated least number of arguments. For windows and parameters a null states
none. -/
def minimum (method : Method) : Option Value → Value
  | none => .int method.defaultMinimum
  | some .null =>
    match method with
    | .windowed _ _ => .int method.defaultMinimum
    | .parameterized _ _ => .int method.defaultMinimum
    | _ => .null
  | some v => v

def evaluate : Method → List Value → Except Fault (List Value)
  | .elementwise f, arguments => NumericActions.elementwise f arguments
  | .windowed window f, arguments => NumericActions.windowed window f arguments
  | .aggregate f, arguments => do
    return [← NumericActions.aggregate f arguments]
  | .parameterized layout f, arguments =>
    NumericActions.parameterized layout
      (fun parameters value => f ((parameters ++ [value]).map Number.toBinary64)) arguments

end Method

/-! ## Actions -/

structure Action where
  name : ActionName
  minimalArguments : Nat
  description : String
  method : Method

namespace Action

def of? (method : Method) (name minimalArguments description : Value) :
    Except (List FieldError) Action := do
  let spec ← ActionSpec.ofFields?
    [("name", name), ("minimal_arguments", minimalArguments),
     ("discipline", .text method.discipline.name), ("description", description)]
  return ⟨spec.name, spec.minimalArguments, spec.description, method⟩

def spec (action : Action) : ActionSpec :=
  ⟨action.name, action.minimalArguments, action.method.discipline, action.description⟩

/-- The name of an action behind the kind of action it is. -/
def label (action : Action) : String :=
  let kind := match action.method.discipline with
    | .elementwise => "ElementwiseAction"
    | .windowed => "WindowedAction"
    | .aggregate => "AggregateAction"
    | .parameterized => "ParameterizedAction"
  kind ++ "(" ++ Text.quoted action.name.text ++ ")"

/-! ## Execution -/

/-- The results on a list of arguments, which must not be too short. -/
def results (action : Action) (arguments : List Value) : Except Fault (List Value) :=
  if arguments.length < action.minimalArguments then
    .error (.tooFewArguments action.minimalArguments arguments.length)
  else action.method.evaluate arguments

/-- The results, a fault being attributed to the action. -/
def call (action : Action) (arguments : List Value) : Except Failure (List Value) :=
  Fault.attributed (some action.name.text) (action.results arguments)

/-- The outcome and the sink behind it. The hint that results may be computed side by
side has no influence. -/
def execute (action : Action) (_parallel : Bool) (arguments sink : List Value) :
    Except Failure Unit × List Value :=
  match action.call arguments with
  | .ok results => (.ok (), sink ++ results)
  | .error failure => (.error failure, sink)

theorem execute_of_ok {action : Action} {arguments results : List Value}
    (h : action.call arguments = .ok results) (parallel : Bool) (sink : List Value) :
    action.execute parallel arguments sink = (.ok (), sink ++ results) := by
  simp [execute, h]

theorem execute_of_error {action : Action} {arguments : List Value} {failure : Failure}
    (h : action.call arguments = .error failure) (parallel : Bool) (sink : List Value) :
    action.execute parallel arguments sink = (.error failure, sink) := by
  simp [execute, h]

theorem results_of_length_lt {action : Action} {arguments : List Value}
    (h : arguments.length < action.minimalArguments) :
    action.results arguments =
      .error (.tooFewArguments action.minimalArguments arguments.length) := by
  simp [results, h]

theorem results_of_le_length {action : Action} {arguments : List Value}
    (h : action.minimalArguments ≤ arguments.length) :
    action.results arguments = action.method.evaluate arguments := by
  simp [results, Nat.not_lt.mpr h]

theorem results_eq_ok_iff {action : Action} {arguments results : List Value} :
    action.results arguments = .ok results ↔
      action.minimalArguments ≤ arguments.length ∧ action.method.evaluate arguments = .ok results := by
  by_cases hlength : arguments.length < action.minimalArguments
  · rw [results_of_length_lt hlength]
    exact ⟨nofun, fun h => absurd hlength (Nat.not_lt.mpr h.1)⟩
  · have hle := Nat.le_of_not_lt hlength
    rw [results_of_le_length hle]
    exact ⟨fun h => ⟨hle, h⟩, fun h => h.2⟩

end Action

end NumericActions
