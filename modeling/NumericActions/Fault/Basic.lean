import NumericActions.Fault.Signature
import NumericActions.Value.Basic

/-!
# Faults

A fault is the cause for which a computation has no result. It does not know the action
that was running: an action is named once, where a computation is left, by `Failure`.

* `Fault.text`: the wording of every cause.
* `FaultKind.families`: the broader families of a kind of fault.
* `Failure.message`: the wording with the name of the action in front.
-/

namespace NumericActions

/-! ## Causes -/

/-- An integer result that must fit in 64 bits. -/
inductive Quantity where
  | factorial (n : Int)
  | binomial (n k : Int)
  | stirling (n k : Int)
  | nextPrime
  | named (name : String)

def Quantity.text : Quantity → String
  | .factorial n => s!"{n}!"
  | .binomial n k => s!"C({n}, {k})"
  | .stirling n k => s!"S({n}, {k})"
  | .nextPrime => "next prime"
  | .named name => name

/-- A numerical precondition that does not hold. -/
inductive DomainFault where
  /-- an infinity or not-a-number where an integer is needed -/
  | notFinite (value : Binary64)
  /-- a number whose integer part does not fit in 64 bits -/
  | tooWide (value : Number)
  /-- a named argument outside the 64-bit integers -/
  | outsideInt64 (name : String) (value : Number)
  | negative (name : String) (value : Number)
  | notPositive (name : String) (value : Number)
  | zero (name : String) (value : Number)
  /-- a result that does not fit in 64 bits -/
  | overflow (quantity : Quantity)
  /-- no number to reduce -/
  | empty
  /-- reciprocals that add up to zero -/
  | vanishingReciprocals

def DomainFault.text : DomainFault → String
  | .notFinite value => "cannot narrow non-finite value " ++ value.text ++ " to int"
  | .tooWide value => "cannot narrow " ++ value.text ++ " to a 64-bit integer"
  | .outsideInt64 name value =>
    name ++ " is outside the 64-bit integer domain, got " ++ value.text
  | .negative name value => name ++ " must be non-negative, got " ++ value.text
  | .notPositive name value => name ++ " must be positive, got " ++ value.text
  | .zero name value => name ++ " must be non-zero, got " ++ value.text
  | .overflow quantity => quantity.text ++ " overflows a 64-bit integer"
  | .empty => "requires at least one numeric value"
  | .vanishingReciprocals => "sum of reciprocals is zero"

/-- A request that no data could satisfy, such as an empty window. -/
inductive Misuse where
  | windowSize (size : Int)
  | windowStep (step : Int)
  /-- a stream is asked for more elements at once than it can count -/
  | advance
  /-- a number of elements to skip that is negative or cannot be counted -/
  | skip
  | duplicateAction (name : String)
  | negativeTolerance

def Misuse.text : Misuse → String
  | .windowSize size => s!"window size must be >= 1, got {size}"
  | .windowStep step => s!"window step must be >= 1, got {step}"
  | .advance =>
    "Stop argument for islice() must be None or an integer: 0 <= x <= sys.maxsize."
  | .skip => "Indices for islice() must be None or an integer: 0 <= x <= sys.maxsize."
  | .duplicateAction name => "action " ++ Text.quoted name ++ " is already registered"
  | .negativeTolerance => "tolerances must be non-negative"

/-- A result of real arithmetic that leaves the range of binary64 where no infinity is
allowed to stand for it. -/
inductive RangeFault where
  | exponential
  | sum
  /-- an integer that is to be used as a binary64 number -/
  | conversion

def RangeFault.text : RangeFault → String
  | .exponential => "math range error"
  | .sum => "intermediate overflow in fsum"
  | .conversion => "int too large to convert to float"

inductive FaultKind where
  | general
  | arity
  | termType
  | domain
  | unknownAction
  | misuse
  | range
  | division
  | undefined
  | lookup
  | call
  deriving DecidableEq

inductive Fault where
  | tooFewArguments (required actual : Int)
  /-- a leaf that is neither a number nor a sequence -/
  | invalidTerm (value : Value)
  /-- a value in the place of a single number -/
  | notANumber (value : Value)
  /-- a value in the place of the parameter with this index -/
  | invalidParameter (index : Nat) (value : Value)
  | domain (cause : DomainFault)
  | unknownAction
  | misuse (cause : Misuse)
  | range (cause : RangeFault)
  /-- a quotient by zero where no special value is allowed to stand for it -/
  | division
  /-- an argument at which a function of real numbers has no value -/
  | undefined
  /-- a column that is read from a row without it -/
  | missingColumn (column : Nat)
  /-- a function is called with another number of values than it has parameters -/
  | argumentCount (signature : Signature) (given : Nat)
  /-- a fault that a host reports in its own words -/
  | stated (kind : FaultKind) (text : String)

/-! ## Wording -/

namespace Fault

def kind : Fault → FaultKind
  | .tooFewArguments _ _ => .arity
  | .invalidTerm _ => .termType
  | .notANumber _ => .termType
  | .invalidParameter _ _ => .termType
  | .domain _ => .domain
  | .unknownAction => .unknownAction
  | .misuse _ => .misuse
  | .range _ => .range
  | .division => .division
  | .undefined => .undefined
  | .missingColumn _ => .lookup
  | .argumentCount _ _ => .call
  | .stated kind _ => kind

def described (value : Value) : String := value.typeName ++ ": " ++ value.literal

def text : Fault → String
  | .tooFewArguments required actual =>
    s!"requires at least {required} argument(s), got {actual}"
  | .invalidTerm value => "term must be a number or a sequence, got " ++ described value
  | .notANumber value => "expected a number, got " ++ described value
  | .invalidParameter index value =>
    s!"parameter #{index} " ++ "expected a number, got " ++ described value
  | .domain cause => cause.text
  | .unknownAction => "unknown action"
  | .misuse cause => cause.text
  | .range cause => cause.text
  | .division => "float division by zero"
  | .undefined => "math domain error"
  | .missingColumn column => toString column
  | .argumentCount signature given => signature.mismatchText given
  | .stated _ text => text

end Fault

/-! ## Kinds and families -/

/-- The families that a kind of fault can belong to beside its own. -/
inductive FaultFamily where
  | action
  | type
  | value
  | key
  | lookup

namespace FaultKind

/-- The families of a kind, the most general one of a chain last. -/
def families : FaultKind → List FaultFamily
  | .general => [.action]
  | .arity => [.action]
  | .termType => [.action, .type]
  | .domain => [.action, .value]
  | .unknownAction => [.action, .key, .lookup]
  | .misuse => [.value]
  | .range => []
  | .division => []
  | .undefined => [.value]
  | .lookup => [.key, .lookup]
  | .call => [.type]

/-- Whether a fault of this kind belongs to an action and is named for it. -/
def namesAction : FaultKind → Bool
  | .misuse => false
  | .range => false
  | .division => false
  | .undefined => false
  | .lookup => false
  | .call => false
  | _ => true

end FaultKind

/-! ## Failures -/

/-- A fault and the action it is attributed to. -/
structure Failure where
  fault : Fault
  action : Option String

namespace Failure

/-- The wording, behind the name of the action when there is one. -/
def message (f : Failure) : String :=
  match f.action with
  | none => f.fault.text
  | some name =>
    if f.fault.kind.namesAction && !name.isEmpty then name ++ ": " ++ f.fault.text
    else f.fault.text

/-- A fault of an action is reported behind the name of the action, unless that is empty. -/
theorem message_of_namesAction {fault : Fault} (h : fault.kind.namesAction = true)
    (action : Option String) :
    (⟨fault, action⟩ : Failure).message =
      (action.filter fun name => !name.isEmpty).elim "" (· ++ ": ") ++ fault.text := by
  unfold message
  cases action with
  | none => exact String.empty_append.symm
  | some name => cases hn : name.isEmpty <;> simp [hn, h, Option.filter]

end Failure

/-- Attributes the fault of a computation to an action. -/
def Fault.attributed {α : Type} (action : Option String) (x : Except Fault α) :
    Except Failure α :=
  x.mapError fun fault => ⟨fault, action⟩

end NumericActions
