import NumericActions.Fault.Check

/-!
# Reports

A computation that runs for an action is given the name of the action, and it gives the name to
every part of it that can fail on behalf of the action. The report of a failure is made where
the failure happens: its kind, its words behind the name, and the name itself. A part that is
given no name reports none.

* `Report`: what a host sees of a failure.
* `Attributed.raise`, `Attributed.unnamed`: failing with a name, and without one.
* `Attributed.requireInt64` and the others: the checks, made for an action.
* `Failure.report`: the report of a failure whose name is attributed at the end.
-/

namespace NumericActions

structure Report where
  kind : FaultKind
  message : String
  action : Option String
  deriving DecidableEq

namespace Report

/-- The words of a failure behind the name it is raised with. An empty name is not written. -/
def worded (action : Option String) (text : String) : String :=
  match action with
  | none => text
  | some name => if name.isEmpty then text else name ++ ": " ++ text

/-- A failure that is raised with a name. -/
def named (action : Option String) (kind : FaultKind) (text : String) : Report :=
  ⟨kind, worded action text, action⟩

/-- A failure that is raised without any name. -/
def unnamed (fault : Fault) : Report := ⟨fault.kind, fault.text, none⟩

end Report

/-- What a host sees of a failure. Only a failure that belongs to an action shows a name. -/
def Failure.report (failure : Failure) : Report :=
  ⟨failure.fault.kind, failure.message,
    if failure.fault.kind.namesAction then failure.action else none⟩

namespace Attributed

variable {α : Type} (action : Option String)

def raise (fault : Fault) : Except Report α := .error (.named action fault.kind fault.text)

/-- The outcome of a computation that is given no name. -/
def unnamed (x : Except Fault α) : Except Report α := x.mapError .unnamed

/-! ## Checks -/

def requireInt64 (name : String) (n : Number) : Except Report Unit :=
  if n.exceedsInt64 then raise action (.domain (.outsideInt64 name n)) else .ok ()

def fitsInt64 (quantity : Quantity) (n : Number) : Except Report Unit :=
  if n.exceedsInt64 then raise action (.domain (.overflow quantity)) else .ok ()

def requireNonNegative (name : String) (n : Number) : Except Report Unit :=
  if n.lt (.int 0) then raise action (.domain (.negative name n)) else .ok ()

def requirePositive (name : String) (n : Number) : Except Report Unit :=
  if (Number.int 0).lt n then .ok () else raise action (.domain (.notPositive name n))

def requireNonZero (name : String) (n : Number) : Except Report Unit :=
  if n.isZero then raise action (.domain (.zero name n)) else .ok ()

def requireNonEmpty {β : Type} (values : List β) : Except Report Unit :=
  if values.isEmpty then raise action (.domain .empty) else .ok ()

/-- The integer part of a number, which must be finite and fit in 64 bits. -/
def toInt64 (n : Number) : Except Report Int :=
  match n with
  | .int i => narrow i
  | .float (.finite negative m) => narrow (Binary64.truncInt negative m)
  | .float x => raise action (.domain (.notFinite x))
where
  narrow (i : Int) : Except Report Int :=
    if (Number.int i).exceedsInt64 then raise action (.domain (.tooWide n)) else .ok i

def ensureNumber (v : Value) : Except Report Number :=
  match v.number? with
  | some n => .ok n
  | none => raise action (.notANumber v)

end Attributed

end NumericActions
