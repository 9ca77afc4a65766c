import NumericActions.Fault.Basic

/-!
# Checks

The preconditions and postconditions of the numerical functions. A check fails with the
fault of its own condition and has no other effect.

* `requireInt64_int`, `requireNonNegative_int`: the conditions on integers.
-/

namespace NumericActions

def int64Min : Int := -9223372036854775808

def int64Max : Int := 9223372036854775807

/-- Whether a number is less than the least or greater than the greatest 64-bit
integer. Not-a-number is neither. -/
def Number.exceedsInt64 (n : Number) : Bool :=
  n.lt (.int int64Min) || (Number.int int64Max).lt n

namespace Check

def requireInt64 (name : String) (n : Number) : Except Fault Unit :=
  if n.exceedsInt64 then .error (.domain (.outsideInt64 name n)) else .ok ()

def fitsInt64 (quantity : Quantity) (n : Number) : Except Fault Unit :=
  if n.exceedsInt64 then .error (.domain (.overflow quantity)) else .ok ()

def requireNonNegative (name : String) (n : Number) : Except Fault Unit :=
  if n.lt (.int 0) then .error (.domain (.negative name n)) else .ok ()

/-- A value is strictly positive, which not-a-number is not. -/
def requirePositive (name : String) (n : Number) : Except Fault Unit :=
  if (Number.int 0).lt n then .ok () else .error (.domain (.notPositive name n))

def requireNonZero (name : String) (n : Number) : Except Fault Unit :=
  if n.isZero then .error (.domain (.zero name n)) else .ok ()

def requireNonEmpty {α : Type} (values : List α) : Except Fault Unit :=
  if values.isEmpty then .error (.domain .empty) else .ok ()

/-- Whether two numbers agree up to tolerances, which must not be negative. -/
def isClose (a b relative absolute : Binary64) : Except Fault Bool :=
  match Binary64.isClose? a b relative absolute with
  | some close => .ok close
  | none => .error (.misuse .negativeTolerance)

end Check

/-! ## Narrowing -/

/-- The integer part of a number, which must be finite and fit in 64 bits. -/
def Number.toInt64 (n : Number) : Except Fault Int :=
  match n with
  | .int i => narrow i
  | .float (.finite negative m) => narrow (Binary64.truncInt negative m)
  | .float x => .error (.domain (.notFinite x))
where
  narrow (i : Int) : Except Fault Int :=
    if (Number.int i).exceedsInt64 then .error (.domain (.tooWide n)) else .ok i

/-! ## Conditions on integers -/

theorem Number.exceedsInt64_int (n : Int) :
    (Number.int n).exceedsInt64 = decide (n < int64Min ∨ int64Max < n) := by
  simp [Number.exceedsInt64, Number.lt_int]

theorem Number.toInt64_int (n : Int) :
    (Number.int n).toInt64 =
      if n < int64Min ∨ int64Max < n then .error (.domain (.tooWide (.int n))) else .ok n := by
  simp [Number.toInt64, Number.toInt64.narrow, Number.exceedsInt64_int]

theorem Check.requireNonNegative_int (name : String) (n : Int) :
    Check.requireNonNegative name (.int n) =
      if n < 0 then .error (.domain (.negative name (.int n))) else .ok () := by
  simp [Check.requireNonNegative, Number.lt_int]

theorem Check.requireInt64_int (name : String) (n : Int) :
    Check.requireInt64 name (.int n) =
      if n < int64Min ∨ int64Max < n then .error (.domain (.outsideInt64 name (.int n)))
      else .ok () := by
  simp [Check.requireInt64, Number.exceedsInt64_int]

theorem Check.fitsInt64_int (quantity : Quantity) (n : Int) :
    Check.fitsInt64 quantity (.int n) =
      if n < int64Min ∨ int64Max < n then .error (.domain (.overflow quantity))
      else .ok () := by
  simp [Check.fitsInt64, Number.exceedsInt64_int]

end NumericActions
