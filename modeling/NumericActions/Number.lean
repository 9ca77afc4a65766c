import NumericActions.Binary64.Arithmetic
import NumericActions.Binary64.Decimal

/-!
# Numbers

A number is an integer of any size or a binary64 number. Numbers are compared by their
exact places on the extended line, so an integer is never rounded for a comparison.

* `Number.lt_int`: on integers the order is the usual one.
* `Number.toBinary64`: widening, which rounds an integer and sends one that is out of
  range to the infinity of its sign.
-/

namespace NumericActions

inductive Number where
  | int (value : Int)
  | float (value : Binary64)
  deriving DecidableEq

namespace Number

/-! ## Comparison -/

/-- The exact place of a number; not-a-number has none. -/
def position : Number → Option Position
  | .int n => some (.units (n * unitsPerOne))
  | .float x => x.position

/-- `a < b`; no comparison with not-a-number holds. -/
def lt (a b : Number) : Bool :=
  match a.position, b.position with
  | some p, some q => p.lt q
  | _, _ => false

def isZero : Number → Bool
  | .int n => n == 0
  | .float x => x.eq (Binary64.zero false)

theorem lt_int (a b : Int) : lt (.int a) (.int b) = decide (a < b) := by
  have h : (0 : Int) < (unitsPerOne : Int) := by exact_mod_cast unitsPerOne_pos
  simp only [lt, position, Position.lt]
  rw [decide_eq_decide]
  exact Int.mul_lt_mul_right h

/-! ## Widening -/

/-- The nearest binary64 number, ties to even; out of range it is an infinity. -/
def toBinary64 : Number → Binary64
  | .int n => Binary64.ofInt n
  | .float x => x

/-! ## Text -/

def text : Number → String
  | .int n => toString n
  | .float x => x.text

end Number

end NumericActions
