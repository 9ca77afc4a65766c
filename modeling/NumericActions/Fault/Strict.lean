import NumericActions.Fault.Basic

/-!
# Strict arithmetic

Binary64 arithmetic has a special result for everything. Strict arithmetic has none of its
own: where a special result would appear without a special operand, it is a fault.

* `Strict.ofInt`: an integer out of range is a fault.
* `Strict.quotient`: a quotient by zero is a fault, whatever is divided.
* `Strict.image`: a function value that appears from nowhere is a fault.
-/

namespace NumericActions.Strict

/-- The nearest binary64 number to an integer, which must be in range. -/
def ofInt (n : Int) : Except Fault Binary64 :=
  let x := Binary64.ofInt n
  if x.isInfinite then .error (.range .conversion) else .ok x

/-- The quotient by a number that is not zero. -/
def quotient (a b : Binary64) : Except Fault Binary64 :=
  if b.eq (Binary64.zero false) then .error .division else .ok (a / b)

/-- The value of a function. Not-a-number must come from itself, and an infinity of a
finite argument is the given fault. -/
def image (infinite : Fault) (f : Binary64 → Binary64) (x : Binary64) : Except Fault Binary64 :=
  let y := f x
  if y.isNaN && !x.isNaN then .error .undefined
  else if y.isInfinite && x.isFinite then .error infinite
  else .ok y

end NumericActions.Strict
