import NumericActions.Fault.Check

/-!
# Factorials and binomial coefficients

Both are computed in the 64-bit integers and fail when a result does not fit. The
arguments are checked before anything is computed.

* `factorial`: the product of the first integers; the largest argument is 20.
* `binomial`: the multiplicative formula, over the smaller of the two lower indices.
-/

namespace NumericActions

/-! ## Factorials -/

/-- The largest argument whose factorial fits in 64 bits. -/
def maxFactorialArgument : Int := 20

def factorialProduct : Nat → Nat
  | 0 => 1
  | n + 1 => factorialProduct n * (n + 1)

def factorial (n : Int) : Except Fault Int := do
  Check.requireNonNegative "n" (.int n)
  if maxFactorialArgument < n then .error (.domain (.overflow (.factorial n)))
  else .ok (factorialProduct n.toNat)

theorem factorial_eq (n : Int) :
    factorial n =
      if n < 0 then .error (.domain (.negative "n" (.int n)))
      else if maxFactorialArgument < n then .error (.domain (.overflow (.factorial n)))
      else .ok (factorialProduct n.toNat) := by
  unfold factorial
  rw [Check.requireNonNegative_int]
  by_cases h : n < 0
  · rw [if_pos h, if_pos h]
    rfl
  · rw [if_neg h, if_neg h]
    rfl

/-! ## Binomial coefficients -/

/-- Two arguments that are 64-bit integers and not negative. -/
def requireIndices (n k : Int) : Except Fault Unit := do
  Check.requireInt64 "n" (.int n)
  Check.requireInt64 "k" (.int k)
  Check.requireNonNegative "n" (.int n)
  Check.requireNonNegative "k" (.int k)

/-- So many steps of the multiplicative formula, when `done` of them have led to
`result`. The result of every step must fit in 64 bits. -/
def binomialSteps (quantity : Quantity) (n : Nat) :
    (steps done : Nat) → (result : Nat) → Except Fault Nat
  | 0, _, result => .ok result
  | steps + 1, done, result => do
    let result := result * (n - done) / (done + 1)
    Check.fitsInt64 quantity (.int result)
    binomialSteps quantity n steps (done + 1) result

def binomial (n k : Int) : Except Fault Int := do
  requireIndices n k
  if n < k then .ok 0
  else
    let result ← binomialSteps (.binomial n k) n.toNat (min k.toNat (n.toNat - k.toNat)) 0 1
    return result

end NumericActions
