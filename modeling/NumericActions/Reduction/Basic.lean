import NumericActions.Fault.Check
import NumericActions.Fault.Strict
import NumericActions.Scalar.Elementary
import NumericActions.Summation.Basic

/-!
# Reductions

A reduction makes one result of a list of numbers. Sums are exact and rounded once;
extremes are found by exact comparison before any number is rounded. All of them but the
total need at least one number.

* `total`, `average`, `harmonicMean`, `geometricMean`: sums and means.
* `minimum`, `maximum`, `minIndex`, `maxIndex`: the first extreme and its position.
-/

namespace NumericActions

/-! ## Sums and means -/

def widened (values : List Number) : List Binary64 := values.map Number.toBinary64

def total (values : List Number) : Except Fault Binary64 := sum (widened values)

def meanOf (sum : Binary64) (count : Nat) : Except Fault Binary64 := do
  Strict.quotient sum (← Strict.ofInt count)

def average (values : List Number) : Except Fault Binary64 := do
  Check.requireNonEmpty values
  meanOf (← sum (widened values)) values.length

def harmonicMean (values : List Number) : Except Fault Binary64 := do
  Check.requireNonEmpty values
  values.forM (Check.requireNonZero "harmonic mean value")
  let reciprocals ← (widened values).mapM (Strict.quotient 1)
  let reciprocal ← sum reciprocals
  if reciprocal.eq (Binary64.zero false) then .error (.domain .vanishingReciprocals)
  else Strict.quotient (← Strict.ofInt values.length) reciprocal

/-- The average logarithm. No positive number has an infinite logarithm. -/
def meanLogarithm (library : Elementary) (values : List Number) : Except Fault Binary64 := do
  let logarithms ← (widened values).mapM (Strict.image .undefined library.log)
  meanOf (← sum logarithms) values.length

/-- The exponential of the average logarithm, which must be in range. -/
def geometricMean (library : Elementary) (values : List Number) : Except Fault Binary64 := do
  Check.requireNonEmpty values
  values.forM (Check.requirePositive "geometric mean value")
  Strict.image (.range .exponential) library.exp (← meanLogarithm library values)

/-! ## Extremes -/

/-- The first of the values that no later one is better than, beginning with `best`. -/
def firstBest (better : Number → Number → Bool) (best : Number) (values : List Number) :
    Number :=
  values.foldl (fun best value => if better value best then value else best) best

/-- The position of the first best value, when `best` at `position` is the best before
`index`. -/
def firstBestIndex (better : Number → Number → Bool) (best : Number) (position : Nat) :
    (index : Nat) → List Number → Nat
  | _, [] => position
  | index, value :: rest =>
    if better value best then firstBestIndex better value index (index + 1) rest
    else firstBestIndex better best position (index + 1) rest

/-- The best value of a list with at least one value, widened. -/
def extreme (better : Number → Number → Bool) : List Number → Except Fault Binary64
  | [] => .error (.domain .empty)
  | value :: rest => .ok (firstBest better value rest).toBinary64

def extremeIndex (better : Number → Number → Bool) : List Number → Except Fault Nat
  | [] => .error (.domain .empty)
  | value :: rest => .ok (firstBestIndex better value 0 1 rest)

def minimum : List Number → Except Fault Binary64 := extreme fun a b => a.lt b

def maximum : List Number → Except Fault Binary64 := extreme fun a b => b.lt a

def minIndex : List Number → Except Fault Nat := extremeIndex fun a b => a.lt b

def maxIndex : List Number → Except Fault Nat := extremeIndex fun a b => b.lt a

end NumericActions
