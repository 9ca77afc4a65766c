import NumericActions.Attribution.Report
import NumericActions.Combinatorics.Stirling
import NumericActions.Primes.Factorization
import NumericActions.Reduction.Basic

/-!
# Functions that run for an action

The functions of integers and the reductions, with the name of the action they run for. The name
goes to every check that they make, and to the functions they call. Arithmetic that fails on its
own is given no name.

* `Attributed.factorial`, `Attributed.binomial`, `Attributed.stirling`: combinatorics; next to
  the diagonal a Stirling number hands its name on to a binomial coefficient.
* `Attributed.isPrime`, `Attributed.nextPrime`, `Attributed.primeFactors`: primes.
* `Attributed.average` to `Attributed.extremeIndex`: reductions.
-/

namespace NumericActions.Attributed

variable (action : Option String)

/-! ## Combinatorics -/

def factorial (n : Int) : Except Report Int := do
  requireNonNegative action "n" (.int n)
  if maxFactorialArgument < n then raise action (.domain (.overflow (.factorial n)))
  else .ok (factorialProduct n.toNat)

def requireIndices (n k : Int) : Except Report Unit := do
  requireInt64 action "n" (.int n)
  requireInt64 action "k" (.int k)
  requireNonNegative action "n" (.int n)
  requireNonNegative action "k" (.int k)

def binomialSteps (quantity : Quantity) (n : Nat) :
    (steps done : Nat) → (result : Nat) → Except Report Nat
  | 0, _, result => .ok result
  | steps + 1, done, result => do
    let result := result * (n - done) / (done + 1)
    fitsInt64 action quantity (.int result)
    binomialSteps quantity n steps (done + 1) result

def binomial (n k : Int) : Except Report Int := do
  requireIndices action n k
  if n < k then .ok 0
  else
    let result ←
      binomialSteps action (.binomial n k) n.toNat (min k.toNat (n.toNat - k.toNat)) 0 1
    return result

def nextCell (quantity : Quantity) (band : Band) (j : Nat) : Except Report Nat := do
  let value := j * band.cell j + band.cell (j - 1)
  fitsInt64 action quantity (.int value)
  return value

def nextBand (quantity : Quantity) (n k i : Nat) (band : Band) : Except Report Band := do
  let cells ← (Band.columns n k i).mapM (nextCell action quantity band)
  return ⟨max 1 (i - (n - k)), cells⟩

def bandRows (quantity : Quantity) (n k : Nat) : (steps i : Nat) → Band → Except Report Band
  | 0, _, band => .ok band
  | steps + 1, i, band => do
    bandRows quantity n k steps (i + 1) (← nextBand action quantity n k i band)

def stirling (n k : Int) : Except Report Int := do
  requireIndices action n k
  if n < k then .ok 0
  else if k = 0 then .ok (if n = 0 then 1 else 0)
  else if k = n ∨ k = 1 then .ok 1
  else if k = n - 1 then binomial action n 2
  else
    let band ← bandRows action (.stirling n k) n.toNat k.toNat (n.toNat - 1) 2 Band.first
    let result ← unnamed (band.get k.toNat)
    return result

/-! ## Primes -/

def isPrime (n : Int) : Except Report Bool := do
  requireInt64 action "n" (.int n)
  return passesPrimality n.toNat

def nextPrime (n : Int) : Except Report Int := do
  requireInt64 action "n" (.int n)
  requireNonNegative action "n" (.int n)
  if n ≤ 2 then .ok 2
  else
    match searchPrime (if n.toNat % 2 = 1 then n.toNat else n.toNat + 1) with
    | some p => .ok p
    | none => raise action (.domain (.overflow .nextPrime))

def primeFactors (n : Int) : Except Report (List Nat) := do
  requireInt64 action "n" (.int n)
  requireNonNegative action "n" (.int n)
  return factorsOf n.toNat

/-! ## Reductions -/

def average (values : List Number) : Except Report Binary64 := do
  requireNonEmpty action values
  unnamed do meanOf (← sum (widened values)) values.length

def harmonicMean (values : List Number) : Except Report Binary64 := do
  requireNonEmpty action values
  values.forM (requireNonZero action "harmonic mean value")
  let reciprocals ← (widened values).mapM fun x => unnamed (Strict.quotient 1 x)
  let reciprocal ← unnamed (sum reciprocals)
  if reciprocal.eq (Binary64.zero false) then raise action (.domain .vanishingReciprocals)
  else unnamed do Strict.quotient (← Strict.ofInt values.length) reciprocal

def geometricMean (library : Elementary) (values : List Number) : Except Report Binary64 := do
  requireNonEmpty action values
  values.forM (requirePositive action "geometric mean value")
  unnamed do
    Strict.image (.range .exponential) library.exp (← meanLogarithm library values)

def extreme (better : Number → Number → Bool) : List Number → Except Report Binary64
  | [] => raise action (.domain .empty)
  | value :: rest => .ok (firstBest better value rest).toBinary64

def extremeIndex (better : Number → Number → Bool) : List Number → Except Report Nat
  | [] => raise action (.domain .empty)
  | value :: rest => .ok (firstBestIndex better value 0 1 rest)

end NumericActions.Attributed
