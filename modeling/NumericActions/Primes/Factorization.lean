import NumericActions.Primes.Primality
import NumericActions.Primes.Rho
import NumericActions.Sorting

/-!
# Prime factorization

Small factors are divided out one after the other; what is left is split by cycle
searches until every part passes the primality test. The factors are listed in ascending
order, as often as they divide.

* `primeFactors`: the factors of a 64-bit integer that is not negative.
-/

namespace NumericActions

def divideOut (p n : Nat) : List Nat × Nat :=
  if 1 < p ∧ 0 < n ∧ n % p = 0 then
    let (factors, rest) := divideOut p (n / p)
    (p :: factors, rest)
  else ([], n)
termination_by n
decreasing_by exact Nat.div_lt_self (by omega) (by omega)

/-- Divisors from here on are left to the cycle search. -/
def trialLimit : Nat := 1000

/-- Divides out the odd numbers from `divisor` on, as long as they are small and their
square does not exceed what is left. -/
def trialDivide (divisor n : Nat) : List Nat × Nat :=
  if divisor < trialLimit ∧ divisor * divisor ≤ n then
    let (factors, rest) := divideOut divisor n
    let (others, rest) := trialDivide (divisor + 2) rest
    (factors ++ others, rest)
  else ([], n)
termination_by trialLimit - divisor
decreasing_by omega

/-- Splits a number until every part passes the primality test. A part for which no
divisor is found stays whole. -/
def splitFactors (n : Nat) : List Nat :=
  if passesPrimality n then [n]
  else
    match _h : Rho.divisor? n with
    | some d => splitFactors d ++ splitFactors (n / d)
    | none => [n]
termination_by n
decreasing_by
  · exact (Rho.divisor?_proper _h).2.1
  · have := Rho.divisor?_proper _h
    exact Nat.div_lt_self (by omega) (by omega)

/-- The prime factors of `n` in ascending order. Zero and one have none. -/
def factorsOf (n : Nat) : List Nat :=
  let (twos, rest) := divideOut 2 n
  let (small, rest) := trialDivide 3 rest
  let large := if 1 < rest then splitFactors rest else []
  sorted (fun p q => decide (p ≤ q)) (twos ++ small ++ large)

def primeFactors (n : Int) : Except Fault (List Nat) := do
  Check.requireInt64 "n" (.int n)
  Check.requireNonNegative "n" (.int n)
  return factorsOf n.toNat

end NumericActions
