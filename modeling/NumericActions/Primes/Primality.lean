import NumericActions.Fault.Check

/-!
# Primality of 64-bit integers

A number is tried against the first thirteen primes and then against the strong
probable-prime test to each of them as a base. A prime passes every such test; no
composite number below `2 ^ 64` is known to pass them all.

* `powMod`: modular powers by repeated squaring.
* `isStrongProbablePrime`: the test to one base.
* `isPrime`: the test of an integer.
-/

namespace NumericActions

/-! ## Modular powers -/

def powMod (base exponent modulus : Nat) : Nat :=
  if exponent = 0 then 1 % modulus
  else
    let root := powMod (base * base % modulus) (exponent / 2) modulus
    if exponent % 2 = 0 then root else root * base % modulus
termination_by exponent
decreasing_by omega

/-! ## Strong probable primes -/

/-- The exponent of two in `n` and the odd cofactor; zero is its own cofactor. -/
def splitTwos (n : Nat) : Nat × Nat :=
  if 0 < n ∧ n % 2 = 0 then
    let (twos, odd) := splitTwos (n / 2)
    (twos + 1, odd)
  else (0, n)
termination_by n
decreasing_by omega

/-- Whether one of so many further squarings of `x` is congruent to minus one. -/
def squaresToMinusOne (n : Nat) : (squarings x : Nat) → Bool
  | 0, _ => false
  | squarings + 1, x =>
    let square := x * x % n
    square == n - 1 || squaresToMinusOne n squarings square

/-- The strong probable-prime test of an odd number to a base. -/
def isStrongProbablePrime (n base : Nat) : Bool :=
  let (twos, odd) := splitTwos (n - 1)
  let x := powMod base odd n
  x == 1 || x == n - 1 || squaresToMinusOne n (twos - 1) x

/-- The bases of the test, which are also tried as divisors. -/
def testBases : List Nat := [2, 3, 5, 7, 11, 13, 17, 19, 23, 29, 31, 37, 41]

/-- Whether a number is one of the bases, or has none of them as a divisor and passes
the test to all of them. -/
def passesPrimality (n : Nat) : Bool :=
  if n < 2 then false
  else
    match testBases.find? (fun p => n % p == 0) with
    | some p => n == p
    | none => testBases.all (isStrongProbablePrime n)

/-- Whether a 64-bit integer is prime. No number below two is. -/
def isPrime (n : Int) : Except Fault Bool := do
  Check.requireInt64 "n" (.int n)
  return passesPrimality n.toNat

/-! ## The next prime -/

/-- The first 64-bit integer that passes the test among `candidate`, `candidate + 2`, and
so on. -/
def searchPrime (candidate : Nat) : Option Nat :=
  if candidate < 9223372036854775808 then
    if passesPrimality candidate then some candidate else searchPrime (candidate + 2)
  else none
termination_by 9223372036854775808 - candidate
decreasing_by omega

/-- The least prime that is not less than `n`. Above two only odd numbers are tried. -/
def nextPrime (n : Int) : Except Fault Int := do
  Check.requireInt64 "n" (.int n)
  Check.requireNonNegative "n" (.int n)
  if n ≤ 2 then .ok 2
  else
    match searchPrime (if n.toNat % 2 = 1 then n.toNat else n.toNat + 1) with
    | some p => .ok p
    | none => .error (.domain (.overflow .nextPrime))

end NumericActions
