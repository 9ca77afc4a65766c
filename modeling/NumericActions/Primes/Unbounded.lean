import Mathlib.Data.PFun
import NumericActions.Primes.Factorization

/-!
# Primes without bounds

The search for the next prime, the cycle search and the work list with the loops as they are
meant: each goes on until its own condition is met, and nothing counts its turns. Such a loop
need not have an end, so its value is a partial one, which exists if and only if the loop ends.

* `Unbounded.nextPrime`: the next prime, whose size is looked at when the search is over.
* `Unbounded.search`: one constant, until a common divisor appears.
* `Unbounded.divisor`: one constant after the other, until the divisor is a proper one.
* `Unbounded.split`: the numbers that are still to be split, until there are none left.
* `Unbounded.primeFactors`: the factors of a 64-bit integer that is not negative.
-/

namespace NumericActions.Unbounded

open Rho (Place batch batchSize advance step distance)

/-! ## Loops -/

section

variable {σ α : Type} {turn : σ → Part (α ⊕ σ)} {state next : σ} {result : α}

/-- Repeats a turn, which comes to a result or to the next state. -/
noncomputable def loop (turn : σ → Part (α ⊕ σ)) (state : σ) : Part α := PFun.fix turn state

theorem loop_of_result (h : turn state = Part.some (.inl result)) :
    loop turn state = Part.some result :=
  Part.eq_some_iff.mpr (PFun.fix_stop (h ▸ Part.mem_some _))

theorem loop_of_next (h : turn state = Part.some (.inr next)) :
    loop turn state = loop turn next :=
  PFun.fix_fwd_eq (h ▸ Part.mem_some _)

end

/-! ## Faults on the way -/

section

variable {α β : Type}

/-- A check that passes is followed by what is behind it. -/
theorem run_ok_bind (a : α) (f : α → ExceptT Fault Part β) :
    ((liftM (.ok a : Except Fault α) : ExceptT Fault Part α) >>= f).run = (f a).run := by
  rw [ExceptT.run_bind]
  show (Part.some (Except.ok a)).bind _ = _
  rw [Part.bind_some]

theorem run_error_bind (fault : Fault) (f : α → ExceptT Fault Part β) :
    ((liftM (.error fault : Except Fault α) : ExceptT Fault Part α) >>= f).run =
      Part.some (.error fault) := by
  rw [ExceptT.run_bind]
  show (Part.some (Except.error fault)).bind _ = _
  rw [Part.bind_some]
  rfl

theorem run_some_bind (a : α) (f : α → ExceptT Fault Part β) :
    ((liftM (Part.some a) : ExceptT Fault Part α) >>= f).run = (f a).run := by
  rw [ExceptT.run_bind]
  show ((Part.some a).map Except.ok).bind _ = _
  rw [Part.map_some, Part.bind_some]

end

/-! ## The next prime -/

/-- The first number that passes the test among `candidate`, `candidate + 2`, and so on. -/
noncomputable def searchPrime (candidate : Nat) : Part Nat :=
  loop (fun candidate => Part.some
    (if passesPrimality candidate then .inl candidate else .inr (candidate + 2))) candidate

/-- The argument is checked before the search and the result behind it. -/
noncomputable def nextPrime (n : Int) : ExceptT Fault Part Int := do
  Check.requireInt64 "n" (.int n)
  Check.requireNonNegative "n" (.int n)
  if n ≤ 2 then return 2
  let p ← searchPrime (if n.toNat % 2 = 1 then n.toNat else n.toNat + 1)
  Check.fitsInt64 .nextPrime (.int p)
  return p

/-! ## The search with one constant -/

/-- Batches over a stretch of `left` steps, until a common divisor appears. The steps that
are left become fewer. -/
def stretch (n c x left : Nat) (place : Place) : Place :=
  if left = 0 ∨ place.divisor ≠ 1 then place
  else
    let (y, product) := batch n c x (min batchSize left) place.y place.product
    stretch n c x (left - batchSize) ⟨place.y, y, product, Nat.gcd product n⟩
termination_by left
decreasing_by
  have : 0 < batchSize := by decide
  omega

/-- The place behind a round of a given length. -/
def round (n c length : Nat) (place : Place) : Place :=
  stretch n c place.y length
    ⟨place.start, advance n c length place.y, place.product, place.divisor⟩

/-- Rounds of doubled length, until a common divisor appears. The result is the last `x` and
the place. -/
noncomputable def rounds (n c length x : Nat) (place : Place) : Part (Nat × Place) :=
  loop (fun (length, x, place) => Part.some
    (if place.divisor ≠ 1 then .inl (x, place)
    else .inr (2 * length, place.y, round n c length place))) (length, x, place)

/-- Single steps from `y`, until the difference from `x` has a common divisor with the
number. -/
noncomputable def replay (n c x y : Nat) : Part Nat :=
  loop (fun y => Part.some
    (if Nat.gcd (distance x (step n c y)) n ≠ 1 then .inl (Nat.gcd (distance x (step n c y)) n)
    else .inr (step n c y))) y

noncomputable def search (n c : Nat) : Part Nat := do
  let (x, place) ← rounds n c 1 2 ⟨2, 2, 1, 1⟩
  if place.divisor = n then replay n c x place.start else Part.some place.divisor

/-! ## Splitting -/

/-- The constants from `c` on, until the divisor is not the number itself. -/
noncomputable def divisor (n c : Nat) : Part Nat :=
  loop (fun c => (search n c).map fun d => if d ≠ n then .inl d else .inr (c + 1)) c

/-- Takes the numbers off a list one by one: those that pass the primality test are factors,
and the others are put back as two. -/
noncomputable def split (pending factors : List Nat) : Part (List Nat) :=
  loop (fun
    | ([], factors) => Part.some (.inl factors)
    | (m :: pending, factors) =>
      if passesPrimality m then Part.some (.inr (pending, m :: factors))
      else (divisor m 1).map fun d => .inr (m / d :: d :: pending, factors)) (pending, factors)

noncomputable def factorsOf (n : Nat) : Part (List Nat) := do
  let (twos, rest) := divideOut 2 n
  let (small, rest) := trialDivide 3 rest
  let large ← split (if 1 < rest then [rest] else []) []
  return sorted (fun p q => decide (p ≤ q)) (twos ++ small ++ large)

/-- The argument is checked before any loop begins. -/
noncomputable def primeFactors (n : Int) : Except Fault (Part (List Nat)) := do
  Check.requireInt64 "n" (.int n)
  Check.requireNonNegative "n" (.int n)
  return factorsOf n.toNat

end NumericActions.Unbounded
