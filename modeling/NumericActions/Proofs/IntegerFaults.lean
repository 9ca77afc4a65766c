import NumericActions.Combinatorics.Stirling
import NumericActions.Proofs.Outcome
import NumericActions.Proofs.PrimeFactorization
import NumericActions.Proofs.Representable

/-!
# Faults of the integer functions

Every check of an integer function fails with a fault of its domain, and behind the checks
nothing else can fail: the column that is read from the last row of a band is its only one,
and the factors of a 64-bit integer can be converted to binary64.

* `Fault.IsDomain`: the faults of the integer functions.
* `ends_factorial`, `ends_binomial`, `ends_stirling`: the combinatorial functions.
* `ends_isPrime`, `ends_nextPrime`, `ends_primeFactors`: the functions of primes.
-/

namespace NumericActions

/-- A number outside the domain of a function. -/
def Fault.IsDomain (fault : Fault) : Prop := fault.kind = .domain

theorem Fault.isDomain_domain (cause : DomainFault) : (Fault.domain cause).IsDomain := rfl

open Fault (IsDomain isDomain_domain)

/-! ## Checks -/

namespace Check

theorem ends_requireInt64 (name : String) (n : Number) :
    Ends (requireInt64 name n) IsDomain fun _ => True := by
  unfold requireInt64
  split
  · exact ends_error (isDomain_domain _)
  · exact ends_ok trivial

theorem ends_fitsInt64 (quantity : Quantity) (n : Number) :
    Ends (fitsInt64 quantity n) IsDomain fun _ => True := by
  unfold fitsInt64
  split
  · exact ends_error (isDomain_domain _)
  · exact ends_ok trivial

theorem ends_requireNonNegative_int (name : String) (n : Int) :
    Ends (requireNonNegative name (.int n)) IsDomain fun _ => 0 ≤ n := by
  rw [requireNonNegative_int]
  split
  · exact ends_error (isDomain_domain _)
  · exact ends_ok (by omega)

/-- What a check of a positive number says, in either case. -/
theorem ends_requirePositive_cause (name : String) (n : Number) :
    Ends (requirePositive name n)
      (fun fault => (Number.int 0).lt n = false ∧ fault = .domain (.notPositive name n))
      fun _ => (Number.int 0).lt n = true := by
  unfold requirePositive
  split
  · rename_i h
    exact ends_ok h
  · rename_i h
    exact ends_error ⟨Bool.eq_false_iff.mpr h, rfl⟩

theorem ends_requirePositive (name : String) (n : Number) :
    Ends (requirePositive name n) IsDomain fun _ => (Number.int 0).lt n = true := by
  refine ends_weaken (ends_requirePositive_cause name n) ?_
  rintro _ ⟨-, rfl⟩
  exact isDomain_domain _

/-- What a check of a number that must not be zero says, in either case. -/
theorem ends_requireNonZero_cause (name : String) (n : Number) :
    Ends (requireNonZero name n)
      (fun fault => n.isZero = true ∧ fault = .domain (.zero name n))
      fun _ => n.isZero = false := by
  unfold requireNonZero
  split
  · rename_i h
    exact ends_error ⟨h, rfl⟩
  · rename_i h
    exact ends_ok (Bool.eq_false_iff.mpr h)

theorem ends_requireNonZero (name : String) (n : Number) :
    Ends (requireNonZero name n) IsDomain fun _ => n.isZero = false := by
  refine ends_weaken (ends_requireNonZero_cause name n) ?_
  rintro _ ⟨-, rfl⟩
  exact isDomain_domain _

theorem requireNonEmpty_of_ne_nil {α : Type} {values : List α} (h : values ≠ []) :
    requireNonEmpty values = .ok () := by
  cases values with
  | nil => exact absurd rfl h
  | cons value values => rfl

theorem ends_requireNonEmpty {α : Type} (values : List α) :
    Ends (requireNonEmpty values) IsDomain fun _ => values ≠ [] := by
  cases values with
  | nil => exact ends_error (isDomain_domain _)
  | cons value values => exact ends_ok (List.cons_ne_nil value values)

end Check

theorem Number.ends_narrow (n : Number) (i : Int) :
    Ends (Number.toInt64.narrow n i) IsDomain fun k => int64Min ≤ k ∧ k ≤ int64Max := by
  unfold Number.toInt64.narrow
  rw [Number.exceedsInt64_int]
  split
  · exact ends_error (isDomain_domain _)
  · rename_i h
    have h : ¬ (i < int64Min ∨ int64Max < i) := by simpa using h
    exact ends_ok ⟨by omega, by omega⟩

/-- A number that is narrowed is a 64-bit integer. -/
theorem Number.ends_toInt64 (n : Number) :
    Ends n.toInt64 IsDomain fun k => int64Min ≤ k ∧ k ≤ int64Max := by
  unfold Number.toInt64
  split
  · exact ends_narrow _ _
  · exact ends_narrow _ _
  · exact ends_error (isDomain_domain _)

/-! ## Combinatorial functions -/

theorem ends_factorial (n : Int) : Ends (factorial n) IsDomain fun _ => True := by
  rw [factorial_eq]
  split
  · exact ends_error (isDomain_domain _)
  · split
    · exact ends_error (isDomain_domain _)
    · exact ends_ok trivial

theorem ends_requireIndices (n k : Int) :
    Ends (requireIndices n k) IsDomain fun _ => 0 ≤ n ∧ 0 ≤ k := by
  unfold requireIndices
  apply ends_bind (Check.ends_requireInt64 _ _)
  intro _ _
  apply ends_bind (Check.ends_requireInt64 _ _)
  intro _ _
  apply ends_bind (Check.ends_requireNonNegative_int _ _)
  intro _ hn
  apply ends_mono (Check.ends_requireNonNegative_int _ _)
  intro _ hk
  exact ⟨hn, hk⟩

theorem ends_binomialSteps (quantity : Quantity) (n steps done result : Nat) :
    Ends (binomialSteps quantity n steps done result) IsDomain fun _ => True := by
  induction steps generalizing done result with
  | zero => exact ends_ok trivial
  | succ steps ih =>
    unfold binomialSteps
    apply ends_bind (Check.ends_fitsInt64 _ _)
    intro _ _
    exact ih _ _

theorem ends_binomial (n k : Int) : Ends (binomial n k) IsDomain fun _ => True := by
  unfold binomial
  apply ends_bind (ends_requireIndices n k)
  intro _ _
  split
  · exact ends_ok trivial
  · exact ends_bind_pure (ends_binomialSteps _ _ _ _ _) _

namespace Band

theorem ends_next (quantity : Quantity) (n k i : Nat) (band : Band) :
    Ends (band.next quantity n k i) IsDomain fun row =>
      row.low = max 1 (i - (n - k)) ∧ row.cells.length = (columns n k i).length := by
  unfold next
  have hcell : ∀ j ∈ columns n k i, Ends (nextCell quantity band j) IsDomain fun _ => True := by
    intro j _
    exact ends_bind_pure (Check.ends_fitsInt64 _ _) _
  apply ends_bind (ends_mapM hcell)
  intro cells hcells
  exact ends_pure ⟨rfl, hcells.1⟩

/-- The last of some rows has the columns of its index. -/
theorem ends_rows (quantity : Quantity) (n k steps i : Nat) (band : Band) :
    Ends (rows quantity n k (steps + 1) i band) IsDomain fun row =>
      row.low = max 1 (i + steps - (n - k)) ∧
        row.cells.length = (columns n k (i + steps)).length := by
  induction steps generalizing i band with
  | zero =>
    unfold rows
    apply ends_bind (ends_next quantity n k i band)
    intro row hrow
    exact ends_ok hrow
  | succ steps ih =>
    unfold rows
    apply ends_bind (ends_next quantity n k i band)
    intro row _
    have h := ih (i + 1) row
    rwa [Nat.add_right_comm, Nat.add_assoc] at h

/-- Row `n` of the band consists of the column `k` alone. -/
theorem ends_get_of_last {n k : Nat} {row : Band} (hk : 1 ≤ k) (hkn : k ≤ n)
    (hlow : row.low = max 1 (n - (n - k)))
    (hlength : row.cells.length = (columns n k n).length) :
    Ends (row.get k) IsDomain fun _ => True := by
  have hlow : row.low = k := by omega
  have hlength : row.cells.length = 1 := by
    rw [hlength, columns, List.length_range']
    omega
  obtain ⟨cell, hcells⟩ := List.length_eq_one_iff.mp hlength
  have hcell : row.cells[k - row.low]? = some cell := by
    rw [hcells, hlow, Nat.sub_self]
    rfl
  unfold get
  rw [if_pos (Nat.le_of_eq hlow), hcell]
  exact ends_ok trivial

end Band

theorem ends_stirling (n k : Int) : Ends (stirling n k) IsDomain fun _ => True := by
  unfold stirling
  apply ends_bind (ends_requireIndices n k)
  intro _ hindices
  by_cases hnk : n < k
  · rw [if_pos hnk]
    exact ends_ok trivial
  rw [if_neg hnk]
  by_cases hk : k = 0
  · rw [if_pos hk]
    exact ends_ok trivial
  rw [if_neg hk]
  by_cases hedge : k = n ∨ k = 1
  · rw [if_pos hedge]
    exact ends_ok trivial
  rw [if_neg hedge]
  by_cases hnear : k = n - 1
  · rw [if_pos hnear]
    exact ends_binomial n 2
  rw [if_neg hnear]
  have hsteps : n.toNat - 1 = n.toNat - 2 + 1 := by omega
  have hlast : 2 + (n.toNat - 2) = n.toNat := by omega
  rw [hsteps]
  apply ends_bind (Band.ends_rows _ _ _ _ _ _)
  intro row hrow
  rw [hlast] at hrow
  have hcell : Ends (row.get k.toNat) IsDomain fun _ => True := by
    apply Band.ends_get_of_last _ _ hrow.1 hrow.2
    · omega
    · omega
  exact ends_bind_pure hcell _

/-! ## Primes -/

theorem ends_isPrime (n : Int) : Ends (isPrime n) IsDomain fun _ => True := by
  unfold isPrime
  exact ends_bind_pure (Check.ends_requireInt64 _ _) _

theorem ends_nextPrime (n : Int) : Ends (nextPrime n) IsDomain fun _ => True := by
  unfold nextPrime
  apply ends_bind (Check.ends_requireInt64 _ _)
  intro _ _
  apply ends_bind (Check.ends_requireNonNegative_int _ _)
  intro _ _
  split
  · exact ends_ok trivial
  · split
    · exact ends_ok trivial
    · exact ends_error (isDomain_domain _)

/-- The factors of a 64-bit integer are 64-bit integers. -/
theorem ends_primeFactors {n : Int} (hn : n ≤ int64Max) :
    Ends (primeFactors n) IsDomain fun factors => ∀ p ∈ factors, p ≤ 2 ^ 63 := by
  unfold primeFactors
  apply ends_bind (Check.ends_requireInt64 _ _)
  intro _ _
  apply ends_bind (Check.ends_requireNonNegative_int _ _)
  intro _ _
  apply ends_pure
  intro p hp
  have hle := le_of_mem_factorsOf hp
  have hmax : int64Max = 2 ^ 63 - 1 := rfl
  omega

end NumericActions
