import Mathlib.NumberTheory.Bertrand
import NumericActions.Primes.Unbounded
import NumericActions.Proofs.Outcome
import NumericActions.Proofs.StrongProbablePrimes

/-!
# The next prime

Every prime passes the primality test, so some number from any place on does, and the search
for it ends although nothing bounds it. No even number above two passes, so the steps over the
even candidates miss nothing. What is found is the least number that passes; it is the least
prime as far as the test can be trusted.

* `Passing`: the numbers from a place on that pass the test.
* `search_eq`: both searches from an odd candidate.
* `nextPrime_of_mem`: the next prime with and without a bound on the search.
* `nextPrime_decides`: the next prime of every argument, or the fault of its domain.
-/

namespace NumericActions

/-! ## Numbers that pass -/

/-- The numbers from `n` on that pass the primality test. -/
def Passing (n : Nat) : Set Nat := {k | n ≤ k ∧ passesPrimality k = true}

theorem exists_isLeast_passing (n : Nat) : ∃ m, IsLeast (Passing n) m := by
  have hsome : ∃ k, n ≤ k ∧ passesPrimality k = true := by
    obtain ⟨p, hle, hp⟩ := Nat.exists_infinite_primes n
    exact ⟨p, hle, passesPrimality_of_prime hp⟩
  exact ⟨Nat.find hsome, Nat.isLeast_find hsome⟩

theorem isLeast_passing_self {m : Nat} (h : passesPrimality m = true) : IsLeast (Passing m) m :=
  ⟨⟨Nat.le_refl m, h⟩, fun _ hk => hk.1⟩

/-- A number that fails can be left out. -/
theorem isLeast_passing_succ {n m : Nat} (h : IsLeast (Passing n) m)
    (hfails : ¬ passesPrimality n = true) : IsLeast (Passing (n + 1)) m := by
  obtain ⟨⟨hle, hpasses⟩, hleast⟩ := h
  have hne : n ≠ m := by
    rintro rfl
    exact hfails hpasses
  exact ⟨⟨by omega, hpasses⟩, fun k hk => hleast ⟨Nat.le_of_succ_le hk.1, hk.2⟩⟩

theorem odd_of_passesPrimality {n : Nat} (h : passesPrimality n = true) (hn : 2 < n) :
    n % 2 = 1 := by
  rcases (passesPrimality_iff n).mp h with hmem | ⟨-, hfree, -⟩
  · rcases (prime_of_mem_testBases n hmem).eq_two_or_odd with htwo | hodd
    · omega
    · exact hodd
  · exact odd_of_not_dvd_testBases hfree

theorem not_passesPrimality_even {n : Nat} (heven : n % 2 = 0) (hn : 2 < n) :
    ¬ passesPrimality n = true := by
  intro hpasses
  have := odd_of_passesPrimality hpasses hn
  omega

/-- A stretch of numbers that fail, each at its distance from the first. -/
theorem not_passesPrimality_of_stretch {start count n : Nat}
    (h : ∀ k < count, passesPrimality (start + k) = false) (hle : start ≤ n)
    (hlt : n < start + count) : ¬ passesPrimality n = true := by
  have hfails := h (n - start) (by omega)
  rw [Nat.add_sub_cancel' hle] at hfails
  rw [hfails]
  exact Bool.false_ne_true

/-- Twice the argument is not reached without a prime on the way. -/
theorem lt_of_isLeast_passing {n m bound : Nat} (h : IsLeast (Passing n) m) (hn : 2 * n < bound)
    (hbound : 2 < bound) : m < bound := by
  by_cases hzero : n = 0
  · have := h.2 ⟨hzero ▸ Nat.zero_le 2, passesPrimality_of_prime Nat.prime_two⟩
    omega
  · obtain ⟨p, hp, hlt, hle⟩ := Nat.exists_prime_lt_and_le_two_mul n hzero
    have := h.2 ⟨Nat.le_of_lt hlt, passesPrimality_of_prime hp⟩
    omega

/-! ## The search -/

/-- By induction on the distance from the candidate to the least number that passes. If the
candidate fails, the even number behind it is above two and fails too. -/
theorem search_eq {candidate m : Nat} (hodd : candidate % 2 = 1) (hone : 1 < candidate)
    (h : IsLeast (Passing candidate) m) :
    Unbounded.searchPrime candidate = Part.some m ∧
      searchPrime candidate = if (m : Int) ≤ int64Max then some m else none := by
  have hmax : int64Max = 9223372036854775807 := rfl
  induction hdistance : m - candidate using Nat.strong_induction_on generalizing candidate with
  | _ distance ih =>
    have hle : candidate ≤ m := h.1.1
    by_cases hpasses : passesPrimality candidate = true
    · obtain rfl : m = candidate := Nat.le_antisymm (h.2 ⟨Nat.le_refl _, hpasses⟩) hle
      refine ⟨Unbounded.loop_of_result (by rw [if_pos hpasses]), ?_⟩
      unfold searchPrime
      by_cases hlimit : (m : Int) ≤ int64Max
      · rw [if_pos (by omega), if_pos hpasses, if_pos hlimit]
      · rw [if_neg (by omega), if_neg hlimit]
    · have hnext : IsLeast (Passing (candidate + 2)) m :=
        isLeast_passing_succ (isLeast_passing_succ h hpasses)
          (not_passesPrimality_even (by omega) (by omega))
      have hcloser : candidate + 2 ≤ m := hnext.1.1
      obtain ⟨hunbounded, hbounded⟩ :=
        ih (m - (candidate + 2)) (by omega) (by omega) (by omega) hnext rfl
      constructor
      · rw [← hunbounded]
        exact Unbounded.loop_of_next (by rw [if_neg hpasses])
      · unfold searchPrime
        rw [if_neg hpasses, hbounded]
        split
        · rfl
        · rw [if_neg (by omega)]

/-! ## Arguments -/

theorem nextPrime_of_not_mem {n : Int} (h : n < int64Min ∨ int64Max < n) :
    nextPrime n = .error (.domain (.outsideInt64 "n" (.int n))) ∧
      (Unbounded.nextPrime n).run = Part.some (nextPrime n) := by
  unfold Unbounded.nextPrime nextPrime
  rw [Check.requireInt64_int, if_pos h, Unbounded.run_error_bind]
  exact ⟨rfl, rfl⟩

theorem nextPrime_of_neg {n : Int} (hmin : int64Min ≤ n) (h : n < 0) :
    nextPrime n = .error (.domain (.negative "n" (.int n))) ∧
      (Unbounded.nextPrime n).run = Part.some (nextPrime n) := by
  have hmax : 0 < int64Max := by decide
  unfold Unbounded.nextPrime nextPrime
  rw [Check.requireInt64_int, if_neg (by omega), Check.requireNonNegative_int, if_pos h,
    Unbounded.run_ok_bind, Unbounded.run_error_bind]
  exact ⟨rfl, rfl⟩

/-- Two is the least number that passes. -/
theorem isLeast_passing_two {n : Nat} (h : n ≤ 2) : IsLeast (Passing n) 2 :=
  ⟨⟨h, passesPrimality_of_prime Nat.prime_two⟩, fun _ hk => one_lt_of_passesPrimality hk.2⟩

/-- The search begins with the first odd number from the argument on. -/
theorem isLeast_passing_odd {n m : Nat} (h : IsLeast (Passing n) m) (hn : 2 < n) :
    IsLeast (Passing (if n % 2 = 1 then n else n + 1)) m := by
  by_cases hodd : n % 2 = 1
  · rwa [if_pos hodd]
  · rw [if_neg hodd]
    exact isLeast_passing_succ h (not_passesPrimality_even (by omega) hn)

/-- The search ends, and it stays below the limit exactly if its result does. -/
theorem nextPrime_of_mem {n : Int} (hn : 0 ≤ n) (hmax : n ≤ int64Max) {m : Nat}
    (h : IsLeast (Passing n.toNat) m) :
    nextPrime n = (if (m : Int) ≤ int64Max then .ok (m : Int)
        else .error (.domain (.overflow .nextPrime))) ∧
      (Unbounded.nextPrime n).run = Part.some (nextPrime n) := by
  have hmin : int64Min < 0 := by decide
  have hpass : (Except.ok () : Except Fault Unit) = .ok () := rfl
  unfold Unbounded.nextPrime nextPrime
  rw [Check.requireInt64_int, if_neg (by omega), Check.requireNonNegative_int,
    if_neg (by omega), bind_of_eq_ok hpass, bind_of_eq_ok hpass, Unbounded.run_ok_bind,
    Unbounded.run_ok_bind]
  by_cases htwo : n ≤ 2
  · obtain rfl : m = 2 := h.unique (isLeast_passing_two (by omega))
    rw [if_pos htwo, if_pos htwo, if_pos (by decide)]
    exact ⟨rfl, rfl⟩
  · have hodd := isLeast_passing_odd h (by omega)
    obtain ⟨hunbounded, hbounded⟩ := search_eq (by split <;> omega) (by split <;> omega) hodd
    rw [if_neg htwo, if_neg htwo, hbounded, hunbounded, Unbounded.run_some_bind,
      Check.fitsInt64_int]
    by_cases hlimit : (m : Int) ≤ int64Max
    · rw [if_pos hlimit, if_pos hlimit, if_neg (by omega), Unbounded.run_ok_bind]
      exact ⟨rfl, rfl⟩
    · rw [if_neg hlimit, if_neg hlimit, if_pos (by omega), Unbounded.run_error_bind]
      exact ⟨rfl, rfl⟩

/-- For every argument the search ends. A 64-bit integer that is not negative leads to the least
number from there on that passes the primality test, which is less than `2 ^ 64`, or to a fault
if that number does not fit in 64 bits; no prime is passed over on the way, and the number found
leads to itself. If no composite number below some greater bound is a strong pseudoprime to all
bases, it is the least prime. Every other argument fails the check that it does not meet. -/
theorem nextPrime_decides (n : Int) :
    (Unbounded.nextPrime n).run = Part.some (nextPrime n) ∧
    (n < int64Min ∨ int64Max < n →
      nextPrime n = .error (.domain (.outsideInt64 "n" (.int n)))) ∧
    (int64Min ≤ n → n < 0 → nextPrime n = .error (.domain (.negative "n" (.int n)))) ∧
    (0 ≤ n → n ≤ int64Max → ∃ m : Nat, m < 2 ^ 64 ∧
      (n ≤ m ∧ passesPrimality m = true ∧
        ∀ k : Nat, n ≤ k → k < m → passesPrimality k = false ∧ ¬ k.Prime) ∧
      nextPrime n = (if (m : Int) ≤ int64Max then .ok (m : Int)
        else .error (.domain (.overflow .nextPrime))) ∧
      ((m : Int) ≤ int64Max → nextPrime m = .ok (m : Int)) ∧
      ∀ bound : Nat, m < bound → NoPseudoprimeBelow bound →
        IsLeast {p : Nat | n ≤ p ∧ p.Prime} m) := by
  have hends : (Unbounded.nextPrime n).run = Part.some (nextPrime n) := by
    by_cases hwide : n < int64Min ∨ int64Max < n
    · exact (nextPrime_of_not_mem hwide).2
    · by_cases hneg : n < 0
      · exact (nextPrime_of_neg (by omega) hneg).2
      · obtain ⟨m, hm⟩ := exists_isLeast_passing n.toNat
        exact (nextPrime_of_mem (by omega) (by omega) hm).2
  refine ⟨hends, fun hwide => (nextPrime_of_not_mem hwide).1,
    fun hmin hneg => (nextPrime_of_neg hmin hneg).1, fun hn hmax => ?_⟩
  obtain ⟨m, hm⟩ := exists_isLeast_passing n.toNat
  have hle : n.toNat ≤ m := hm.1.1
  have hpasses : passesPrimality m = true := hm.1.2
  have hlimit : int64Max = 2 ^ 63 - 1 := rfl
  have hbelow (k : Nat) (hk : n ≤ k) (hlt : k < m) : ¬ passesPrimality k = true := fun h =>
    Nat.not_lt.mpr (hm.2 ⟨by omega, h⟩) hlt
  refine ⟨m, lt_of_isLeast_passing hm (by omega) (by decide), ⟨by omega, hpasses, fun k hk hlt =>
    ⟨Bool.not_eq_true _ ▸ hbelow k hk hlt, fun hprime =>
      hbelow k hk hlt (passesPrimality_of_prime hprime)⟩⟩, (nextPrime_of_mem hn hmax hm).1,
    fun hfits => ?_, fun bound hbound hnone => ⟨⟨by omega, hnone.prime hbound hpasses⟩, ?_⟩⟩
  · rw [(nextPrime_of_mem (by omega) hfits (isLeast_passing_self hpasses)).1, Int.toNat_natCast,
      if_pos hfits]
  · rintro p ⟨hp, hprime⟩
    exact hm.2 ⟨by omega, passesPrimality_of_prime hprime⟩

/-- Above 1848 the square of forty-three is only turned down by the test to a base, and the next
prime is 1861. The numbers that are left below the limit have no prime among them. -/
theorem nextPrime_square :
    nextPrime 9223372036854775808 =
        .error (.domain (.outsideInt64 "n" (.int 9223372036854775808))) ∧
      nextPrime (-7) = .error (.domain (.negative "n" (.int (-7)))) ∧
      nextPrime 1848 = .ok 1861 ∧ IsLeast {p : Nat | (1848 : Int) ≤ p ∧ p.Prime} 1861 ∧
      nextPrime 9223372036854775784 = .error (.domain (.overflow .nextPrime)) := by
  have hpasses : passesPrimality 1861 = true := by decide +kernel
  have hfail : ∀ k < 13, passesPrimality (1848 + k) = false := by decide +kernel
  have hfaillast : ∀ k < 24, passesPrimality (9223372036854775784 + k) = false := by decide +kernel
  have hnone : NoPseudoprimeBelow 1862 := noPseudoprimeBelow_square.extend fun n hn hle htest => by
    by_cases hlast : n = 1861
    · rw [hlast]
      norm_num
    · exact absurd htest (not_passesPrimality_of_stretch hfail (by omega) (by omega))
  obtain ⟨m, -, ⟨hle, htest, hbetween⟩, hvalue, -, hleast⟩ :=
    (nextPrime_decides 1848).2.2.2 (by decide) (by decide)
  obtain rfl : m = 1861 := by
    refine Nat.le_antisymm (Nat.not_lt.mp fun hgt => ?_) (Nat.not_lt.mp fun hlt => ?_)
    · exact absurd hpasses (by rw [(hbetween 1861 (by decide) hgt).1]; exact Bool.false_ne_true)
    · exact not_passesPrimality_of_stretch hfail (by omega) hlt htest
  obtain ⟨last, -, ⟨hlastle, hlasttest, -⟩, hlastvalue, -⟩ :=
    (nextPrime_decides 9223372036854775784).2.2.2 (by decide) (by decide)
  have hbeyond : ¬ (last : Int) ≤ int64Max := by
    intro hfits
    have hmax : int64Max = 9223372036854775807 := rfl
    exact not_passesPrimality_of_stretch hfaillast (by omega) (by omega) hlasttest
  rw [hvalue, hlastvalue, if_neg hbeyond, if_pos (by decide)]
  exact ⟨(nextPrime_decides 9223372036854775808).2.1 (.inr (by decide)),
    (nextPrime_decides (-7)).2.2.1 (by decide) (by decide), rfl, hleast 1862 (by decide) hnone, rfl⟩

end NumericActions
