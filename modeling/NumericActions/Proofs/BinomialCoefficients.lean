import Mathlib.Data.Nat.Choose.Basic
import NumericActions.Combinatorics.Binomial
import NumericActions.Proofs.Outcome

/-!
# Binomial coefficients

After `i` steps the multiplicative formula has come to the coefficient `C(n, i)`, so every
quotient on the way is exact. The steps end at the middle of the row at the latest, and up
to there the coefficients only grow: what does not fit in 64 bits on the way does not fit at
the end.

* `AreIndices`: the arguments that are not turned down.
* `binomialSteps_eq`: what the steps come to, from any coefficient before the middle.
* `binomial_decides`: the coefficient for every pair of arguments, or the fault of its domain.
-/

namespace NumericActions

/-! ## Arguments -/

/-- Two 64-bit integers that are not negative. -/
def AreIndices (n k : Int) : Prop := (0 ≤ n ∧ n ≤ int64Max) ∧ 0 ≤ k ∧ k ≤ int64Max

theorem requireIndices_of_areIndices {n k : Int} (h : AreIndices n k) :
    requireIndices n k = .ok () := by
  obtain ⟨⟨hn, hnmax⟩, hk, hkmax⟩ := h
  have hmin : int64Min < 0 := by decide
  unfold requireIndices
  rw [Check.requireInt64_int, if_neg (by omega), Check.requireInt64_int, if_neg (by omega),
    Check.requireNonNegative_int, if_neg (by omega), Check.requireNonNegative_int,
    if_neg (by omega)]
  rfl

/-- Other arguments fail the check that they do not meet. -/
theorem requireIndices_of_not_areIndices {n k : Int} (h : ¬ AreIndices n k) :
    ∃ cause, requireIndices n k = .error (.domain cause) := by
  unfold requireIndices
  rw [Check.requireInt64_int, Check.requireInt64_int, Check.requireNonNegative_int,
    Check.requireNonNegative_int]
  by_cases hn : n < int64Min ∨ int64Max < n
  · rw [if_pos hn]
    exact ⟨_, rfl⟩
  rw [if_neg hn]
  by_cases hk : k < int64Min ∨ int64Max < k
  · rw [if_pos hk]
    exact ⟨_, rfl⟩
  rw [if_neg hk]
  by_cases hn0 : n < 0
  · rw [if_pos hn0]
    exact ⟨_, rfl⟩
  rw [if_neg hn0]
  by_cases hk0 : k < 0
  · rw [if_pos hk0]
    exact ⟨_, rfl⟩
  · exact absurd ⟨⟨by omega, by omega⟩, by omega, by omega⟩ h

/-! ## The steps of the formula -/

/-- A row grows up to its middle. -/
theorem choose_le_choose_of_le_half {n i j : Nat} (hij : i ≤ j) (hj : 2 * j ≤ n) :
    n.choose i ≤ n.choose j := by
  induction j, hij using Nat.le_induction with
  | base => exact Nat.le_refl _
  | succ j hij ih =>
    have hstep : n.choose j ≤ n.choose (j + 1) := Nat.choose_le_succ_of_lt_half_left (by omega)
    exact Nat.le_trans (ih (by omega)) hstep

/-- The steps end at an index of the left half that has the same coefficient. -/
theorem choose_min {n k : Nat} (h : k ≤ n) : n.choose (min k (n - k)) = n.choose k := by
  rcases Nat.le_total k (n - k) with hle | hle
  · rw [Nat.min_eq_left hle]
  · rw [Nat.min_eq_right hle, Nat.choose_symm h]

theorem succ_dvd_choose_mul (n i : Nat) : i + 1 ∣ n.choose i * (n - i) :=
  ⟨n.choose (i + 1), by rw [← Nat.choose_succ_right_eq, Nat.mul_comm]⟩

theorem choose_mul_div_succ (n i : Nat) :
    n.choose i * (n - i) / (i + 1) = n.choose (i + 1) := by
  rw [← Nat.choose_succ_right_eq, Nat.mul_div_cancel _ (Nat.succ_pos i)]

theorem binomialSteps_eq (quantity : Quantity) (n steps done : Nat)
    (hhalf : 2 * (done + steps) ≤ n) (hfits : (n.choose done : Int) ≤ int64Max) :
    binomialSteps quantity n steps done (n.choose done) =
      if (n.choose (done + steps) : Int) ≤ int64Max then .ok (n.choose (done + steps))
      else .error (.domain (.overflow quantity)) := by
  induction steps generalizing done with
  | zero =>
    rw [Nat.add_zero, if_pos hfits]
    rfl
  | succ steps ih =>
    have hmin : int64Min < 0 := by decide
    have hgrows : n.choose (done + 1) ≤ n.choose (done + (steps + 1)) :=
      choose_le_choose_of_le_half (by omega) hhalf
    unfold binomialSteps
    dsimp only
    rw [choose_mul_div_succ, Check.fitsInt64_int]
    by_cases hnext : (n.choose (done + 1) : Int) ≤ int64Max
    · have hrest := ih (done + 1) (by omega) hnext
      rw [show done + 1 + steps = done + (steps + 1) by omega] at hrest
      rw [if_neg (by omega), ← hrest]
      rfl
    · rw [if_pos (by omega), if_neg (by omega)]
      rfl

/-- The state of the steps is a coefficient, as long as no check has failed. -/
theorem eq_choose_of_binomialSteps {quantity : Quantity} {n done result : Nat}
    (hhalf : 2 * done ≤ n) (h : binomialSteps quantity n done 0 1 = .ok result) :
    result = n.choose done := by
  have hsteps := binomialSteps_eq quantity n done 0 (by omega)
    (by rw [Nat.choose_zero_right]; decide)
  rw [Nat.choose_zero_right, Nat.zero_add, h] at hsteps
  split at hsteps
  · exact Except.ok.inj hsteps
  · cases hsteps

theorem binomial_eq {n k : Int} (h : AreIndices n k) :
    binomial n k =
      if (n.toNat.choose k.toNat : Int) ≤ int64Max then .ok (n.toNat.choose k.toNat)
      else .error (.domain (.overflow (.binomial n k))) := by
  unfold binomial
  rw [bind_of_eq_ok (requireIndices_of_areIndices h)]
  obtain ⟨⟨hn, -⟩, hk, -⟩ := h
  by_cases hlt : n < k
  · have hzero : n.toNat.choose k.toNat = 0 := Nat.choose_eq_zero_of_lt (by omega)
    rw [if_pos hlt, hzero, if_pos (by decide)]
    rfl
  · have hsteps := binomialSteps_eq (.binomial n k) n.toNat (min k.toNat (n.toNat - k.toNat)) 0
      (by omega) (by rw [Nat.choose_zero_right]; decide)
    rw [Nat.choose_zero_right, Nat.zero_add, choose_min (by omega)] at hsteps
    rw [if_neg hlt, hsteps]
    split <;> rfl

/-- The binomial coefficient of two arguments is computed exactly when it fits in 64 bits, and
is a fault of the domain otherwise. On the way every quotient is exact, and no result that
does not fit stands before a coefficient that does. -/
theorem binomial_decides (n k : Int) :
    (¬ AreIndices n k → ∃ cause, binomial n k = .error (.domain cause)) ∧
    (AreIndices n k →
      (n < k → binomial n k = .ok 0) ∧
      binomial n k =
        (if (n.toNat.choose k.toNat : Int) ≤ int64Max then .ok (n.toNat.choose k.toNat)
        else .error (.domain (.overflow (.binomial n k)))) ∧
      ∀ done < min k.toNat (n.toNat - k.toNat), ∀ result,
        binomialSteps (.binomial n k) n.toNat done 0 1 = .ok result →
          done + 1 ∣ result * (n.toNat - done) ∧
          (int64Max < (result * (n.toNat - done) / (done + 1) : Nat) →
            int64Max < n.toNat.choose k.toNat)) := by
  constructor
  · intro h
    obtain ⟨cause, hcause⟩ := requireIndices_of_not_areIndices h
    refine ⟨cause, ?_⟩
    unfold binomial
    rw [hcause]
    rfl
  · intro h
    refine ⟨?_, binomial_eq h, ?_⟩
    · intro hlt
      have hzero : n.toNat.choose k.toNat = 0 :=
        Nat.choose_eq_zero_of_lt (by have := h.1; have := h.2; omega)
      rw [binomial_eq h, hzero, if_pos (by decide)]
      rfl
    · intro done hdone result hresult
      rw [eq_choose_of_binomialSteps (by omega) hresult]
      refine ⟨succ_dvd_choose_mul _ _, ?_⟩
      rw [choose_mul_div_succ]
      intro hover
      have hgrows : n.toNat.choose (done + 1) ≤
          n.toNat.choose (min k.toNat (n.toNat - k.toNat)) :=
        choose_le_choose_of_le_half (by omega) (by omega)
      rw [choose_min (by omega)] at hgrows
      omega

theorem binomial_ten_three :
    (∃ cause, binomial (-1) 3 = .error (.domain cause)) ∧ binomial 10 3 = .ok 120 := by
  have hnegative : ¬ AreIndices (-1) 3 := fun h => absurd h.1.1 (by decide)
  have hindices : AreIndices 10 3 := ⟨⟨by decide, by decide⟩, by decide, by decide⟩
  obtain ⟨-, hvalue, -⟩ := (binomial_decides 10 3).2 hindices
  refine ⟨(binomial_decides (-1) 3).1 hnegative, ?_⟩
  rw [hvalue, if_pos (by decide)]
  rfl

end NumericActions
