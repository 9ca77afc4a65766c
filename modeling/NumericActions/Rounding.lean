/-!
# Rounding to 53 significant bits

Exact quotients and square roots of natural numbers are rounded to the nearest number
that has at most 53 significant bits, a half-way case going to the even neighbour. All
of it is integer arithmetic: a quotient is given by its two terms and a root by its
radicand, so nothing is lost before the one rounding.

* `onGrid_roundQuotient`, `onGrid_roundRoot`: a rounded result has at most 53
  significant bits.
* `nearestInt_mul`: an exact quotient is rounded to itself.
* `sqrtFloor_spec`: `sqrtFloor n` is the integer part of the square root of `n`.
-/

namespace NumericActions.Rounding

/-! ## The grid of 53-bit numbers -/

/-- The distance of two neighbouring 53-bit numbers next to a number whose integer
part is `n`. Below `2 ^ 53` every integer is on the grid. -/
def spacing (n : Nat) : Nat := Nat.pow 2 (n.log2 - 52)

/-- `n` has at most 53 significant bits. -/
def OnGrid (n : Nat) : Prop := n % spacing n = 0

instance (n : Nat) : Decidable (OnGrid n) := by unfold OnGrid; infer_instance

theorem spacing_pos (n : Nat) : 0 < spacing n := Nat.two_pow_pos _

theorem spacing_of_lt {n : Nat} (h : n < Nat.pow 2 53) : spacing n = 1 := by
  unfold spacing
  by_cases hn : n = 0
  · subst hn
    rfl
  · have : n.log2 < 53 := (Nat.log2_lt hn).mpr h
    rw [show n.log2 - 52 = 0 by omega]

theorem onGrid_of_lt {n : Nat} (h : n < Nat.pow 2 53) : OnGrid n := by
  unfold OnGrid
  rw [spacing_of_lt h, Nat.mod_one]

theorem lt_spacing_mul (n : Nat) : n < Nat.pow 2 53 * spacing n := by
  have h := @Nat.lt_log2_self n
  unfold spacing
  simp only [Nat.pow_eq]
  rw [← Nat.pow_add]
  exact Nat.lt_of_lt_of_le h (Nat.pow_le_pow_right (by omega) (by omega))

/-- A multiple of a power of two by at most `2 ^ 53` is on the grid. -/
theorem onGrid_mul_two_pow {m : Nat} (hm : m ≤ Nat.pow 2 53) (e : Nat) :
    OnGrid (m * Nat.pow 2 e) := by
  unfold OnGrid spacing
  simp only [Nat.pow_eq] at hm ⊢
  apply Nat.mod_eq_zero_of_dvd
  by_cases h0 : m = 0
  · subst h0
    simp
  · have hpos : m * 2 ^ e ≠ 0 := Nat.mul_ne_zero h0 (by have := Nat.two_pow_pos e; omega)
    rcases Nat.lt_or_eq_of_le hm with hlt | rfl
    · have hlog : (m * 2 ^ e).log2 < 53 + e := by
        rw [Nat.log2_lt hpos, Nat.pow_add]
        exact Nat.mul_lt_mul_of_pos_right hlt (Nat.two_pow_pos e)
      exact Nat.dvd_trans (Nat.pow_dvd_pow 2 (by omega)) (Nat.dvd_mul_left _ _)
    · rw [← Nat.pow_add, Nat.log2_two_pow]
      exact Nat.pow_dvd_pow 2 (by omega)

theorem onGrid_mul_spacing {m : Nat} (hm : m ≤ Nat.pow 2 53) (n : Nat) :
    OnGrid (m * spacing n) :=
  onGrid_mul_two_pow hm _

/-! ## Quotients -/

/-- The integer nearest to `num / den`, the even one of two that are equally near. -/
def nearestInt (num den : Nat) : Nat :=
  let whole := num / den
  let rest := num % den
  if 2 * rest < den then whole
  else if den < 2 * rest then whole + 1
  else whole + whole % 2

theorem nearestInt_le (num den : Nat) : nearestInt num den ≤ num / den + 1 := by
  unfold nearestInt
  dsimp only
  split
  · omega
  · split <;> omega

theorem nearestInt_mul (n : Nat) {den : Nat} (h : 0 < den) : nearestInt (n * den) den = n := by
  unfold nearestInt
  simp [Nat.mul_div_cancel _ h, h]

/-- The 53-bit number nearest to `num / den`. -/
def roundQuotient (num den : Nat) : Nat :=
  let step := spacing (num / den)
  nearestInt num (den * step) * step

theorem onGrid_roundQuotient (num den : Nat) : OnGrid (roundQuotient num den) := by
  unfold roundQuotient
  apply onGrid_mul_spacing
  have h := nearestInt_le num (den * spacing (num / den))
  rw [← Nat.div_div_eq_div_mul] at h
  have := Nat.div_lt_of_lt_mul
    (Nat.mul_comm (Nat.pow 2 53) (spacing (num / den)) ▸ lt_spacing_mul (num / den))
  omega

/-! ## Square roots -/

/-- One binary digit of the root for every two of the radicand. -/
def sqrtDigits : Nat → Nat → Nat
  | 0, _ => 0
  | digits + 1, n =>
    let root := 2 * sqrtDigits digits (n / 4)
    if (root + 1) * (root + 1) ≤ n then root + 1 else root

def sqrtFloor (n : Nat) : Nat := sqrtDigits (n.log2 / 2 + 1) n

theorem sqrtDigits_spec (digits : Nat) : ∀ n, n < Nat.pow 4 digits →
    sqrtDigits digits n * sqrtDigits digits n ≤ n ∧
      n < (sqrtDigits digits n + 1) * (sqrtDigits digits n + 1) := by
  induction digits with
  | zero =>
    intro n hn
    have : n = 0 := Nat.lt_one_iff.mp hn
    subst this
    simp [sqrtDigits]
  | succ digits ih =>
    intro n hn
    have hq : n / 4 < Nat.pow 4 digits := by
      have : n < Nat.pow 4 digits * 4 := hn
      omega
    obtain ⟨hlow, hhigh⟩ := ih (n / 4) hq
    simp only [sqrtDigits]
    generalize sqrtDigits digits (n / 4) = r at hlow hhigh
    have h4 : 2 * r * (2 * r) = 4 * (r * r) := by
      rw [Nat.mul_mul_mul_comm]
    have h5 : (2 * r + 1 + 1) * (2 * r + 1 + 1) = 4 * ((r + 1) * (r + 1)) := by
      rw [show 2 * r + 1 + 1 = 2 * (r + 1) by omega, Nat.mul_mul_mul_comm]
    split
    · exact ⟨by assumption, by omega⟩
    · exact ⟨by omega, by omega⟩

theorem sqrtFloor_spec (n : Nat) :
    sqrtFloor n * sqrtFloor n ≤ n ∧ n < (sqrtFloor n + 1) * (sqrtFloor n + 1) := by
  apply sqrtDigits_spec
  have h := @Nat.lt_log2_self n
  refine Nat.lt_of_lt_of_le h ?_
  rw [Nat.pow_eq, show (4 : Nat) = Nat.pow 2 2 from rfl, Nat.pow_eq, ← Nat.pow_mul]
  exact Nat.pow_le_pow_right (by omega) (by omega)

def roundRoot (n : Nat) : Nat :=
  let root := sqrtFloor n
  let step := spacing root
  let whole := root / step
  let middle := (2 * whole + 1) * step
  if 4 * n < middle * middle then whole * step
  else if middle * middle < 4 * n then (whole + 1) * step
  else (whole + whole % 2) * step

theorem onGrid_roundRoot (n : Nat) : OnGrid (roundRoot n) := by
  unfold roundRoot
  dsimp only
  have h : sqrtFloor n / spacing (sqrtFloor n) < Nat.pow 2 53 := Nat.div_lt_of_lt_mul
    (Nat.mul_comm (Nat.pow 2 53) (spacing (sqrtFloor n)) ▸ lt_spacing_mul (sqrtFloor n))
  split
  · exact onGrid_mul_spacing (by omega) _
  · split <;> exact onGrid_mul_spacing (by omega) _

end NumericActions.Rounding
