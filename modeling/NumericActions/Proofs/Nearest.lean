import Mathlib.Tactic.Linarith
import Mathlib.Tactic.Ring
import NumericActions.Rounding

/-!
# Rounding goes to the nearest number

`Rounding.roundQuotient` divides by the spacing of the 53-bit numbers next to a quotient.
That is rounding to the nearest 53-bit number, also where the spacing changes: below the
power of two at which a spacing begins, that power is the last of its multiples.

* `roundQuotient_le`, `le_roundQuotient`: no 53-bit number is passed over.
* `roundQuotient_mul`: a 53-bit number is rounded to itself.
* `distance_roundQuotient_le`: no 53-bit number is nearer.
* `two_mul_distance_le`: the error is at most half the spacing.
* `two_pow_dvd_roundQuotient`: rounding keeps the zero bits at the end.
* `roundQuotient_mul_two_pow`: rounding does not depend on the scale.
-/

namespace NumericActions.Rounding

/-! ## Multiples of a spacing -/

theorem spacing_dvd_spacing {n m : Nat} (h : n ≤ m) : spacing n ∣ spacing m := by
  by_cases hn : n = 0
  · subst hn
    exact Nat.one_dvd _
  · have hlog : n.log2 ≤ m.log2 :=
      (Nat.le_log2 (by omega)).mpr (Nat.le_trans (Nat.log2_self_le hn) h)
    exact Nat.pow_dvd_pow 2 (by omega)

theorem spacing_dvd_of_onGrid {g n : Nat} (hg : OnGrid g) (h : n ≤ g) : spacing n ∣ g :=
  Nat.dvd_trans (spacing_dvd_spacing h) (Nat.dvd_of_mod_eq_zero hg)

/-- Between a 53-bit number and a greater number lies a multiple of the spacing of the
greater one. -/
theorem exists_multiple_between {g n : Nat} (hg : OnGrid g) (h : g ≤ n) :
    ∃ m, g ≤ m * spacing n ∧ m * spacing n ≤ n := by
  by_cases hn : n = 0
  · subst hn
    exact ⟨0, by omega, by omega⟩
  · by_cases hlow : 2 ^ n.log2 ≤ g
    · have hlog : n.log2 ≤ g.log2 := (Nat.le_log2 (by have := Nat.two_pow_pos n.log2; omega)).mpr hlow
      have hd : spacing n ∣ g :=
        Nat.dvd_trans (Nat.pow_dvd_pow 2 (by omega)) (Nat.dvd_of_mod_eq_zero hg)
      exact ⟨g / spacing n, by rw [Nat.div_mul_cancel hd], by rwa [Nat.div_mul_cancel hd]⟩
    · have hd : spacing n ∣ 2 ^ n.log2 := Nat.pow_dvd_pow 2 (Nat.sub_le _ _)
      refine ⟨2 ^ n.log2 / spacing n, ?_, ?_⟩
      · rw [Nat.div_mul_cancel hd]
        omega
      · rw [Nat.div_mul_cancel hd]
        exact Nat.log2_self_le hn

/-! ## The nearest integer -/

theorem nearestInt_le_of_le {num den m : Nat} (hd : 0 < den) (h : num ≤ m * den) :
    nearestInt num den ≤ m := by
  have hq : num / den ≤ m := Nat.div_le_of_le_mul (by rwa [Nat.mul_comm])
  rcases Nat.lt_or_eq_of_le hq with hlt | heq
  · exact Nat.le_trans (nearestInt_le num den) hlt
  · have he := Nat.div_add_mod num den
    rw [heq, Nat.mul_comm] at he
    have hr : num % den = 0 := by omega
    unfold nearestInt
    simp only [hr, Nat.mul_zero, if_pos hd, heq, Nat.le_refl]

theorem le_nearestInt_of_le {num den m : Nat} (hd : 0 < den) (h : m * den ≤ num) :
    m ≤ nearestInt num den := by
  have hq : m ≤ num / den := (Nat.le_div_iff_mul_le hd).mpr h
  unfold nearestInt
  dsimp only
  split
  · exact hq
  · split <;> omega

/-- The nearest integer is off by at most one half. -/
theorem nearestInt_half (num : Nat) {den : Nat} (hd : 0 < den) :
    2 * num ≤ 2 * (nearestInt num den * den) + den ∧
      2 * (nearestInt num den * den) ≤ 2 * num + den := by
  have he := Nat.div_add_mod num den
  have hr := Nat.mod_lt num hd
  rw [Nat.mul_comm] at he
  unfold nearestInt
  dsimp only
  by_cases hlow : 2 * (num % den) < den
  · rw [if_pos hlow]
    omega
  · rw [if_neg hlow]
    by_cases hhigh : den < 2 * (num % den)
    · rw [if_pos hhigh, Nat.add_mul, Nat.one_mul]
      omega
    · rw [if_neg hhigh]
      rcases Nat.mod_two_eq_zero_or_one (num / den) with h0 | h1
      · rw [h0, Nat.add_zero]
        omega
      · rw [h1, Nat.add_mul, Nat.one_mul]
        omega

/-- No multiple of a step is nearer than the rounded one. -/
theorem distance_nearestInt_le (n m : Nat) {step : Nat} (hs : 0 < step) :
    ((n : Int) - (nearestInt n step * step : Nat)).natAbs ≤ ((n : Int) - (m * step : Nat)).natAbs := by
  obtain ⟨hlow, hhigh⟩ := nearestInt_half n hs
  generalize nearestInt n step = r at hlow hhigh
  rcases Nat.lt_trichotomy m r with h | rfl | h
  · have hm : m * step + step ≤ r * step := by
      rw [← Nat.succ_mul]
      exact Nat.mul_le_mul_right step h
    omega
  · exact Nat.le_refl _
  · have hm : r * step + step ≤ m * step := by
      rw [← Nat.succ_mul]
      exact Nat.mul_le_mul_right step h
    omega

/-! ## Rounded quotients -/

theorem roundQuotient_le {num den g : Nat} (hd : 0 < den) (hg : OnGrid g)
    (h : num ≤ g * den) : roundQuotient num den ≤ g := by
  have hq : num / den ≤ g := Nat.div_le_of_le_mul (by rwa [Nat.mul_comm])
  obtain ⟨m, hm⟩ := spacing_dvd_of_onGrid hg hq
  have hs := spacing_pos (num / den)
  have hle : nearestInt num (den * spacing (num / den)) ≤ m := by
    refine nearestInt_le_of_le (Nat.mul_pos hd hs) ?_
    calc num ≤ g * den := h
      _ = m * (den * spacing (num / den)) := by
        conv => lhs; rw [hm]
        ring
  unfold roundQuotient
  calc nearestInt num (den * spacing (num / den)) * spacing (num / den)
      ≤ m * spacing (num / den) := Nat.mul_le_mul_right _ hle
    _ = g := by rw [Nat.mul_comm, ← hm]

theorem le_roundQuotient {num den g : Nat} (hd : 0 < den) (hg : OnGrid g)
    (h : g * den ≤ num) : g ≤ roundQuotient num den := by
  have hq : g ≤ num / den := (Nat.le_div_iff_mul_le hd).mpr h
  obtain ⟨m, hgm, hmq⟩ := exists_multiple_between hg hq
  have hs := spacing_pos (num / den)
  have hle : m ≤ nearestInt num (den * spacing (num / den)) := by
    refine le_nearestInt_of_le (Nat.mul_pos hd hs) ?_
    calc m * (den * spacing (num / den)) = m * spacing (num / den) * den := by ring
      _ ≤ num / den * den := Nat.mul_le_mul_right den hmq
      _ ≤ num := Nat.div_mul_le_self num den
  exact Nat.le_trans hgm (Nat.mul_le_mul_right _ hle)

theorem roundQuotient_mul {g den : Nat} (hd : 0 < den) (hg : OnGrid g) :
    roundQuotient (g * den) den = g :=
  Nat.le_antisymm (roundQuotient_le hd hg (Nat.le_refl _)) (le_roundQuotient hd hg (Nat.le_refl _))

/-! ## Rounded integers -/

theorem roundQuotient_one (n : Nat) :
    roundQuotient n 1 = nearestInt n (spacing n) * spacing n := by
  unfold roundQuotient
  dsimp only
  rw [Nat.div_one, Nat.one_mul]

/-- No 53-bit number is nearer than the rounded one. -/
theorem distance_roundQuotient_le (n : Nat) {g : Nat} (hg : OnGrid g) :
    ((n : Int) - roundQuotient n 1).natAbs ≤ ((n : Int) - g).natAbs := by
  rw [roundQuotient_one]
  rcases Nat.le_total n g with h | h
  · obtain ⟨m, hm⟩ := spacing_dvd_of_onGrid hg h
    rw [Nat.mul_comm] at hm
    have hd := distance_nearestInt_le n m (spacing_pos n)
    rwa [← hm] at hd
  · obtain ⟨m, hgm, hmn⟩ := exists_multiple_between hg h
    have hd := distance_nearestInt_le n m (spacing_pos n)
    omega

theorem two_mul_distance_le (n : Nat) :
    2 * ((n : Int) - roundQuotient n 1).natAbs ≤ spacing n := by
  obtain ⟨hlow, hhigh⟩ := nearestInt_half n (spacing_pos n)
  rw [roundQuotient_one]
  omega

theorem spacing_dvd_roundQuotient (n : Nat) : spacing n ∣ roundQuotient n 1 := by
  rw [roundQuotient_one]
  exact Nat.dvd_mul_left _ _

theorem two_pow_dvd_roundQuotient {n v : Nat} (h : 2 ^ v ∣ n) : 2 ^ v ∣ roundQuotient n 1 := by
  rcases Nat.le_total v (n.log2 - 52) with hv | hv
  · exact Nat.dvd_trans (Nat.pow_dvd_pow 2 hv) (spacing_dvd_roundQuotient n)
  · have hg : OnGrid n := Nat.mod_eq_zero_of_dvd (Nat.dvd_trans (Nat.pow_dvd_pow 2 hv) h)
    have hr := roundQuotient_mul Nat.one_pos hg
    rw [Nat.mul_one] at hr
    rwa [hr]

/-! ## Scaling by powers of two -/

theorem nearestInt_mul_mul (num den : Nat) {c : Nat} (hc : 0 < c) :
    nearestInt (num * c) (den * c) = nearestInt num den := by
  have hdouble : 2 * (num % den * c) = 2 * (num % den) * c := by ring
  unfold nearestInt
  dsimp only
  rw [Nat.mul_div_mul_right _ _ hc, Nat.mul_mod_mul_right, hdouble]
  simp only [Nat.mul_lt_mul_right hc]

/-- A quotient is rounded in the same way in every expansion of its terms. -/
theorem roundQuotient_mul_mul (num den : Nat) {c : Nat} (hc : 0 < c) :
    roundQuotient (num * c) (den * c) = roundQuotient num den := by
  unfold roundQuotient
  dsimp only
  rw [Nat.mul_div_mul_right _ _ hc, Nat.mul_right_comm, nearestInt_mul_mul _ _ hc]

/-- From `2 ^ 52` on the spacing grows with the number. -/
theorem spacing_mul_two_pow {n : Nat} (h : 2 ^ 52 ≤ n) (e : Nat) :
    spacing (n * 2 ^ e) = spacing n * 2 ^ e := by
  have hn : n ≠ 0 := by omega
  have hlog : (n * 2 ^ e).log2 = n.log2 + e := by
    rw [Nat.log2_eq_iff (Nat.mul_ne_zero hn (Nat.two_pow_pos e).ne'), Nat.pow_add,
      Nat.add_right_comm, Nat.pow_add]
    exact ⟨Nat.mul_le_mul_right _ (Nat.log2_self_le hn),
      Nat.mul_lt_mul_of_pos_right Nat.lt_log2_self (Nat.two_pow_pos e)⟩
  have hlow : 52 ≤ n.log2 := (Nat.le_log2 hn).mpr h
  unfold spacing
  rw [hlog, Nat.pow_eq, Nat.pow_eq, ← Nat.pow_add]
  congr 1
  omega

theorem OnGrid.mul_two_pow {n : Nat} (h : OnGrid n) (e : Nat) : OnGrid (n * 2 ^ e) := by
  have hd : spacing n ∣ n := Nat.dvd_of_mod_eq_zero h
  have hle : n / spacing n ≤ Nat.pow 2 53 :=
    Nat.div_le_of_le_mul (Nat.mul_comm (Nat.pow 2 53) _ ▸ Nat.le_of_lt (lt_spacing_mul n))
  have hgrid := onGrid_mul_two_pow hle (n.log2 - 52 + e)
  have hn : n / spacing n * 2 ^ (n.log2 - 52 + e) = n * 2 ^ e := by
    rw [Nat.pow_add, ← Nat.mul_assoc]
    exact congrArg (· * 2 ^ e) (Nat.div_mul_cancel hd)
  rwa [Nat.pow_eq, hn] at hgrid

theorem OnGrid.of_mul_two_pow {n e : Nat} (h : OnGrid (n * 2 ^ e)) : OnGrid n := by
  by_cases hlow : 2 ^ 52 ≤ n
  · have hd : spacing n * 2 ^ e ∣ n * 2 ^ e := by
      rw [← spacing_mul_two_pow hlow]
      exact Nat.dvd_of_mod_eq_zero h
    exact Nat.mod_eq_zero_of_dvd (Nat.dvd_of_mul_dvd_mul_right (Nat.two_pow_pos e) hd)
  · refine onGrid_of_lt ?_
    rw [Nat.pow_eq]
    omega

/-- A number that is scaled by a power of two is rounded as before. Numbers with at most 53
bits are not rounded at all. -/
theorem roundQuotient_mul_two_pow (n e : Nat) :
    roundQuotient (n * 2 ^ e) 1 = roundQuotient n 1 * 2 ^ e := by
  by_cases hlow : 2 ^ 52 ≤ n
  · rw [roundQuotient_one, roundQuotient_one, spacing_mul_two_pow hlow,
      nearestInt_mul_mul _ _ (Nat.two_pow_pos e), Nat.mul_assoc]
  · have hgrid : OnGrid n := onGrid_of_lt (by rw [Nat.pow_eq]; omega)
    have hsmall := roundQuotient_mul Nat.one_pos hgrid
    have hscaled := roundQuotient_mul Nat.one_pos (hgrid.mul_two_pow e)
    rw [Nat.mul_one] at hsmall hscaled
    rw [hsmall, hscaled]

end NumericActions.Rounding
