import NumericActions.Proofs.HalfEven

/-!
# Sums are rounded once

The sum of finite numbers is their exact sum, rounded once, if none of them is below
`2 ^ (-958)` but zero. Then scaling down loses no bit, so the second pass sums the same numbers
in another unit and scaling back is the only rounding into the range of binary64.

* `exactTotal`: the sum of the addends as rational numbers.
* `roundsTo_roundedSum`: what a pass comes to is the exact sum, rounded once.
* `sum_roundsTo`: the sum is rounded once, by whichever pass it is found.
-/

namespace NumericActions

open Expansion Rounding

/-- The sum of the exact values of finite addends. -/
def exactTotal (addends : List Binary64) : ℚ := (addends.map Binary64.toRat).sum

theorem exactTotal_eq (addends : List Binary64) :
    exactTotal addends = (exactSum addends : ℚ) / unitsPerOne := by
  induction addends with
  | nil => exact (zero_div _).symm
  | cons x addends ih =>
    have hexact : exactSum (x :: addends) = x.exactUnits + exactSum addends := rfl
    have htotal : exactTotal (x :: addends) = x.toRat + exactTotal addends := rfl
    rw [htotal, ih, hexact, Int.cast_add, add_div]
    rfl

theorem roundsTo_roundedSum (addends : List Binary64) :
    RoundsTo (exactTotal addends) (roundedSum addends) := by
  rw [exactTotal_eq]
  exact roundsTo_ofSignedUnits (exactSum addends)

/-! ## Sizes -/

theorem Binary64.toRat_eq_zero_iff (x : Binary64) : x.toRat = 0 ↔ x.exactUnits = 0 := by
  unfold toRat
  rw [div_eq_zero_iff, or_iff_left cast_unitsPerOne_pos.ne', Int.cast_eq_zero]

theorem Binary64.le_abs_toRat_iff (x : Binary64) :
    1 / 2 ^ 958 ≤ |x.toRat| ↔ 2 ^ 116 ≤ x.exactUnits.natAbs := by
  have hcast : ∀ e : Nat, (2 : ℚ) ^ e ≤ x.exactUnits.natAbs ↔ 2 ^ e ≤ x.exactUnits.natAbs :=
    fun e => by norm_cast
  obtain ⟨e, he⟩ : ∃ e, e = 958 := ⟨_, rfl⟩
  obtain ⟨u, hu, hone⟩ := exists_unitsPerOne_eq
  have hunits : (1 : ℚ) / 2 ^ e * unitsPerOne = 2 ^ 116 := by
    rw [hone, show u = e + 116 by omega, Nat.cast_pow, Nat.cast_ofNat, pow_add, ← mul_assoc,
      one_div_mul_cancel (pow_ne_zero e two_ne_zero), one_mul]
  unfold toRat
  rw [← he, abs_div, abs_of_pos cast_unitsPerOne_pos, le_div_iff₀ cast_unitsPerOne_pos, hunits,
    ← Int.cast_abs, ← Nat.cast_natAbs, hcast]

theorem Binary64.two_pow_dvd_of_toRat {x : Binary64}
    (h : x.toRat = 0 ∨ 1 / 2 ^ 958 ≤ |x.toRat|) : 2 ^ 64 ∣ x.exactUnits.natAbs := by
  rcases h with hzero | hlarge
  · rw [(toRat_eq_zero_iff x).mp hzero]
    exact Nat.dvd_zero _
  · exact two_pow_dvd_exactUnits ((le_abs_toRat_iff x).mp hlarge)

/-! ## The sum -/

/-- Fewer than `2 ^ 63` finite numbers, each zero or not below `2 ^ (-958)`, have as their sum
the exact one, rounded once to the nearest number, ties to even. Both passes come to it: the
first one if it does not overflow, and the second one, which never does, when it is scaled
back. -/
theorem sum_roundsTo {addends : List Binary64} (hlength : addends.length < 2 ^ 63)
    (hfinite : AllFinite addends)
    (hsizes : ∀ x ∈ addends, x.toRat = 0 ∨ 1 / 2 ^ 958 ≤ |x.toRat|) :
    ∃ result, sum addends = .ok result ∧
      (∀ y, RoundsTo (exactTotal addends) y ↔ y = result) ∧
      (exactTotal addends = 0 → result = .zero false) ∧
      (result = .infinity false ↔ overflowThreshold ≤ exactTotal addends) ∧
      (result = .infinity true ↔ exactTotal addends ≤ -overflowThreshold) ∧
      (∀ first, sumOnce addends = some first → first = result) ∧
      ∃ scaled, sumOnce (addends.map (· * downscale)) = some scaled ∧ scaled * upscale = result := by
  have hdvd : ∀ x ∈ addends, 2 ^ 64 ∣ x.exactUnits.natAbs := fun x hx =>
    Binary64.two_pow_dvd_of_toRat (hsizes x hx)
  have hagree := rescaledSum_eq hfinite hdvd
  have hrounds := roundsTo_roundedSum addends
  obtain ⟨scaled, hscaled⟩ := exists_sumOnce_downscale hlength
  refine ⟨roundedSum addends, ?_, fun y => ⟨fun hy => hy.unique hrounds, fun hy => hy ▸ hrounds⟩,
    fun hzero => (hzero ▸ hrounds).eq_zero, hrounds.eq_infinity_false_iff,
    hrounds.eq_infinity_true_iff, fun first hfirst => sumOnce_eq hfinite hfirst,
    scaled, hscaled, ?_⟩
  · have hpasses := overflows_le_one hlength
    rw [sum_eq hfinite]
    interval_cases overflows addends
    · rfl
    · rw [sumAfter, hagree]
  · rw [sumOnce_eq hfinite.downscale hscaled]
    exact hagree

/-- The first pass overflows, and the sum is found all the same. -/
theorem sum_roundsTo_greatest :
    sumOnce [1e308, 1e308, -1e308] = none ∧ sum [1e308, 1e308, -1e308] = .ok 1e308 ∧
      RoundsTo (exactTotal [1e308, 1e308, -1e308]) 1e308 := by
  have hfinite : AllFinite [1e308, 1e308, -1e308] := by decide +kernel
  have hlarge : ∀ x ∈ ([1e308, 1e308, -1e308] : List Binary64), 2 ^ 116 ≤ x.exactUnits.natAbs := by
    decide +kernel
  obtain ⟨result, hsum, hrounds, -, -, -, -, scaled, hscaled, hresult⟩ :=
    sum_roundsTo (by decide) hfinite fun x hx => .inr ((Binary64.le_abs_toRat_iff x).mpr (hlarge x hx))
  have hvalue : result = 1e308 := by
    have hsecond : sumOnce ([1e308, 1e308, -1e308].map (· * downscale)) =
        some (1e308 * downscale) := by decide +kernel
    rw [hscaled, Option.some.injEq] at hsecond
    rw [← hresult, hsecond]
    decide +kernel
  rw [hvalue] at hsum hrounds
  exact ⟨by decide +kernel, hsum, (hrounds _).mpr rfl⟩

end NumericActions
