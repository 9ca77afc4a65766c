import Mathlib.Data.Rat.Floor
import NumericActions.Proofs.Outcome
import NumericActions.Proofs.WidenedExtremes
import NumericActions.Scalar.Basic

/-!
# Half up

Rounding to an integer adds one to the integer below if the binary64 difference from it is at
least a half. That difference is rounded itself, so that just below zero it may come out as one.
But it is exact when it is less than a half, and a half is a binary64 number, which rounding does
not pass over. So the comparison with a half is that of the exact numbers.

* `Binary64.onGrid_emod`: a difference below a half is not rounded.
* `Binary64.half_le_sub_floorInt_iff`: the comparison is exact.
* `roundHalfUp_finite`: the result is the integer part of the number plus a half.
* `roundHalfUp_floor`: the nearest integer, the order of the results, and whole numbers.
-/

namespace NumericActions

open Expansion Rounding

namespace Binary64

/-! ## The fractional part -/

/-- A half is a power of two units. -/
theorem exists_half_eq : ∃ e, e = 1073 ∧ unitsPerOne = 2 ^ (e + 1) ∧
    (0.5 : Binary64).position = some (.units (2 ^ e : Nat)) := by
  obtain ⟨u, hu, hone⟩ := exists_unitsPerOne_eq
  have hposition : (0.5 : Binary64).position = some (.units (Nat.pow 2 1073 : Nat)) := by
    decide +kernel
  obtain ⟨e, he⟩ : ∃ e, e = 1073 := ⟨_, rfl⟩
  refine ⟨e, he, by rw [hone, show u = e + 1 by omega], ?_⟩
  rw [hposition, ← he, Nat.pow_eq]

/-- What is left of a number above the integer below it has at most 53 significant bits if it is
less than a half. From a half on a number is a multiple of `2 ^ (-53)`, and what is left of it as
well. Of the numbers below a half only those that are not negative have so little left, and they
are left as a whole. -/
theorem onGrid_emod {negative : Bool} {m : Magnitude}
    (h : 2 * (signedUnits negative m % unitsPerOne) < unitsPerOne) :
    OnGrid (signedUnits negative m % unitsPerOne).natAbs := by
  obtain ⟨e, he, hone, -⟩ := exists_half_eq
  have habs := natAbs_signedUnits negative m
  have htwo : 2 ^ (e + 1) = 2 ^ e * 2 := Nat.pow_succ 2 e
  have hnonneg : 0 ≤ signedUnits negative m % unitsPerOne :=
    Int.emod_nonneg _ (Int.natCast_ne_zero.mpr unitsPerOne_pos.ne')
  by_cases hm : 2 ^ e ≤ m.units
  · have hdvd : 2 ^ (e - 52) ∣ m.units :=
      two_pow_dvd_of_le m.onGrid (by rwa [Nat.sub_add_cancel (by omega)])
    have hsigned : ((2 ^ (e - 52) : Nat) : Int) ∣ signedUnits negative m :=
      Int.natCast_dvd.mpr (habs ▸ hdvd)
    have hunit : ((2 ^ (e - 52) : Nat) : Int) ∣ unitsPerOne := by
      rw [hone]
      exact Int.natCast_dvd_natCast.mpr (Nat.pow_dvd_pow 2 (by omega))
    have hrest : ((2 ^ (e - 52) : Nat) : Int) ∣ signedUnits negative m % unitsPerOne := by
      rw [Int.emod_def]
      exact Int.dvd_sub hsigned (Int.dvd_mul_of_dvd_left hunit)
    obtain ⟨k, hk⟩ := Int.natCast_dvd.mp hrest
    have hlt : 2 ^ (e - 52) * k < 2 ^ (e - 52) * 2 ^ 52 := by
      rw [← Nat.pow_add, Nat.sub_add_cancel (by omega)]
      omega
    have hle : k ≤ 2 ^ 53 := by
      have := Nat.lt_of_mul_lt_mul_left hlt
      omega
    rw [hk, Nat.mul_comm]
    exact onGrid_mul_two_pow hle (e - 52)
  · cases negative with
    | false =>
      have hrest : signedUnits false m % unitsPerOne = signedUnits false m :=
        Int.emod_eq_of_lt (Int.natCast_nonneg _) (Int.ofNat_lt.mpr (by omega))
      rw [hrest, habs]
      exact m.onGrid
    | true =>
      have hsigned : signedUnits true m = -(m.units : Int) := rfl
      by_cases hzero : m.units = 0
      · have hrest : signedUnits true m % unitsPerOne = 0 := by
          rw [hsigned, hzero]
          exact Int.zero_emod _
        rw [hrest]
        exact onGrid_of_lt (Nat.two_pow_pos 53)
      · have hrest : signedUnits true m % unitsPerOne = unitsPerOne - m.units := by
          rw [hsigned, ← Int.add_emod_right, Int.add_comm, ← Int.sub_eq_add_neg]
          exact Int.emod_eq_of_lt (by omega) (by omega)
        omega

theorem position_ofInt_floorInt (negative : Bool) (m : Magnitude) :
    (ofInt (floorInt negative m)).position = some (.units (floorInt negative m * unitsPerOne)) := by
  obtain ⟨hgrid, hrange⟩ := floorInt_representable negative m
  rw [← Int.natAbs_natCast unitsPerOne, ← Int.natAbs_mul] at hgrid hrange
  rw [ofInt_eq_ofSignedUnits, position_ofSignedUnits, roundUnits_of_onGrid hgrid,
    Position.clamp_of_natAbs_lt hrange]

theorem exists_finite_of_position {x : Binary64} {n : Int} (h : x.position = some (.units n)) :
    ∃ negative m, x = .finite negative m ∧ signedUnits negative m = n := by
  cases x with
  | nan => cases h
  | infinity negative => cases negative <;> cases h
  | finite negative m =>
    cases h
    exact ⟨negative, m, rfl, rfl⟩

/-- The difference from the integer below, before it is rounded. -/
theorem exists_sub_floorInt_eq (negative : Bool) (m : Magnitude) :
    ∃ zeroSign, Binary64.finite negative m - ofInt (floorInt negative m) =
      ofSignedUnits zeroSign (signedUnits negative m % unitsPerOne) := by
  obtain ⟨s, k, hfloor, hunits⟩ := exists_finite_of_position (position_ofInt_floorInt negative m)
  have hneg : signedUnits (!s) k = -signedUnits s k := by
    cases s with
    | false => rfl
    | true => exact (Int.neg_neg _).symm
  refine ⟨negative && !s, ?_⟩
  rw [hfloor]
  show ofSignedUnits _ (signedUnits negative m + signedUnits (!s) k) = _
  rw [hneg, hunits, floorInt, Int.fdiv_eq_ediv_of_nonneg _ (Int.natCast_nonneg _), Int.emod_def,
    ← Int.sub_eq_add_neg, Int.mul_comm]

theorem le_iff_of_position {x y : Binary64} {n k : Int} (hx : x.position = some (.units n))
    (hy : y.position = some (.units k)) : x.le y = true ↔ n ≤ k := by
  unfold le lt eq
  rw [hx, hy]
  simp only [Position.lt, Bool.or_eq_true, decide_eq_true_eq, beq_iff_eq, Position.units.injEq]
  omega

/-- The rounded difference from the integer below is at least a half exactly if the difference
is. -/
theorem half_le_sub_floorInt_iff (negative : Bool) (m : Magnitude) :
    Binary64.le 0.5 (.finite negative m - ofInt (floorInt negative m)) = true ↔
      (unitsPerOne : Int) ≤ 2 * (signedUnits negative m % unitsPerOne) := by
  obtain ⟨e, he, hone, hhalf⟩ := exists_half_eq
  obtain ⟨zeroSign, hsub⟩ := exists_sub_floorInt_eq negative m
  have hexact := @onGrid_emod negative m
  have hnonneg : 0 ≤ signedUnits negative m % unitsPerOne :=
    Int.emod_nonneg _ (Int.natCast_ne_zero.mpr unitsPerOne_pos.ne')
  have hlt : signedUnits negative m % unitsPerOne < unitsPerOne :=
    Int.emod_lt_of_pos _ (Int.natCast_pos.mpr unitsPerOne_pos)
  generalize signedUnits negative m % unitsPerOne = rest at hsub hexact hnonneg hlt ⊢
  have htwo : 2 ^ (e + 1) = 2 ^ e * 2 := Nat.pow_succ 2 e
  have hlimit : unitsPerOne < magnitudeLimit := by
    rw [hone]
    exact two_pow_lt_magnitudeLimit (by omega)
  -- zero, a half and one are rounded to themselves
  have hzero : roundUnits 0 = 0 := roundUnits_small (Nat.two_pow_pos 53)
  have hmiddle : roundUnits (2 ^ e : Nat) = (2 ^ e : Nat) := roundUnits_of_onGrid (onGrid_two_pow e)
  have hunit : roundUnits unitsPerOne = unitsPerOne := by
    apply roundUnits_of_onGrid
    rw [Int.natAbs_natCast]
    exact onGrid_unitsPerOne
  have hlow := roundUnits_mono hnonneg
  have hhigh := roundUnits_mono (Int.le_of_lt hlt)
  have hposition := position_ofSignedUnits zeroSign rest
  rw [Position.clamp_of_natAbs_lt (by omega)] at hposition
  rw [hsub, le_iff_of_position hhalf hposition]
  constructor
  · intro hle
    by_contra hnot
    have := roundUnits_of_onGrid (hexact (by omega))
    omega
  · intro hle
    have := roundUnits_mono (show ((2 ^ e : Nat) : Int) ≤ rest by omega)
    omega

/-- Finite numbers are ordered by their exact values. -/
theorem le_iff_toRat_le {x y : Binary64} (hx : x.isFinite = true) (hy : y.isFinite = true) :
    x.le y = true ↔ x.toRat ≤ y.toRat := by
  obtain ⟨s, m, rfl⟩ := exists_of_isFinite hx
  obtain ⟨t, k, rfl⟩ := exists_of_isFinite hy
  rw [le_iff_of_position rfl rfl, toRat, toRat,
    div_le_div_iff_of_pos_right cast_unitsPerOne_pos, Int.cast_le]
  rfl

end Binary64

/-! ## Integer parts -/

theorem floor_add_half (q : ℚ) : ⌊q + 1 / 2⌋ = ⌊q⌋ + if 1 / 2 ≤ Int.fract q then 1 else 0 := by
  have hq := Int.floor_add_fract q
  have hnonneg := Int.fract_nonneg q
  have hlt := Int.fract_lt_one q
  rw [Int.floor_eq_iff]
  split <;> push_cast <;> constructor <;> linarith

/-- The integer at most a half above a number and less than a half below it. -/
theorem eq_floor_add_half_iff {q : ℚ} {k : Int} :
    k = ⌊q + 1 / 2⌋ ↔ (k : ℚ) - 1 / 2 ≤ q ∧ q < k + 1 / 2 := by
  rw [eq_comm, Int.floor_eq_iff]
  constructor <;> rintro ⟨hlow, hhigh⟩ <;> constructor <;> linarith

theorem Binary64.floorInt_eq_floor (negative : Bool) (m : Magnitude) :
    floorInt negative m = ⌊(Binary64.finite negative m).toRat⌋ := by
  show _ = ⌊(signedUnits negative m : ℚ) / unitsPerOne⌋
  rw [Rat.floor_intCast_div_natCast]
  exact Int.fdiv_eq_ediv_of_nonneg _ (Int.natCast_nonneg _)

theorem Binary64.half_le_fract_iff (negative : Bool) (m : Magnitude) :
    1 / 2 ≤ Int.fract (Binary64.finite negative m).toRat ↔
      (unitsPerOne : Int) ≤ 2 * (signedUnits negative m % unitsPerOne) := by
  show 1 / 2 ≤ Int.fract ((signedUnits negative m : ℚ) / unitsPerOne) ↔ _
  rw [Int.fract_div_intCast_eq_div_intCast_mod,
    div_le_div_iff₀ two_pos cast_unitsPerOne_pos, one_mul, mul_comm]
  norm_cast

/-! ## Rounding -/

theorem roundHalfUp_finite (negative : Bool) (m : Magnitude) :
    roundHalfUp (.finite negative m) =
      .ok (.int ⌊(Binary64.finite negative m).toRat + 1 / 2⌋) := by
  unfold roundHalfUp
  dsimp only
  rw [bind_of_eq_ok (Strict.ofInt_floorInt negative m), floor_add_half,
    ← Binary64.floorInt_eq_floor]
  simp only [Binary64.half_le_sub_floorInt_iff, Binary64.half_le_fract_iff]
  rfl

/-- A finite number is rounded to the one integer that is at most a half above it and less than a
half below it. The order of the numbers is kept, and so are whole numbers. -/
theorem roundHalfUp_floor {x : Binary64} (hx : x.isFinite = true) :
    ∃ n : Int, roundHalfUp x = .ok (.int n) ∧ n = ⌊x.toRat + 1 / 2⌋ ∧
      (∀ k : Int, (k : ℚ) - 1 / 2 ≤ x.toRat ∧ x.toRat < k + 1 / 2 ↔ k = n) ∧
      (∀ y : Binary64, y.isFinite = true → x.le y = true →
        ∃ k : Int, roundHalfUp y = .ok (.int k) ∧ n ≤ k) ∧
      ∀ k : Int, x.toRat = k → n = k := by
  have hround : ∀ y : Binary64, y.isFinite = true →
      roundHalfUp y = .ok (.int ⌊y.toRat + 1 / 2⌋) := by
    intro y hy
    obtain ⟨negative, m, rfl⟩ := Binary64.exists_of_isFinite hy
    exact roundHalfUp_finite negative m
  refine ⟨⌊x.toRat + 1 / 2⌋, hround x hx, rfl, fun k => eq_floor_add_half_iff.symm, ?_, ?_⟩
  · intro y hy hle
    have hrat := (Binary64.le_iff_toRat_le hx hy).mp hle
    exact ⟨_, hround y hy, Int.floor_mono (add_le_add_left hrat (1 / 2))⟩
  · intro k hk
    refine (eq_floor_add_half_iff.mpr ?_).symm
    rw [hk]
    constructor <;> linarith

/-- The greatest number below zero is rounded to zero, though its difference from the integer
below is rounded to one. -/
theorem roundHalfUp_neg_least : (-5e-324 : Binary64) - Binary64.ofInt (-1) = 1 ∧
    roundHalfUp (-5e-324) = .ok (.int 0) ∧
    (-(1 / 2) ≤ (-5e-324 : Binary64).toRat ∧ (-5e-324 : Binary64).toRat < 1 / 2) ∧
    ∃ k : Int, roundHalfUp 0.49999999999999994 = .ok (.int k) ∧ 0 ≤ k := by
  have hvalue : (roundHalfUp (-5e-324)).toOption = some (.int 0) := by decide +kernel
  obtain ⟨n, hresult, -, hnearest, hmono, -⟩ :=
    roundHalfUp_floor (show (-5e-324 : Binary64).isFinite = true by decide +kernel)
  rw [hresult] at hvalue
  cases hvalue
  have hrange := (hnearest 0).mpr rfl
  rw [Int.cast_zero, zero_sub, zero_add] at hrange
  exact ⟨by decide +kernel, hresult, hrange, hmono _ (by decide +kernel) (by decide +kernel)⟩

end NumericActions
