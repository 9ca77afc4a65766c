import NumericActions.Fault.Strict
import NumericActions.Number
import NumericActions.Proofs.Nearest

/-!
# Conversions that stay in range

A quotient that is not above a binary64 number is rounded to one. So neither the conversion
of a 64-bit integer nor that of the integer below a binary64 number can fail, and a number
keeps its sign and does not become zero when it is widened.

* `rounded_of_le`: rounding below a magnitude.
* `Strict.ofInt_of_natAbs_le`, `Strict.ofInt_floorInt`: conversions without a fault.
* `eq_zero_toBinary64`, `toBinary64_of_pos`: zero and sign of a widened number.
-/

namespace NumericActions

open Rounding

/-! ## Rounding in range -/

/-- One is a power of two units. The exponent is kept apart from its numeral, so that the
power is not computed. -/
theorem exists_unitsPerOne_eq : ∃ e, e = 1074 ∧ unitsPerOne = 2 ^ e := by
  obtain ⟨e, he⟩ : ∃ e, e = 1074 := ⟨_, rfl⟩
  refine ⟨e, he, ?_⟩
  unfold unitsPerOne
  rw [← he, Nat.pow_eq]

theorem exists_magnitudeLimit_eq : ∃ e, e = 2098 ∧ magnitudeLimit = 2 ^ e := by
  obtain ⟨e, he⟩ : ∃ e, e = 2098 := ⟨_, rfl⟩
  refine ⟨e, he, ?_⟩
  unfold magnitudeLimit
  rw [← he, Nat.pow_eq]

theorem two_pow_lt_magnitudeLimit {e : Nat} (h : e < 2098) : 2 ^ e < magnitudeLimit := by
  obtain ⟨limit, hlimit, heq⟩ := exists_magnitudeLimit_eq
  rw [heq]
  exact Nat.pow_lt_pow_right (by decide) (by omega)

theorem onGrid_two_pow (e : Nat) : OnGrid (2 ^ e) := by
  have h := onGrid_mul_two_pow (show 1 ≤ Nat.pow 2 53 by decide) e
  rwa [Nat.one_mul, Nat.pow_eq] at h

theorem onGrid_unitsPerOne : OnGrid unitsPerOne := by
  obtain ⟨e, -, heq⟩ := exists_unitsPerOne_eq
  rw [heq]
  exact onGrid_two_pow e

namespace Binary64

theorem rounded_of_le (negative : Bool) {num den g : Nat} (hd : 0 < den) (hg : OnGrid g)
    (hlt : g < magnitudeLimit) (h : num ≤ g * den) :
    ∃ m, rounded negative num den = .finite negative m ∧ m.units = roundQuotient num den := by
  have hr := Nat.lt_of_le_of_lt (roundQuotient_le hd hg h) hlt
  refine ⟨⟨_, onGrid_roundQuotient num den, hr⟩, ?_, rfl⟩
  unfold rounded ofUnits
  rw [dif_pos hr]

/-- A rounded quotient is an infinity or has the rounded number of units. -/
theorem rounded_cases (negative : Bool) (num den : Nat) :
    rounded negative num den = .infinity negative ∨
      ∃ m, rounded negative num den = .finite negative m ∧ m.units = roundQuotient num den := by
  unfold rounded ofUnits
  split
  · exact .inr ⟨_, rfl, rfl⟩
  · exact .inl rfl

theorem mul_finite (s t : Bool) (a b : Magnitude) :
    Binary64.finite s a * .finite t b = rounded (s != t) (a.units * b.units) unitsPerOne := by
  show mul _ _ = _
  unfold mul
  rfl

theorem mul_infinity_finite (s t : Bool) (m : Magnitude) :
    Binary64.infinity s * .finite t m = if m.units = 0 then .nan else .infinity (s != t) := by
  show mul _ _ = _
  unfold mul
  rfl

theorem exists_of_isFinite {x : Binary64} (h : x.isFinite = true) :
    ∃ negative m, x = .finite negative m := by
  cases x with
  | nan => cases h
  | infinity negative => cases h
  | finite negative m => exact ⟨negative, m, rfl⟩

theorem natAbs_signedUnits (negative : Bool) (m : Magnitude) :
    (signedUnits negative m).natAbs = m.units := by
  unfold signedUnits
  cases negative <;> simp

/-! ## Zero -/

theorem eq_zero_finite (negative : Bool) (m : Magnitude) :
    (Binary64.finite negative m).eq (zero false) = decide (m.units = 0) := by
  have h : signedUnits negative m = 0 ↔ m.units = 0 := by
    unfold signedUnits
    cases negative <;> simp
  have hz : signedUnits false ⟨0, onGrid_of_lt (Nat.two_pow_pos _), magnitudeLimit_pos⟩ = 0 := rfl
  simp only [eq, position, zero, hz]
  rw [Bool.eq_iff_iff]
  simp [h]

theorem eq_zero_infinity (negative : Bool) :
    (Binary64.infinity negative).eq (zero false) = false := by
  cases negative <;> rfl

theorem eq_zero_ofInt {n : Int} (hn : n ≠ 0) : (ofInt n).eq (zero false) = false := by
  unfold ofInt
  rcases rounded_cases (n < 0) (n.natAbs * unitsPerOne) 1 with h | ⟨m, h, hm⟩
  · rw [h, eq_zero_infinity]
  · have hle : unitsPerOne ≤ m.units := by
      rw [hm]
      refine le_roundQuotient Nat.one_pos onGrid_unitsPerOne ?_
      rw [Nat.mul_one]
      exact Nat.le_mul_of_pos_left _ (Int.natAbs_pos.mpr hn)
    have hpos := unitsPerOne_pos
    rw [h, eq_zero_finite]
    exact decide_eq_false (by omega)

/-! ## Integers -/

theorem ofInt_of_natAbs_le {n : Int} {g : Nat} (hg : OnGrid g) (hlt : g < magnitudeLimit)
    (h : n.natAbs * unitsPerOne ≤ g) : ∃ m, ofInt n = .finite (n < 0) m := by
  have hle : n.natAbs * unitsPerOne ≤ g * 1 := by rwa [Nat.mul_one]
  obtain ⟨m, hm, -⟩ := rounded_of_le (n < 0) Nat.one_pos hg hlt hle
  exact ⟨m, hm⟩

theorem exists_ofInt_eq {n : Int} (h : n.natAbs ≤ 2 ^ 63) : ∃ m, ofInt n = .finite (n < 0) m := by
  obtain ⟨e, he, hone⟩ := exists_unitsPerOne_eq
  have hle : n.natAbs * unitsPerOne ≤ 2 ^ (63 + e) := by
    rw [hone, Nat.pow_add]
    exact Nat.mul_le_mul_right _ h
  exact ofInt_of_natAbs_le (onGrid_two_pow _) (two_pow_lt_magnitudeLimit (by omega)) hle

/-- The integer below a number is within one of it. -/
theorem natAbs_floorInt_mul_lt (negative : Bool) (m : Magnitude) :
    (floorInt negative m).natAbs * unitsPerOne < m.units + unitsPerOne := by
  have hpos : (0 : Int) < (unitsPerOne : Int) := by exact_mod_cast unitsPerOne_pos
  have hs := natAbs_signedUnits negative m
  have hle := Int.ediv_mul_le (signedUnits negative m) (Int.ne_of_gt hpos)
  have hlt := Int.lt_ediv_add_one_mul_self (signedUnits negative m) hpos
  have hf : floorInt negative m = signedUnits negative m / (unitsPerOne : Int) :=
    Int.fdiv_eq_ediv_of_nonneg _ (Int.le_of_lt hpos)
  rw [Int.add_mul, Int.one_mul, ← hf] at hlt
  rw [← hf] at hle
  have hmul : (floorInt negative m).natAbs * unitsPerOne =
      (floorInt negative m * (unitsPerOne : Int)).natAbs := by
    rw [Int.natAbs_mul, Int.natAbs_natCast]
  omega

theorem natAbs_floorInt_mul_of_dvd {negative : Bool} {m : Magnitude}
    (h : unitsPerOne ∣ m.units) : (floorInt negative m).natAbs * unitsPerOne = m.units := by
  obtain ⟨k, hk⟩ := h
  have hpos : (0 : Int) < (unitsPerOne : Int) := by exact_mod_cast unitsPerOne_pos
  have hne : (unitsPerOne : Int) ≠ 0 := Int.ne_of_gt hpos
  have hf : floorInt negative m = signedUnits negative m / (unitsPerOne : Int) :=
    Int.fdiv_eq_ediv_of_nonneg _ (Int.le_of_lt hpos)
  have hs : signedUnits negative m = (unitsPerOne : Int) * (if negative then -(k : Int) else k) := by
    unfold signedUnits
    rw [hk, Int.natCast_mul]
    cases negative with
    | false => rfl
    | true => exact (Int.mul_neg _ _).symm
  rw [hf, hs, Int.mul_ediv_cancel_left _ hne, hk, Nat.mul_comm]
  cases negative with
  | false => rfl
  | true => exact congrArg (unitsPerOne * ·) (Int.natAbs_neg k)

/-- A 53-bit number has a zero at its end for every bit that it is longer. -/
theorem two_pow_dvd_of_le {n e : Nat} (hn : OnGrid n) (h : 2 ^ (e + 52) ≤ n) : 2 ^ e ∣ n := by
  have hpos := Nat.two_pow_pos (e + 52)
  have hlog : e + 52 ≤ n.log2 := (Nat.le_log2 (by omega)).mpr h
  exact Nat.dvd_trans (Nat.pow_dvd_pow 2 (by omega)) (Nat.dvd_of_mod_eq_zero hn)

/-- The integer below a number is a number: from `2 ^ 52` on it is the number itself, and before
that it has at most 53 bits. -/
theorem floorInt_representable (negative : Bool) (m : Magnitude) :
    OnGrid ((floorInt negative m).natAbs * unitsPerOne) ∧
      (floorInt negative m).natAbs * unitsPerOne < magnitudeLimit := by
  obtain ⟨e, he, hone⟩ := exists_unitsPerOne_eq
  by_cases h : 2 ^ (e + 52) ≤ m.units
  · have hd : unitsPerOne ∣ m.units := by
      rw [hone]
      exact two_pow_dvd_of_le m.onGrid h
    rw [natAbs_floorInt_mul_of_dvd hd]
    exact ⟨m.onGrid, m.inRange⟩
  · have hlt := natAbs_floorInt_mul_lt negative m
    have hlimit := two_pow_lt_magnitudeLimit (e := e + 53) (by omega)
    rw [hone] at hlt ⊢
    have hpow : 2 ^ e ≤ 2 ^ (e + 52) := Nat.pow_le_pow_right (by decide) (Nat.le_add_right e 52)
    have htwo : 2 ^ (53 + e) = 2 ^ (e + 52) * 2 := by rw [Nat.add_comm, Nat.pow_succ]
    have hle : (floorInt negative m).natAbs ≤ 2 ^ 53 := by
      refine Nat.le_of_mul_le_mul_right ?_ (Nat.two_pow_pos e)
      rw [← Nat.pow_add]
      omega
    refine ⟨onGrid_mul_two_pow hle e, Nat.lt_of_le_of_lt ?_ hlimit⟩
    rw [Nat.add_comm, Nat.pow_add]
    exact Nat.mul_le_mul_right _ hle

end Binary64

namespace Strict

open Binary64

theorem ofInt_of_finite {n : Int} (h : ∃ m, Binary64.ofInt n = .finite (n < 0) m) :
    Strict.ofInt n = .ok (Binary64.ofInt n) := by
  obtain ⟨m, hm⟩ := h
  unfold Strict.ofInt
  rw [hm]
  rfl

theorem ofInt_of_natAbs_le {n : Int} (h : n.natAbs ≤ 2 ^ 63) :
    Strict.ofInt n = .ok (Binary64.ofInt n) :=
  ofInt_of_finite (Binary64.exists_ofInt_eq h)

theorem ofInt_floorInt (negative : Bool) (m : Magnitude) :
    Strict.ofInt (floorInt negative m) = .ok (Binary64.ofInt (floorInt negative m)) := by
  obtain ⟨hgrid, hrange⟩ := floorInt_representable negative m
  exact ofInt_of_finite (Binary64.ofInt_of_natAbs_le hgrid hrange (Nat.le_refl _))

theorem quotient_of_ne_zero (a : Binary64) {b : Binary64} (h : b.eq (zero false) = false) :
    quotient a b = .ok (a / b) := by
  unfold quotient
  rw [h]
  rfl

end Strict

/-! ## Widened numbers -/

namespace Number

theorem toBinary64_float (x : Binary64) : (Number.float x).toBinary64 = x := by
  unfold toBinary64
  rfl

theorem eq_zero_toBinary64 {n : Number} (h : n.isZero = false) :
    n.toBinary64.eq (Binary64.zero false) = false := by
  cases n with
  | int i => exact Binary64.eq_zero_ofInt (by simpa [isZero] using h)
  | float x => exact h

/-- A positive number is widened to a positive one, or to infinity. -/
theorem toBinary64_of_pos {n : Number} (h : (Number.int 0).lt n) :
    n.toBinary64 = .infinity false ∨
      ∃ m : Magnitude, n.toBinary64 = .finite false m ∧ m.units ≠ 0 := by
  cases n with
  | int i =>
    have hi : 0 < i := by simpa [lt_int] using h
    have hneg : decide (i < 0) = false := decide_eq_false (by omega)
    have hz := Binary64.eq_zero_ofInt (Int.ne_of_gt hi)
    have hcases := Binary64.rounded_cases (decide (i < 0)) (i.natAbs * unitsPerOne) 1
    rw [hneg] at hcases
    show Binary64.ofInt i = _ ∨ ∃ m : Magnitude, Binary64.ofInt i = _ ∧ _
    unfold Binary64.ofInt at hz ⊢
    rw [hneg] at hz ⊢
    rcases hcases with hr | ⟨m, hr, -⟩
    · exact .inl hr
    · refine .inr ⟨m, hr, ?_⟩
      rw [hr, Binary64.eq_zero_finite] at hz
      exact of_decide_eq_false hz
  | float x =>
    cases x with
    | nan => cases h
    | infinity negative =>
      cases negative with
      | false => exact .inl rfl
      | true => cases h
    | finite negative m =>
      have hp : (0 : Int) * unitsPerOne < Binary64.signedUnits negative m := by
        simpa only [lt, position, Binary64.position, Position.lt, decide_eq_true_eq] using h
      unfold Binary64.signedUnits at hp
      rw [Int.zero_mul] at hp
      cases negative with
      | true =>
        have : ¬ (0 : Int) < -(m.units : Int) := by omega
        exact absurd hp this
      | false => exact .inr ⟨m, rfl, by simp at hp; omega⟩

end Number

end NumericActions
