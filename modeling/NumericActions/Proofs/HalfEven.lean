import Mathlib.Algebra.Order.Field.Rat
import Mathlib.Algebra.Order.Field.Basic
import NumericActions.Proofs.SumOrder

/-!
# Rounded once, ties to even

What it means that a binary64 number is an exact number rounded once: it is a nearest one, of
two nearest ones it is that whose last bit is zero, and from half-way between the greatest
number and `2 ^ 1024` on it is an infinity. At most one number is so, and what the model
computes from an integral number of units is that number.

* `lastBitZero_of_tie`, `roundQuotient_lt_two_pow_iff`: rounding between two 53-bit numbers
  that are equally near, and at a power of two.
* `IsNearestEven`, `RoundsTo`: the number that an exact number is rounded to.
* `RoundsTo.unique`: there is only one.
* `roundsTo_ofSignedUnits`, `roundsTo_ofInt`: the model rounds once.
-/

namespace NumericActions

namespace Rounding

/-! ## The even one of two neighbours -/

/-- The last of the 53 bits of `n` is zero. -/
def LastBitZero (n : Nat) : Prop := 2 * spacing n ∣ n

theorem lastBitZero_two_pow {e : Nat} (h : 0 < e) : LastBitZero (2 ^ e) := by
  unfold LastBitZero spacing
  rw [Nat.log2_two_pow, Nat.pow_eq, ← Nat.pow_succ']
  exact Nat.pow_dvd_pow 2 (by omega)

theorem even_nearestInt {num den : Nat}
    (h : 2 * ((num : Int) - (nearestInt num den * den : Nat)).natAbs = den) :
    2 ∣ nearestInt num den := by
  have he := Nat.div_add_mod num den
  rw [Nat.mul_comm] at he
  unfold nearestInt at h ⊢
  dsimp only at h ⊢
  by_cases hlow : 2 * (num % den) < den
  · rw [if_pos hlow] at h
    omega
  · rw [if_neg hlow] at h ⊢
    by_cases hhigh : den < 2 * (num % den)
    · rw [if_pos hhigh, Nat.add_mul, Nat.one_mul] at h
      have := Nat.mod_lt num (show 0 < den by omega)
      omega
    · rw [if_neg hhigh]
      omega

/-- A number above an odd multiple of a step by half of it or more is rounded up. -/
theorem succ_le_nearestInt {num den whole : Nat} (hd : 0 < den) (hodd : whole % 2 = 1)
    (h : 2 * (whole * den) + den ≤ 2 * num) : whole + 1 ≤ nearestInt num den := by
  by_cases hnext : (whole + 1) * den ≤ num
  · exact le_nearestInt_of_le hd hnext
  · have hwhole : num / den = whole := by
      rw [Nat.div_eq_iff hd]
      rw [Nat.add_mul, Nat.one_mul] at hnext
      omega
    have he := Nat.div_add_mod num den
    rw [hwhole, Nat.mul_comm] at he
    unfold nearestInt
    dsimp only
    rw [hwhole, if_neg (by omega)]
    split <;> omega

theorem spacing_dvd_of_tie {n g : Nat} (hg : OnGrid g)
    (htie : ((n : Int) - g).natAbs = ((n : Int) - roundQuotient n 1).natAbs) :
    spacing n ∣ g := by
  rcases Nat.le_total n g with h | h
  · exact spacing_dvd_of_onGrid hg h
  · obtain ⟨m, hgm, hmn⟩ := exists_multiple_between hg h
    have hnearest := distance_nearestInt_le n m (spacing_pos n)
    rw [← roundQuotient_one] at hnearest
    exact ⟨m, by rw [Nat.mul_comm]; omega⟩

/-- If another 53-bit number is as near as the rounded one, the number lies half-way between
two multiples of its spacing. -/
theorem two_mul_distance_of_tie {n g : Nat} (hg : OnGrid g) (hne : g ≠ roundQuotient n 1)
    (htie : ((n : Int) - g).natAbs = ((n : Int) - roundQuotient n 1).natAbs) :
    2 * ((n : Int) - roundQuotient n 1).natAbs = spacing n := by
  obtain ⟨k, hk⟩ := spacing_dvd_of_tie hg htie
  obtain ⟨r, hr⟩ := spacing_dvd_roundQuotient n
  have hhalf := two_mul_distance_le n
  have hapart : spacing n ≤ ((g : Int) - roundQuotient n 1).natAbs := by
    refine Nat.le_of_dvd (by omega) ?_
    rw [← Int.natCast_dvd]
    exact Int.dvd_sub (Int.natCast_dvd_natCast.mpr ⟨k, hk⟩) (Int.natCast_dvd_natCast.mpr ⟨r, hr⟩)
  omega

/-- Rounding stays between the powers of two around a number, so the spacing can change only
at the upper one. -/
theorem spacing_roundQuotient {n : Nat} (hn : n ≠ 0) :
    roundQuotient n 1 = 2 ^ (n.log2 + 1) ∨ spacing (roundQuotient n 1) = spacing n := by
  have hlow : 2 ^ n.log2 ≤ roundQuotient n 1 :=
    le_roundQuotient Nat.one_pos (onGrid_two_pow _) (by
      rw [Nat.mul_one]
      exact Nat.log2_self_le hn)
  have hhigh : roundQuotient n 1 ≤ 2 ^ (n.log2 + 1) :=
    roundQuotient_le Nat.one_pos (onGrid_two_pow _) (by
      rw [Nat.mul_one]
      exact Nat.le_of_lt Nat.lt_log2_self)
  rcases Nat.lt_or_eq_of_le hhigh with hlt | heq
  · have hpos := Nat.two_pow_pos n.log2
    have hlog : (roundQuotient n 1).log2 = n.log2 := (Nat.log2_eq_iff (by omega)).mpr ⟨hlow, hlt⟩
    unfold spacing
    exact .inr (by rw [hlog])
  · exact .inl heq

theorem lastBitZero_of_tie {n g : Nat} (hg : OnGrid g) (hne : g ≠ roundQuotient n 1)
    (htie : ((n : Int) - g).natAbs = ((n : Int) - roundQuotient n 1).natAbs) :
    LastBitZero (roundQuotient n 1) := by
  have hhalf := two_mul_distance_of_tie hg hne htie
  by_cases hn : n = 0
  · subst hn
    have hzero : roundQuotient 0 1 = 0 := rfl
    rw [hzero]
    exact Nat.dvd_zero _
  · rcases spacing_roundQuotient hn with htop | hsame
    · rw [htop]
      exact lastBitZero_two_pow (Nat.succ_pos _)
    · unfold LastBitZero
      rw [hsame, roundQuotient_one]
      rw [roundQuotient_one] at hhalf
      exact Nat.mul_dvd_mul_right (even_nearestInt hhalf) _

/-- A number is rounded up to a power of two from half a spacing below it on. -/
theorem roundQuotient_lt_two_pow_iff (n e : Nat) :
    roundQuotient n 1 < 2 ^ (e + 54) ↔ n + 2 ^ e < 2 ^ (e + 54) := by
  have hstep : 2 ^ (e + 1) = 2 * 2 ^ e := Nat.pow_succ'
  have hlimit : 2 ^ (e + 54) = 2 ^ 53 * 2 ^ (e + 1) := by
    rw [← Nat.pow_add]
    congr 1
    omega
  constructor
  · intro h
    by_contra hnot
    by_cases hn : 2 ^ (e + 54) ≤ n
    · have hle : 2 ^ (e + 54) ≤ roundQuotient n 1 :=
        le_roundQuotient Nat.one_pos (onGrid_two_pow (e + 54)) (by rwa [Nat.mul_one])
      omega
    · have hpos := Nat.two_pow_pos e
      have hhalf : 2 ^ (e + 54) = 2 * 2 ^ (e + 53) := Nat.pow_succ'
      have hlog : n.log2 = e + 53 := (Nat.log2_eq_iff (by omega)).mpr ⟨by omega, by omega⟩
      have hspacing : spacing n = 2 ^ (e + 1) := by
        unfold spacing
        rw [hlog]
        rfl
      have hup : 2 ^ 53 - 1 + 1 ≤ nearestInt n (2 ^ (e + 1)) :=
        succ_le_nearestInt (Nat.two_pow_pos (e + 1)) (by decide) (by omega)
      rw [roundQuotient_one, hspacing, hlimit] at h
      exact absurd (Nat.mul_le_mul_right (2 ^ (e + 1)) hup) (by omega)
  · intro h
    have hgrid := onGrid_mul_two_pow (show 2 ^ 53 - 1 ≤ Nat.pow 2 53 by decide) (e + 1)
    rw [Nat.pow_eq] at hgrid
    rcases Nat.le_total n ((2 ^ 53 - 1) * 2 ^ (e + 1)) with hle | hle
    · have hround : roundQuotient n 1 ≤ (2 ^ 53 - 1) * 2 ^ (e + 1) :=
        roundQuotient_le Nat.one_pos hgrid (by rwa [Nat.mul_one])
      have hpos := Nat.two_pow_pos (e + 1)
      omega
    · have := distance_roundQuotient_le n hgrid
      omega

theorem roundQuotient_mono {n m : Nat} (h : n ≤ m) : roundQuotient n 1 ≤ roundQuotient m 1 := by
  rcases Nat.lt_or_eq_of_le h with hlt | rfl
  · have hn := distance_roundQuotient_le n (onGrid_roundQuotient m 1)
    have hm := distance_roundQuotient_le m (onGrid_roundQuotient n 1)
    omega
  · exact Nat.le_refl _

end Rounding

open Rounding

namespace Expansion

/-! ## Signed numbers of units -/

theorem distance_roundUnits_le (n : Int) {a : Int} (ha : OnGrid a.natAbs) :
    (n - roundUnits n).natAbs ≤ (n - a).natAbs := by
  have h := distance_roundQuotient_le n.natAbs ha
  rw [natAbs_sub_roundUnits]
  omega

theorem lastBitZero_roundUnits {n a : Int} (ha : OnGrid a.natAbs) (hne : a ≠ roundUnits n)
    (htie : (n - a).natAbs = (n - roundUnits n).natAbs) : LastBitZero (roundUnits n).natAbs := by
  have hnearest := distance_roundQuotient_le n.natAbs ha
  have hzero := distance_roundQuotient_le n.natAbs (onGrid_of_lt (Nat.two_pow_pos 53))
  rw [natAbs_sub_roundUnits] at htie
  rw [natAbs_roundUnits]
  refine lastBitZero_of_tie ha (fun heq => hne ?_) (by omega)
  -- numbers of opposite signs are equally near to zero only, which is not rounded
  unfold roundUnits
  split <;> omega

end Expansion

open Expansion

namespace Binary64

/-! ## Exact values -/

/-- The exact value of a finite number; the others have none. -/
def toRat (x : Binary64) : ℚ := x.exactUnits / unitsPerOne

theorem cast_unitsPerOne_pos : (0 : ℚ) < unitsPerOne := Nat.cast_pos.mpr unitsPerOne_pos

theorem abs_sub_toRat (n : Int) (x : Binary64) :
    |(n : ℚ) / unitsPerOne - x.toRat| = ((n - x.exactUnits).natAbs : ℚ) / unitsPerOne := by
  unfold toRat
  rw [← sub_div, abs_div, abs_of_pos cast_unitsPerOne_pos, Nat.cast_natAbs, Int.cast_abs,
    Int.cast_sub]

theorem toRat_finite (negative : Bool) (m : Magnitude) :
    (Binary64.finite negative m).toRat =
      if negative then -((m.units : ℚ) / unitsPerOne) else (m.units : ℚ) / unitsPerOne := by
  show (signedUnits negative m : ℚ) / unitsPerOne = _
  unfold signedUnits
  cases negative with
  | false => rw [if_neg Bool.false_ne_true, if_neg Bool.false_ne_true, Int.cast_natCast]
  | true => rw [if_pos rfl, if_pos rfl, Int.cast_neg, Int.cast_natCast, neg_div]

theorem abs_sub_toRat_finite (q : ℚ) (negative : Bool) (m : Magnitude) :
    |q - (Binary64.finite negative m).toRat| =
      |(if negative then -q else q) - (m.units : ℚ) / unitsPerOne| := by
  rw [toRat_finite]
  cases negative with
  | false => rw [if_neg Bool.false_ne_true, if_neg Bool.false_ne_true]
  | true => rw [if_pos rfl, if_pos rfl, ← abs_neg, sub_neg_eq_add, neg_add, ← sub_eq_add_neg]

theorem onGrid_exactUnits (x : Binary64) : OnGrid x.exactUnits.natAbs := by
  cases x with
  | nan => exact onGrid_of_lt (Nat.two_pow_pos 53)
  | infinity negative => exact onGrid_of_lt (Nat.two_pow_pos 53)
  | finite negative m =>
    rw [exactUnits, natAbs_signedUnits]
    exact m.onGrid

end Binary64

/-! ## The number that an exact number is rounded to -/

/-- Half-way between the greatest number and `2 ^ 1024`. -/
def overflowThreshold : ℚ := 2 ^ 1024 - 2 ^ 970

/-- No finite number is nearer to `q` than `x`, and if another one is as near, the last bit of
`x` is zero. -/
structure IsNearestEven (q : ℚ) (x : Binary64) : Prop where
  nearest : ∀ y : Binary64, y.isFinite = true → |q - x.toRat| ≤ |q - y.toRat|
  even : ∀ y : Binary64, y.isFinite = true → y.toRat ≠ x.toRat →
    |q - y.toRat| = |q - x.toRat| → LastBitZero x.exactUnits.natAbs

/-- `q` is rounded once to the nearest number, ties to even. The rounded number has the sign of
`q`, and that of zero is positive. -/
inductive RoundsTo (q : ℚ) : Binary64 → Prop where
  | finite (m : Magnitude) (hrange : |q| < overflowThreshold)
      (hnearest : IsNearestEven q (.finite (decide (q < 0)) m)) :
      RoundsTo q (.finite (decide (q < 0)) m)
  | infinity (hrange : overflowThreshold ≤ |q|) : RoundsTo q (.infinity (decide (q < 0)))

/-! ## Uniqueness -/

theorem abs_sub_lt_of_between {q a b c : ℚ} (hac : a < c) (hcb : c < b)
    (h : |q - a| = |q - b|) : |q - c| < |q - a| := by
  rcases abs_eq_abs.mp h with heq | heq
  · linarith
  · rw [abs_of_pos (show 0 < q - a by linarith), abs_lt]
    constructor <;> linarith

theorem Rounding.onGrid_add_spacing {n : Nat} (h : OnGrid n) : OnGrid (n + spacing n) := by
  have hd : spacing n ∣ n := Nat.dvd_of_mod_eq_zero h
  have hlt : n / spacing n < Nat.pow 2 53 :=
    Nat.div_lt_of_lt_mul (Nat.mul_comm (Nat.pow 2 53) (spacing n) ▸ lt_spacing_mul n)
  have hnext := onGrid_mul_spacing (Nat.succ_le_of_lt hlt) n
  rwa [Nat.succ_mul, Nat.div_mul_cancel hd] at hnext

/-- Between two numbers whose last bit is zero lies a third one. -/
theorem exists_between_of_lastBitZero {m k : Magnitude} (h : m.units < k.units)
    (hm : LastBitZero m.units) (hk : LastBitZero k.units) :
    ∃ between : Magnitude, m.units < between.units ∧ between.units < k.units := by
  have hpos := spacing_pos m.units
  have hdvd : 2 * spacing m.units ∣ k.units - m.units :=
    Nat.dvd_sub (Nat.dvd_trans (Nat.mul_dvd_mul_left 2 (spacing_dvd_spacing (Nat.le_of_lt h))) hk) hm
  have hgap := Nat.le_of_dvd (by omega) hdvd
  have hlt : m.units + spacing m.units < k.units := by omega
  exact ⟨⟨_, onGrid_add_spacing m.onGrid, Nat.lt_trans hlt k.inRange⟩,
    Nat.lt_add_of_pos_right hpos, hlt⟩

theorem Magnitude.div_unitsPerOne_lt {m k : Magnitude} (h : m.units < k.units) :
    (m.units : ℚ) / unitsPerOne < (k.units : ℚ) / unitsPerOne :=
  div_lt_div_of_pos_right (Nat.cast_lt.mpr h) Binary64.cast_unitsPerOne_pos

theorem Binary64.toRat_finite_ne {negative : Bool} {m k : Magnitude} (h : m.units < k.units) :
    (Binary64.finite negative k).toRat ≠ (Binary64.finite negative m).toRat := by
  rw [toRat_finite, toRat_finite]
  cases negative with
  | false =>
    rw [if_neg Bool.false_ne_true, if_neg Bool.false_ne_true]
    exact (Magnitude.div_unitsPerOne_lt h).ne'
  | true =>
    rw [if_pos rfl, if_pos rfl]
    exact neg_injective.ne (Magnitude.div_unitsPerOne_lt h).ne'

/-- If both were nearest, both of their last bits would be zero, and the number between them
would be nearer. -/
theorem IsNearestEven.le {q : ℚ} {negative : Bool} {m k : Magnitude}
    (hm : IsNearestEven q (.finite negative m)) (hk : IsNearestEven q (.finite negative k)) :
    k.units ≤ m.units := by
  by_contra hnot
  have hlt : m.units < k.units := Nat.lt_of_not_le hnot
  have htie := le_antisymm (hm.nearest (.finite negative k) rfl) (hk.nearest (.finite negative m) rfl)
  have hevenm := hm.even _ rfl (Binary64.toRat_finite_ne hlt) htie.symm
  have hevenk := hk.even _ rfl (Binary64.toRat_finite_ne hlt).symm htie
  rw [Binary64.exactUnits, Binary64.natAbs_signedUnits] at hevenm hevenk
  obtain ⟨between, hlow, hhigh⟩ := exists_between_of_lastBitZero hlt hevenm hevenk
  have hnearest := hm.nearest (.finite negative between) rfl
  rw [Binary64.abs_sub_toRat_finite, Binary64.abs_sub_toRat_finite] at htie hnearest
  have hcloser := abs_sub_lt_of_between (Magnitude.div_unitsPerOne_lt hlow)
    (Magnitude.div_unitsPerOne_lt hhigh) htie
  exact absurd hcloser (not_lt.mpr hnearest)

theorem RoundsTo.unique {q : ℚ} {x y : Binary64} (hx : RoundsTo q x) (hy : RoundsTo q y) :
    x = y := by
  cases hx with
  | infinity hover =>
    cases hy with
    | infinity _ => rfl
    | finite k hrange _ => exact absurd hover (not_le.mpr hrange)
  | finite m hrange hm =>
    cases hy with
    | infinity hover => exact absurd hover (not_le.mpr hrange)
    | finite k _ hk =>
      have hunits : m.units = k.units := Nat.le_antisymm (hk.le hm) (hm.le hk)
      obtain ⟨units, _, _⟩ := m
      obtain ⟨others, _, _⟩ := k
      subst hunits
      rfl

/-! ## Infinities -/

theorem overflowThreshold_pos : 0 < overflowThreshold :=
  sub_pos.mpr (pow_lt_pow_right₀ one_lt_two (by decide))

theorem RoundsTo.eq_infinity_iff {q : ℚ} {x : Binary64} (h : RoundsTo q x) (negative : Bool) :
    x = .infinity negative ↔ overflowThreshold ≤ |q| ∧ decide (q < 0) = negative := by
  cases h with
  | finite m hrange _ => simp [hrange]
  | infinity hrange => simp [hrange]

theorem RoundsTo.eq_infinity_false_iff {q : ℚ} {x : Binary64} (h : RoundsTo q x) :
    x = .infinity false ↔ overflowThreshold ≤ q := by
  have hpos := overflowThreshold_pos
  rw [h.eq_infinity_iff, decide_eq_false_iff_not, not_lt, le_abs]
  constructor
  · rintro ⟨hq | hq, hsign⟩ <;> linarith
  · intro hq
    exact ⟨.inl hq, by linarith⟩

theorem RoundsTo.eq_infinity_true_iff {q : ℚ} {x : Binary64} (h : RoundsTo q x) :
    x = .infinity true ↔ q ≤ -overflowThreshold := by
  have hpos := overflowThreshold_pos
  rw [h.eq_infinity_iff, decide_eq_true_eq, le_abs]
  constructor
  · rintro ⟨hq | hq, hsign⟩ <;> linarith
  · intro hq
    exact ⟨.inr (by linarith), by linarith⟩

/-! ## Rounding in the model -/

theorem exists_overflowThreshold_mul : ∃ e, magnitudeLimit = 2 ^ (e + 54) ∧
    overflowThreshold * unitsPerOne = (2 : ℚ) ^ (e + 54) - 2 ^ e := by
  obtain ⟨e, he⟩ : ∃ e, e = 2044 := ⟨_, rfl⟩
  obtain ⟨u, hu, hone⟩ := exists_unitsPerOne_eq
  obtain ⟨limit, hlimit, hrange⟩ := exists_magnitudeLimit_eq
  refine ⟨e, by rw [hrange, show limit = e + 54 by omega], ?_⟩
  unfold overflowThreshold
  rw [hone, Nat.cast_pow, Nat.cast_ofNat, sub_mul, ← pow_add, ← pow_add,
    show 1024 + u = e + 54 by omega, show 970 + u = e by omega]

/-- Units that are rounded to the limit or beyond are at least half-way beyond the greatest
number. -/
theorem abs_lt_overflowThreshold_iff (n : Int) :
    |(n : ℚ) / unitsPerOne| < overflowThreshold ↔
      roundQuotient n.natAbs 1 < magnitudeLimit := by
  have hcast : ∀ e : Nat, (n.natAbs : ℚ) + 2 ^ e < 2 ^ (e + 54) ↔
      n.natAbs + 2 ^ e < 2 ^ (e + 54) := fun e => by norm_cast
  obtain ⟨e, hlimit, hthreshold⟩ := exists_overflowThreshold_mul
  rw [hlimit, roundQuotient_lt_two_pow_iff, abs_div, abs_of_pos Binary64.cast_unitsPerOne_pos,
    div_lt_iff₀ Binary64.cast_unitsPerOne_pos, hthreshold, lt_sub_iff_add_lt, ← Int.cast_abs,
    ← Nat.cast_natAbs, hcast]

namespace Binary64

theorem ofSignedUnits_eq_rounded (n : Int) :
    ofSignedUnits false n = rounded (n < 0) n.natAbs 1 := by
  by_cases hzero : n = 0
  · subst hzero
    decide +kernel
  · unfold ofSignedUnits
    rw [if_neg hzero]

theorem exactUnits_of_roundQuotient {n : Int} {m : Magnitude}
    (h : m.units = roundQuotient n.natAbs 1) :
    (Binary64.finite (decide (n < 0)) m).exactUnits = roundUnits n := by
  show signedUnits (decide (n < 0)) m = _
  unfold signedUnits roundUnits
  rw [h]
  by_cases hn : n < 0 <;> simp [hn]

end Binary64

theorem isNearestEven_of_exactUnits {n : Int} {x : Binary64} (hx : x.exactUnits = roundUnits n) :
    IsNearestEven ((n : ℚ) / unitsPerOne) x where
  nearest y _ := by
    rw [Binary64.abs_sub_toRat, Binary64.abs_sub_toRat, hx,
      div_le_div_iff_of_pos_right Binary64.cast_unitsPerOne_pos, Nat.cast_le]
    exact distance_roundUnits_le n y.onGrid_exactUnits
  even y _ hne htie := by
    rw [Binary64.abs_sub_toRat, Binary64.abs_sub_toRat,
      div_left_inj' Binary64.cast_unitsPerOne_pos.ne', Nat.cast_inj, hx] at htie
    rw [hx]
    refine lastBitZero_roundUnits y.onGrid_exactUnits (fun heq => hne ?_) htie
    unfold Binary64.toRat
    rw [heq, hx]

theorem roundsTo_ofSignedUnits (n : Int) :
    RoundsTo ((n : ℚ) / unitsPerOne) (Binary64.ofSignedUnits false n) := by
  have hsign : decide ((n : ℚ) / unitsPerOne < 0) = decide (n < 0) := by
    rw [decide_eq_decide, div_lt_iff₀ Binary64.cast_unitsPerOne_pos, zero_mul, Int.cast_lt_zero]
  have hrange := abs_lt_overflowThreshold_iff n
  rw [Binary64.ofSignedUnits_eq_rounded, ← hsign]
  unfold Binary64.rounded Binary64.ofUnits
  by_cases hlt : roundQuotient n.natAbs 1 < magnitudeLimit
  · rw [dif_pos hlt]
    refine .finite _ (hrange.mpr hlt) (isNearestEven_of_exactUnits ?_)
    rw [hsign]
    exact Binary64.exactUnits_of_roundQuotient rfl
  · rw [dif_neg hlt]
    exact .infinity (not_lt.mp (mt hrange.mp hlt))

theorem RoundsTo.eq_zero {x : Binary64} (h : RoundsTo 0 x) : x = .zero false := by
  have hzero := roundsTo_ofSignedUnits 0
  rw [Int.cast_zero, zero_div] at hzero
  exact h.unique hzero

theorem Binary64.ofInt_eq_ofSignedUnits (n : Int) :
    ofInt n = ofSignedUnits false (n * unitsPerOne) := by
  have hsign : n * unitsPerOne < 0 ↔ n < 0 := by
    have hpos : (0 : Int) < unitsPerOne := Int.natCast_pos.mpr unitsPerOne_pos
    rw [mul_neg_iff]
    omega
  rw [ofSignedUnits_eq_rounded, Int.natAbs_mul, Int.natAbs_natCast, decide_eq_decide.mpr hsign]
  rfl

theorem roundsTo_ofInt (n : Int) : RoundsTo n (Binary64.ofInt n) := by
  have h := roundsTo_ofSignedUnits (n * unitsPerOne)
  rwa [← Binary64.ofInt_eq_ofSignedUnits, Int.cast_mul, Int.cast_natCast,
    mul_div_cancel_right₀ _ Binary64.cast_unitsPerOne_pos.ne'] at h

theorem roundsTo_natCast (n : Nat) : RoundsTo n (Binary64.ofInt n) := by
  have h := roundsTo_ofInt n
  rwa [Int.cast_natCast] at h

end NumericActions
