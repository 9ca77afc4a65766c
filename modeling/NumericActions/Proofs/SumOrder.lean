import Mathlib.Tactic.IntervalCases
import NumericActions.Proofs.SumInRange
import NumericActions.Reduction.Basic

/-!
# The order of addends

A pass that does not overflow has the exact sum of its addends, rounded once, and no order
shows in it. But the order decides whether the first pass overflows, and the second pass
rounds every addend to a multiple of `2 ^ (-1010)` before it adds. So the sum of finite
numbers depends on their order, and exactly as far as the two passes differ. They agree
on addends that are scaled without a loss, and the first pass never overflows on addends that
are small.

* `sumOnce_eq`: what a pass comes to.
* `sum_eq`: what the sum comes to, by the number of passes that overflow.
* `rescaledSum_eq`: addends on which the two passes agree.
* `total_eq_iff`, `total_perm`: the orders with the same total.
* `total_not_perm`: two orders with different totals.
-/

namespace NumericActions

open Expansion Rounding

/-! ## One pass -/

/-- The number of units of a finite number; the others have none. -/
def Binary64.exactUnits : Binary64 → Int
  | .finite negative m => signedUnits negative m
  | _ => 0

def exactSum (addends : List Binary64) : Int := value (addends.map Binary64.exactUnits)

def roundedSum (addends : List Binary64) : Binary64 :=
  Binary64.ofSignedUnits false (exactSum addends)

def AllFinite (addends : List Binary64) : Prop := ∀ x ∈ addends, x.isFinite = true

instance (addends : List Binary64) : Decidable (AllFinite addends) :=
  inferInstanceAs (Decidable (∀ x ∈ addends, x.isFinite = true))

theorem value_perm {parts others : List Int} (h : parts.Perm others) :
    value parts = value others := by
  induction h with
  | nil => rfl
  | cons part _ ih =>
    simp only [value]
    omega
  | swap part other parts =>
    simp only [value]
    omega
  | trans _ _ ih ihrest => exact ih.trans ihrest

theorem roundedSum_perm {addends others : List Binary64} (h : others.Perm addends) :
    roundedSum others = roundedSum addends := by
  unfold roundedSum exactSum
  rw [value_perm (h.map _)]

/-- The expansion of finite addends stands for their exact sum. -/
theorem value_of_expand {addends : List Binary64} (hfinite : AllFinite addends)
    {parts grown : List Int} {specials others : Specials}
    (h : expand parts specials addends = some (grown, others)) :
    value grown = value parts + exactSum addends ∧ others = specials := by
  induction addends generalizing parts with
  | nil =>
    cases h
    exact ⟨(Int.add_zero _).symm, rfl⟩
  | cons x addends ih =>
    obtain ⟨hx, hrest⟩ := List.forall_mem_cons.mp hfinite
    obtain ⟨negative, m, rfl⟩ := Binary64.exists_of_isFinite hx
    obtain ⟨next, hgrow, hexpand⟩ := expand_finite_iff.mp h
    obtain ⟨hvalue, hothers⟩ := ih hrest hexpand
    have hexact : exactSum (.finite negative m :: addends) =
        Binary64.signedUnits negative m + exactSum addends := rfl
    have hnext := grow_sum hgrow
    exact ⟨by omega, hothers⟩

/-- A pass over finite addends has no result or the rounded exact sum. -/
theorem sumOnce_eq {addends : List Binary64} (hfinite : AllFinite addends) {total : Binary64}
    (h : sumOnce addends = some total) : total = roundedSum addends := by
  obtain ⟨grown, specials, hexpand, rfl⟩ := sumOnce_eq_some_iff.mp h
  obtain ⟨hvalue, rfl⟩ := value_of_expand hfinite hexpand
  rw [hvalue, value, Int.zero_add]
  rfl

/-! ## Both passes -/

theorem AllFinite.downscale {addends : List Binary64} (h : AllFinite addends) :
    AllFinite (addends.map (· * downscale)) := by
  intro y hy
  obtain ⟨x, hx, rfl⟩ := List.mem_map.mp hy
  obtain ⟨negative, m, rfl⟩ := Binary64.exists_of_isFinite (h x hx)
  obtain ⟨scaled, hscaled, -⟩ := exists_finite_mul_downscale negative m
  rw [hscaled]
  rfl

/-- The result of the second pass. -/
def rescaledSum (addends : List Binary64) : Binary64 :=
  roundedSum (addends.map (· * downscale)) * upscale

theorem rescaledSum_perm {addends others : List Binary64} (h : others.Perm addends) :
    rescaledSum others = rescaledSum addends := by
  unfold rescaledSum
  rw [roundedSum_perm (h.map _)]

/-- How many of the two passes overflow. -/
def overflows (addends : List Binary64) : Nat :=
  if (sumOnce addends).isSome then 0
  else if (sumOnce (addends.map (· * downscale))).isSome then 1
  else 2

/-- The sum after so many passes that overflowed. -/
def sumAfter (addends : List Binary64) : Nat → Except Fault Binary64
  | 0 => .ok (roundedSum addends)
  | 1 => .ok (rescaledSum addends)
  | _ => .error (.range .sum)

theorem sum_eq {addends : List Binary64} (hfinite : AllFinite addends) :
    sum addends = sumAfter addends (overflows addends) := by
  unfold sum overflows
  cases hfirst : sumOnce addends with
  | some total =>
    rw [sumOnce_eq hfinite hfirst]
    rfl
  | none =>
    cases hsecond : sumOnce (addends.map (· * downscale)) with
    | some total =>
      rw [sumOnce_eq hfinite.downscale hsecond]
      rfl
    | none => rfl

theorem overflows_le_one {addends : List Binary64} (h : addends.length < 2 ^ 63) :
    overflows addends ≤ 1 := by
  obtain ⟨total, hsecond⟩ := exists_sumOnce_downscale h
  unfold overflows
  rw [hsecond]
  split
  · exact Nat.zero_le 1
  · exact Nat.le_refl 1

theorem overflows_eq_zero {addends : List Binary64} (hlength : addends.length < 2 ^ 63)
    (hsmall : ∀ x ∈ addends, x.exactUnits.natAbs * 2 ^ 64 ≤ magnitudeLimit) :
    overflows addends = 0 := by
  obtain ⟨total, hfirst⟩ := exists_sumOnce_of_le hlength fun negative m hm => by
    have h := hsmall _ hm
    rwa [Binary64.exactUnits, Binary64.natAbs_signedUnits] at h
  unfold overflows
  rw [hfirst]
  rfl

/-! ## Addends that are scaled without a loss -/

theorem exists_upscale_eq : ∃ m : Magnitude,
    upscale = .finite false m ∧ m.units = 2 ^ 64 * unitsPerOne := by
  obtain ⟨u, hu, hone⟩ := exists_unitsPerOne_eq
  have hgrid : OnGrid (2 ^ 64 * unitsPerOne) := by
    rw [hone, ← Nat.pow_add]
    exact onGrid_two_pow _
  have hlt : 2 ^ 64 * unitsPerOne < magnitudeLimit := by
    rw [hone, ← Nat.pow_add]
    exact two_pow_lt_magnitudeLimit (by omega)
  obtain ⟨m, hm, hunits⟩ := Binary64.rounded_of_le false Nat.one_pos hgrid hlt
    (Nat.le_of_eq (Nat.mul_one (2 ^ 64 * unitsPerOne)).symm)
  have hround := roundQuotient_mul Nat.one_pos hgrid
  rw [Nat.mul_one] at hround
  refine ⟨m, ?_, hunits.trans hround⟩
  unfold upscale Binary64.ofInt
  rw [Int.natAbs_natCast, decide_eq_false (Int.not_lt.mpr (Int.natCast_nonneg _)), Nat.pow_eq, hm]

namespace Binary64

theorem ofUnits_congr {negative : Bool} {units others : Nat} (h : units = others)
    (hunits : OnGrid units) (hothers : OnGrid others) :
    ofUnits negative units hunits = ofUnits negative others hothers := by
  subst h
  rfl

/-- Scaling back is exact, up to the limit. -/
theorem finite_mul_upscale (negative : Bool) (m : Magnitude) :
    .finite negative m * upscale =
      ofUnits negative (m.units * 2 ^ 64) (m.onGrid.mul_two_pow 64) := by
  obtain ⟨scale, hscale, hunits⟩ := exists_upscale_eq
  rw [hscale, mul_finite, Bool.bne_false, hunits, ← Nat.mul_assoc]
  exact ofUnits_congr (roundQuotient_mul unitsPerOne_pos (m.onGrid.mul_two_pow 64)) _ _

theorem infinity_mul_upscale (negative : Bool) :
    .infinity negative * upscale = .infinity negative := by
  obtain ⟨scale, hscale, hunits⟩ := exists_upscale_eq
  have hpos := Nat.mul_pos (Nat.two_pow_pos 64) unitsPerOne_pos
  rw [hscale, mul_infinity_finite, if_neg (by omega), Bool.bne_false]

/-- It does not matter whether a number of units is rounded before it is scaled back or
after. -/
theorem rounded_mul_upscale (negative : Bool) (n : Nat) :
    rounded negative n 1 * upscale = rounded negative (n * 2 ^ 64) 1 := by
  have hround := roundQuotient_mul_two_pow n 64
  unfold rounded
  rw [ofUnits_congr hround _ ((onGrid_roundQuotient n 1).mul_two_pow 64)]
  by_cases hlimit : roundQuotient n 1 < magnitudeLimit
  · conv => lhs; unfold ofUnits
    rw [dif_pos hlimit, finite_mul_upscale]
  · have hscaled : ¬ roundQuotient n 1 * 2 ^ 64 < magnitudeLimit := by omega
    unfold ofUnits
    rw [dif_neg hlimit, dif_neg hscaled, infinity_mul_upscale]

theorem ofSignedUnits_mul_upscale (units : Int) :
    ofSignedUnits false units * upscale = ofSignedUnits false (units * 2 ^ 64) := by
  by_cases hzero : units = 0
  · subst hzero
    decide +kernel
  · have hscaled : units * 2 ^ 64 ≠ 0 := by omega
    have hsign : decide (units * 2 ^ 64 < 0) = decide (units < 0) :=
      decide_eq_decide.mpr (by omega)
    have habs : (units * 2 ^ 64).natAbs = units.natAbs * 2 ^ 64 := by omega
    unfold ofSignedUnits
    rw [if_neg hzero, if_neg hscaled, rounded_mul_upscale, hsign, habs]

/-- A number of units with as many zeros at its end loses none of them by scaling. -/
theorem exactUnits_mul_downscale {x : Binary64} (hx : x.isFinite = true)
    (hdvd : 2 ^ 64 ∣ x.exactUnits.natAbs) :
    (x * downscale).exactUnits * 2 ^ 64 = x.exactUnits := by
  obtain ⟨negative, m, rfl⟩ := exists_of_isFinite hx
  obtain ⟨scaled, hscaled, hunits, -⟩ := exists_finite_mul_downscale negative m
  rw [exactUnits, natAbs_signedUnits] at hdvd
  obtain ⟨q, hq⟩ := hdvd
  rw [Nat.mul_comm] at hq
  have hgrid : OnGrid q := OnGrid.of_mul_two_pow (e := 64) (hq ▸ m.onGrid)
  rw [hq, roundQuotient_mul (Nat.two_pow_pos 64) hgrid] at hunits
  rw [hscaled]
  show signedUnits negative scaled * 2 ^ 64 = signedUnits negative m
  unfold signedUnits
  cases negative with
  | false => exact (show (scaled.units : Int) * 2 ^ 64 = m.units by omega)
  | true => exact (show -(scaled.units : Int) * 2 ^ 64 = -(m.units : Int) by omega)

/-- Every number from `2 ^ (-958)` on ends with so many zeros. -/
theorem two_pow_dvd_exactUnits {x : Binary64} (h : 2 ^ 116 ≤ x.exactUnits.natAbs) :
    2 ^ 64 ∣ x.exactUnits.natAbs := by
  cases x with
  | nan => exact Nat.dvd_zero _
  | infinity negative => exact Nat.dvd_zero _
  | finite negative m =>
    rw [exactUnits, natAbs_signedUnits] at h ⊢
    exact two_pow_dvd_of_le m.onGrid h

end Binary64

theorem exactSum_downscale {addends : List Binary64} (hfinite : AllFinite addends)
    (hdvd : ∀ x ∈ addends, 2 ^ 64 ∣ x.exactUnits.natAbs) :
    exactSum (addends.map (· * downscale)) * 2 ^ 64 = exactSum addends := by
  induction addends with
  | nil => rfl
  | cons x addends ih =>
    obtain ⟨hx, hrest⟩ := List.forall_mem_cons.mp hfinite
    obtain ⟨hdvdx, hdvdrest⟩ := List.forall_mem_cons.mp hdvd
    have hhead := Binary64.exactUnits_mul_downscale hx hdvdx
    have htail := ih hrest hdvdrest
    simp only [exactSum, List.map_cons, value] at htail ⊢
    omega

theorem rescaledSum_eq {addends : List Binary64} (hfinite : AllFinite addends)
    (hdvd : ∀ x ∈ addends, 2 ^ 64 ∣ x.exactUnits.natAbs) :
    rescaledSum addends = roundedSum addends := by
  unfold rescaledSum roundedSum
  rw [Binary64.ofSignedUnits_mul_upscale, exactSum_downscale hfinite hdvd]

/-! ## Totals -/

theorem sumAfter_perm {addends others : List Binary64} (h : others.Perm addends) (count : Nat) :
    sumAfter others count = sumAfter addends count := by
  unfold sumAfter
  rw [roundedSum_perm h, rescaledSum_perm h]

/-- Two numbers of overflows lead to one result if the passes agree, unless one of them is a
fault. -/
theorem sumAfter_eq_iff (addends : List Binary64) {count number : Nat} (hcount : count ≤ 2)
    (hnumber : number ≤ 2) :
    sumAfter addends count = sumAfter addends number ↔
      count = number ∨
        (count < 2 ∧ number < 2) ∧ rescaledSum addends = roundedSum addends := by
  interval_cases count <;> interval_cases number <;> simp [sumAfter, eq_comm]

theorem overflows_le_two (addends : List Binary64) : overflows addends ≤ 2 := by
  unfold overflows
  split
  · exact Nat.zero_le 2
  · split <;> decide

theorem total_eq {values : List Number} (hfinite : AllFinite (widened values)) :
    total values = sumAfter (widened values) (overflows (widened values)) :=
  sum_eq hfinite

theorem AllFinite.perm {addends others : List Binary64} (h : AllFinite addends)
    (hperm : others.Perm addends) : AllFinite others :=
  fun x hx => h x (hperm.mem_iff.mp hx)

/-- Two orders have one total if and only if as many passes overflow in both of them, or the
two passes have one result and neither order comes to a fault. -/
theorem total_eq_iff {values others : List Number} (hfinite : AllFinite (widened values))
    (hperm : others.Perm values) :
    total others = total values ↔
      overflows (widened others) = overflows (widened values) ∨
        (overflows (widened others) < 2 ∧ overflows (widened values) < 2) ∧
          rescaledSum (widened values) = roundedSum (widened values) := by
  have hwidened : (widened others).Perm (widened values) := hperm.map _
  rw [total_eq (hfinite.perm hwidened), total_eq hfinite, sumAfter_perm hwidened]
  exact sumAfter_eq_iff _ (overflows_le_two _) (overflows_le_two _)

/-- Which orders of finite numbers have the same total. All orders have it if there are fewer
than `2 ^ 63` numbers and none of them exceeds `2 ^ 960`, for then no pass overflows, or if all
of them are multiples of `2 ^ (-1010)`, for then the passes agree. -/
theorem total_perm {values others : List Number} (hfinite : AllFinite (widened values))
    (hperm : others.Perm values) :
    (total others = total values ↔
      overflows (widened others) = overflows (widened values) ∨
        (overflows (widened others) < 2 ∧ overflows (widened values) < 2) ∧
          rescaledSum (widened values) = roundedSum (widened values)) ∧
    (values.length < 2 ^ 63 →
      (∀ x ∈ widened values, x.exactUnits.natAbs * 2 ^ 64 ≤ magnitudeLimit) ∨
        (∀ x ∈ widened values, 2 ^ 64 ∣ x.exactUnits.natAbs) →
      total others = total values) := by
  have hiff := total_eq_iff hfinite hperm
  refine ⟨hiff, fun hlength hsizes => hiff.mpr ?_⟩
  have hwidened : (widened others).Perm (widened values) := hperm.map _
  have hvalues : (widened values).length < 2 ^ 63 := by rwa [widened, List.length_map]
  have hothers : (widened others).length < 2 ^ 63 := by rwa [hwidened.length_eq]
  rcases hsizes with hsmall | hdvd
  · have hsmallothers := fun x hx => hsmall x (hwidened.mem_iff.mp hx)
    exact .inl ((overflows_eq_zero hothers hsmallothers).trans
      (overflows_eq_zero hvalues hsmall).symm)
  · exact .inr ⟨⟨Nat.lt_succ_of_le (overflows_le_one hothers),
      Nat.lt_succ_of_le (overflows_le_one hvalues)⟩, rescaledSum_eq hfinite hdvd⟩

/-- In one of these orders the first pass overflows and in the other it does not. -/
theorem total_perm_greatest :
    overflows (widened [.float 1e308, .float 1e308, .float (-1e308)]) = 1 ∧
      overflows (widened [.float 1e308, .float (-1e308), .float 1e308]) = 0 ∧
      total [.float 1e308, .float (-1e308), .float 1e308] =
        total [.float 1e308, .float 1e308, .float (-1e308)] := by
  refine ⟨by decide +kernel, by decide +kernel, ?_⟩
  exact (total_perm (by decide +kernel) (.cons _ (.swap _ _ _))).2 (by decide)
    (.inr (by decide +kernel))

/-- Great numbers that cancel in turn, and the smallest number. -/
def cancelledInTurn : List Number :=
  [.float 1e308, .float (-1e308), .float 1e308, .float (-1e308), .float 5e-324]

/-- The same numbers, with the positive ones first. -/
def cancelledInPairs : List Number :=
  [.float 1e308, .float 1e308, .float (-1e308), .float (-1e308), .float 5e-324]

/-- The exact sum is the smallest number, and it is lost in the order in which the first pass
overflows. -/
theorem total_not_perm :
    AllFinite (widened cancelledInTurn) ∧ cancelledInPairs.Perm cancelledInTurn ∧
      total cancelledInTurn = .ok 5e-324 ∧ total cancelledInPairs = .ok 0 ∧
      total cancelledInPairs ≠ total cancelledInTurn := by
  have hfinite : AllFinite (widened cancelledInTurn) := by decide +kernel
  have hperm : cancelledInPairs.Perm cancelledInTurn := .cons _ (.swap _ _ _)
  have hturn : total cancelledInTurn = .ok 5e-324 := by
    have hvalue : roundedSum (widened cancelledInTurn) = 5e-324 := by decide +kernel
    rw [total_eq hfinite, show overflows (widened cancelledInTurn) = 0 by decide +kernel,
      sumAfter, hvalue]
  have hpairs : total cancelledInPairs = .ok 0 := by
    have hvalue : rescaledSum (widened cancelledInPairs) = 0 := by decide +kernel
    rw [total_eq (hfinite.perm (hperm.map _)),
      show overflows (widened cancelledInPairs) = 1 by decide +kernel, sumAfter, hvalue]
  refine ⟨hfinite, hperm, hturn, hpairs, ?_⟩
  rw [hturn, hpairs]
  intro h
  exact absurd (Except.ok.inj h) (by decide +kernel)

end NumericActions
