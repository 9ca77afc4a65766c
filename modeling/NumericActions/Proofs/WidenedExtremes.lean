import Mathlib.Tactic.SplitIfs
import NumericActions.Proofs.HalfEven

/-!
# Extremes of widened numbers

An extreme is found among the exact numbers and widened at the end. A pass over the widened
numbers may keep another element, because different numbers can become one binary64 number.
But widening does not reverse the order of two numbers, and when different numbers become
equal, they become the same binary64 number with the same sign. So both passes have the same
result.

* `Position.lt_of_lt_rounded`: rounding does not reverse the order of two places.
* `Number.position_toBinary64`: a number is widened by rounding its place.
* `Number.lt_or_eq_toBinary64`: what becomes of a number that is less than another one.
* `Number.toBinary64_firstBest`: the two passes, from one step of them.
* `extremes_widened`: the least and the greatest value.
-/

namespace NumericActions

open Expansion Rounding

/-! ## Rounded units -/

namespace Expansion

theorem roundUnits_mono {n m : Int} (h : n ≤ m) : roundUnits n ≤ roundUnits m := by
  unfold roundUnits
  by_cases hn : n < 0
  · by_cases hm : m < 0
    · have := roundQuotient_mono (show m.natAbs ≤ n.natAbs by omega)
      rw [if_pos hn, if_pos hm]
      omega
    · rw [if_pos hn, if_neg hm]
      omega
  · have := roundQuotient_mono (show n.natAbs ≤ m.natAbs by omega)
    rw [if_neg hn, if_neg (show ¬ m < 0 by omega)]
    omega

theorem roundUnits_of_onGrid {n : Int} (h : OnGrid n.natAbs) : roundUnits n = n := by
  have hr := roundQuotient_mul Nat.one_pos h
  rw [Nat.mul_one] at hr
  unfold roundUnits
  rw [hr]
  split <;> omega

/-- No number of units but zero is rounded to zero. -/
theorem eq_zero_of_roundUnits {n : Int} (h : roundUnits n = 0) : n = 0 := by
  by_contra hn
  have hone : 1 ≤ roundQuotient n.natAbs 1 :=
    le_roundQuotient Nat.one_pos (onGrid_two_pow 0) (by omega)
  rw [← natAbs_roundUnits, h] at hone
  omega

end Expansion

/-! ## Places -/

namespace Position

theorem lt_trichotomy (p q : Position) : p.lt q = true ∨ p = q ∨ q.lt p = true := by
  cases p with
  | negInfinity => cases q <;> simp [lt]
  | posInfinity => cases q <;> simp [lt]
  | units n =>
    cases q with
    | negInfinity => simp [lt]
    | posInfinity => simp [lt]
    | units m => simpa [lt] using Int.lt_trichotomy n m

theorem lt_asymm {p q : Position} (h : p.lt q = true) : ¬ q.lt p = true := by
  cases p with
  | negInfinity => cases q <;> simp_all [lt]
  | posInfinity => cases q <;> simp_all [lt]
  | units n =>
    cases q with
    | negInfinity => simp [lt] at h
    | posInfinity => simp [lt]
    | units m =>
      simp only [lt, decide_eq_true_eq] at h ⊢
      omega

theorem not_lt_negInfinity (p : Position) : ¬ p.lt .negInfinity = true := by
  cases p <;> simp [lt]

theorem not_posInfinity_lt (p : Position) : ¬ lt .posInfinity p = true := by
  cases p <;> simp [lt]

/-- The place of a number of units, which is at infinity when it is out of range. -/
def clamp (n : Int) : Position :=
  if (magnitudeLimit : Int) ≤ n then .posInfinity
  else if n ≤ -(magnitudeLimit : Int) then .negInfinity
  else .units n

theorem clamp_of_natAbs_lt {n : Int} (h : n.natAbs < magnitudeLimit) : clamp n = .units n := by
  unfold clamp
  rw [if_neg (by omega), if_neg (by omega)]

theorem clamp_of_le_natAbs {n : Int} (h : magnitudeLimit ≤ n.natAbs) :
    clamp n = if n < 0 then .negInfinity else .posInfinity := by
  have hpos := magnitudeLimit_pos
  unfold clamp
  by_cases hn : n < 0
  · rw [if_neg (by omega), if_pos (by omega), if_pos hn]
  · rw [if_pos (by omega), if_neg hn]

theorem lt_of_clamp_lt_clamp {n m : Int} (h : (clamp n).lt (clamp m) = true) : n < m := by
  have hpos := magnitudeLimit_pos
  unfold clamp at h
  split_ifs at h <;> simp only [lt, decide_eq_true_eq, Bool.false_eq_true] at h <;> omega

/-- The place that a place is rounded to. -/
def rounded : Position → Position
  | .negInfinity => .negInfinity
  | .units n => clamp (roundUnits n)
  | .posInfinity => .posInfinity

theorem lt_of_lt_rounded {p q : Position} (h : p.rounded.lt q.rounded = true) :
    p.lt q = true := by
  cases p with
  | posInfinity => exact absurd h (not_posInfinity_lt _)
  | negInfinity =>
    cases q with
    | negInfinity => cases h
    | units m => rfl
    | posInfinity => rfl
  | units n =>
    cases q with
    | negInfinity => exact absurd h (not_lt_negInfinity _)
    | posInfinity => rfl
    | units m =>
      have hlt := lt_of_clamp_lt_clamp h
      refine decide_eq_true (Int.not_le.mp fun hle => ?_)
      exact absurd (roundUnits_mono hle) (Int.not_le.mpr hlt)

theorem eq_zero_of_rounded {p : Position} (h : p.rounded = .units 0) : p = .units 0 := by
  cases p with
  | negInfinity => cases h
  | posInfinity => cases h
  | units n =>
    have h : clamp (roundUnits n) = .units 0 := h
    unfold clamp at h
    split_ifs at h
    rw [eq_zero_of_roundUnits (units.inj h)]

/-- A place below another one is rounded to a place below that of the other one, or both are
rounded to the same place, which is not zero. -/
theorem rounded_lt_or_eq {p q : Position} (h : p.lt q = true) :
    p.rounded.lt q.rounded = true ∨ p.rounded = q.rounded ∧ p.rounded ≠ .units 0 := by
  rcases lt_trichotomy p.rounded q.rounded with hlt | heq | hgt
  · exact .inl hlt
  · refine .inr ⟨heq, fun hzero => ?_⟩
    rw [eq_zero_of_rounded hzero, eq_zero_of_rounded (heq.symm.trans hzero)] at h
    simp [lt] at h
  · exact absurd (lt_of_lt_rounded hgt) (lt_asymm h)

end Position

/-! ## Widened numbers -/

namespace Binary64

/-- The two zeros are at one place. -/
theorem position_ofSignedUnits_eq (zeroSign : Bool) (n : Int) :
    (ofSignedUnits zeroSign n).position = (rounded (n < 0) n.natAbs 1).position := by
  by_cases hzero : n = 0
  · subst hzero
    cases zeroSign <;> decide +kernel
  · unfold ofSignedUnits
    rw [if_neg hzero]

theorem position_ofSignedUnits (zeroSign : Bool) (n : Int) :
    (ofSignedUnits zeroSign n).position = some (.clamp (roundUnits n)) := by
  have habs := natAbs_roundUnits n
  rw [position_ofSignedUnits_eq]
  unfold rounded ofUnits
  split
  · rename_i hlt
    rw [Position.clamp_of_natAbs_lt (habs ▸ hlt)]
    have hunits := exactUnits_of_roundQuotient
      (m := ⟨roundQuotient n.natAbs 1, onGrid_roundQuotient _ _, hlt⟩) rfl
    exact congrArg (some ∘ Position.units) hunits
  · rename_i hle
    have hsign : roundUnits n < 0 ↔ n < 0 := by
      have hpos := magnitudeLimit_pos
      unfold roundUnits
      split <;> omega
    rw [Position.clamp_of_le_natAbs (habs ▸ Nat.le_of_not_lt hle)]
    unfold position
    simp only [hsign, decide_eq_true_eq]

/-- Numbers at the same place are equal, unless they are zeros with different signs. -/
theorem eq_of_position_eq {x y : Binary64} (h : x.position = y.position)
    (hnan : x.position ≠ none) (hzero : x.position ≠ some (.units 0)) : x = y := by
  cases x with
  | nan => exact absurd rfl hnan
  | infinity s =>
    cases y with
    | nan => cases h
    | infinity t => cases s <;> cases t <;> simp_all [position]
    | finite t k => cases s <;> simp [position] at h
  | finite s m =>
    cases y with
    | nan => cases h
    | infinity t => cases t <;> simp [position] at h
    | finite t k =>
      have hunits : signedUnits s m = signedUnits t k := Position.units.inj (Option.some.inj h)
      have hne : signedUnits s m ≠ 0 := fun hm => hzero (congrArg (some ∘ Position.units) hm)
      have hmagnitude : m.units = k.units := by
        rw [← natAbs_signedUnits s m, hunits, natAbs_signedUnits]
      have hsign : s = t := by
        unfold signedUnits at hunits hne
        cases s <;> cases t <;> simp_all
      obtain ⟨units, _, _⟩ := m
      obtain ⟨others, _, _⟩ := k
      subst hmagnitude hsign
      rfl

theorem lt_iff_position (x y : Binary64) :
    x.lt y = true ↔ ∃ p ∈ x.position, ∃ q ∈ y.position, p.lt q = true := by
  unfold lt
  cases x.position <;> cases y.position <;> simp

end Binary64

namespace Number

theorem lt_iff_position (v w : Number) :
    v.lt w = true ↔ ∃ p ∈ v.position, ∃ q ∈ w.position, p.lt q = true := by
  unfold lt
  cases v.position <;> cases w.position <;> simp

theorem position_toBinary64 (v : Number) :
    v.toBinary64.position = v.position.map Position.rounded := by
  cases v with
  | int n =>
    show (Binary64.ofInt n).position = _
    rw [Binary64.ofInt_eq_ofSignedUnits, Binary64.position_ofSignedUnits]
    rfl
  | float x =>
    cases x with
    | nan => rfl
    | infinity negative => cases negative <;> rfl
    | finite negative m =>
      have habs := Binary64.natAbs_signedUnits negative m
      have hround : roundUnits (Binary64.signedUnits negative m) = Binary64.signedUnits negative m :=
        roundUnits_of_onGrid (habs ▸ m.onGrid)
      show some (Position.units _) = some (Position.clamp _)
      rw [hround, Position.clamp_of_natAbs_lt (habs ▸ m.inRange)]

/-- A number that is less than another one is so when both are widened, or both become the same
binary64 number. -/
theorem lt_or_eq_toBinary64 {v w : Number} (h : v.lt w = true) :
    v.toBinary64.lt w.toBinary64 = true ∨ v.toBinary64 = w.toBinary64 := by
  obtain ⟨p, hp, q, hq, hlt⟩ := (lt_iff_position v w).mp h
  have hv : v.toBinary64.position = some p.rounded := by
    rw [position_toBinary64, hp]
    rfl
  have hw : w.toBinary64.position = some q.rounded := by
    rw [position_toBinary64, hq]
    rfl
  rcases Position.rounded_lt_or_eq hlt with hlt | ⟨heq, hne⟩
  · exact .inl ((Binary64.lt_iff_position _ _).mpr ⟨_, hv, _, hw, hlt⟩)
  · refine .inr (Binary64.eq_of_position_eq (by rw [hv, hw, heq]) ?_ ?_)
    · rw [hv]
      exact Option.some_ne_none _
    · rw [hv]
      exact fun hzero => hne (Option.some.inj hzero)

theorem lt_of_lt_toBinary64 {v w : Number} (h : v.toBinary64.lt w.toBinary64 = true) :
    v.lt w = true := by
  obtain ⟨r, hr, s, hs, hlt⟩ := (Binary64.lt_iff_position _ _).mp h
  rw [position_toBinary64, Option.mem_def, Option.map_eq_some_iff] at hr hs
  obtain ⟨p, hp, rfl⟩ := hr
  obtain ⟨q, hq, rfl⟩ := hs
  exact (lt_iff_position v w).mpr ⟨p, hp, q, hq, Position.lt_of_lt_rounded hlt⟩

/-- A choice by the order of two numbers can be made after they are widened, if it does not
matter between numbers that become equal. -/
theorem toBinary64_ite_lt {v w x y : Number}
    (hequal : v.toBinary64 = w.toBinary64 → x.toBinary64 = y.toBinary64) :
    (if v.lt w then x else y).toBinary64 =
      if v.toBinary64.lt w.toBinary64 then x.toBinary64 else y.toBinary64 := by
  split
  · rename_i hlt
    rcases lt_or_eq_toBinary64 hlt with hlt | heq
    · rw [if_pos hlt]
    · rw [hequal heq, ite_self]
  · rename_i hnot
    rw [if_neg fun hlt => hnot (lt_of_lt_toBinary64 hlt)]

end Number

/-! ## Two passes -/

namespace Binary64

/-- The first of the numbers that no later one is better than, beginning with `best`. -/
def firstBest (better : Binary64 → Binary64 → Bool) (best : Binary64) (numbers : List Binary64) :
    Binary64 :=
  numbers.foldl (fun best x => if better x best then x else best) best

/-- The result of one pass over numbers that keeps the first of the strictly best. -/
def extreme? (better : Binary64 → Binary64 → Bool) : List Binary64 → Option Binary64
  | [] => none
  | x :: rest => some (firstBest better x rest)

end Binary64

/-- Widening the result of a pass is a pass over the widened numbers, if every step of the one
is a step of the other. -/
theorem Number.toBinary64_firstBest {better : Number → Number → Bool}
    {betterWidened : Binary64 → Binary64 → Bool}
    (hstep : ∀ v best : Number, (if better v best then v else best).toBinary64 =
      if betterWidened v.toBinary64 best.toBinary64 then v.toBinary64 else best.toBinary64)
    (best : Number) (values : List Number) :
    (firstBest better best values).toBinary64 =
      Binary64.firstBest betterWidened best.toBinary64 (values.map Number.toBinary64) := by
  unfold firstBest Binary64.firstBest
  induction values generalizing best with
  | nil => rfl
  | cons v values ih => rw [List.map_cons, List.foldl_cons, List.foldl_cons, ih, hstep]

theorem exists_extreme {better : Number → Number → Bool}
    {betterWidened : Binary64 → Binary64 → Bool}
    (hstep : ∀ v best : Number, (if better v best then v else best).toBinary64 =
      if betterWidened v.toBinary64 best.toBinary64 then v.toBinary64 else best.toBinary64)
    {values : List Number} (hne : values ≠ []) :
    ∃ x, extreme better values = .ok x ∧
      Binary64.extreme? betterWidened (values.map Number.toBinary64) = some x := by
  cases values with
  | nil => exact absurd rfl hne
  | cons v values =>
    exact ⟨_, rfl, congrArg some (Number.toBinary64_firstBest hstep v values).symm⟩

/-- The least of some values is, bit for bit, the result of a pass over the widened values that
keeps the first of the strictly least ones, and the greatest likewise, with not-a-number,
infinities and zeros of both signs. An integer is widened by rounding it once, ties to even, and
becomes the infinity of its sign when the rounded value is out of range. -/
theorem extremes_widened (values : List Number) (hne : values ≠ []) :
    (∃ x, minimum values = .ok x ∧
      Binary64.extreme? (fun a b => a.lt b) (values.map Number.toBinary64) = some x) ∧
    (∃ x, maximum values = .ok x ∧
      Binary64.extreme? (fun a b => b.lt a) (values.map Number.toBinary64) = some x) ∧
    (∀ x, (Number.float x).toBinary64 = x) ∧
    (∀ (n : Int) x, RoundsTo (n : ℚ) x ↔ x = (Number.int n).toBinary64) ∧
    ∀ (n : Int) negative, (Number.int n).toBinary64 = .infinity negative ↔
      overflowThreshold ≤ |(n : ℚ)| ∧ decide (n < 0) = negative := by
  have hrounds : ∀ n : Int, RoundsTo (n : ℚ) (Number.int n).toBinary64 := roundsTo_ofInt
  refine ⟨exists_extreme ?_ hne, exists_extreme ?_ hne, Number.toBinary64_float,
    fun n x => ⟨fun hx => hx.unique (hrounds n), fun hx => hx ▸ hrounds n⟩, fun n negative => ?_⟩
  · intro v best
    exact Number.toBinary64_ite_lt id
  · intro v best
    exact Number.toBinary64_ite_lt Eq.symm
  · simp only [(hrounds n).eq_infinity_iff, Int.cast_lt_zero]

/-- Two integers above `2 ^ 53` and the binary64 number that both are widened to: the one pass ends
at the second place, the other one at the first. -/
theorem extremes_widened_odd :
    minimum [.int 9007199254740993, .float 9007199254740992, .int 9007199254740993] =
        .ok 9007199254740992 ∧
      Binary64.extreme? (fun a b => a.lt b)
        [9007199254740992, 9007199254740992, 9007199254740992] = some 9007199254740992 := by
  have hwidened : (Number.int 9007199254740993).toBinary64 = 9007199254740992 := by
    decide +kernel
  obtain ⟨⟨x, hx, hpass⟩, -, hfloat, -⟩ := extremes_widened
    [.int 9007199254740993, .float 9007199254740992, .int 9007199254740993] (List.cons_ne_nil _ _)
  simp only [List.map_cons, List.map_nil, hwidened, hfloat] at hpass
  have hbits : some x = some 9007199254740992 := by
    rw [← hpass]
    decide +kernel
  rw [Option.some.injEq] at hbits
  rw [hbits] at hx hpass
  exact ⟨hx, hpass⟩

end NumericActions
