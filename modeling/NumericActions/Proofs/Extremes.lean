import Mathlib.Data.EReal.Basic
import NumericActions.Proofs.HalfEven

/-!
# The first extreme

Numbers are compared by what they denote on the extended real line, integers and binary64
numbers alike and without rounding. The positions of the extremes are found in one pass: a
value takes the place of the best one before it only if it is strictly better. So the first of
equal extremes is found. With not-a-number, which is never better nor worse, a pass is no longer
a search for an extreme; but the pass over the values and that over their positions still go
the same way.

* `Number.value?`, `Number.lt_iff`: what a number denotes, and the comparison of numbers.
* `IsFirstGreatest.concat`, `IsFirstGreatest.exists_firstBestIndex`: the invariant of a pass, at
  one value and over a list.
* `getElem?_firstBestIndex`: the two passes go the same way.
* `extremeIndex_isLeast`: the positions of the extremes, and the extremes at them.
-/

namespace NumericActions

/-! ## The extended real line -/

/-- The extended real number that a binary64 number denotes; not-a-number denotes none. -/
noncomputable def Binary64.value? : Binary64 → Option EReal
  | .nan => none
  | .infinity negative => some (if negative then ⊥ else ⊤)
  | .finite negative m => some ((Binary64.finite negative m).toRat : ℝ)

/-- The extended real number that a number denotes. -/
noncomputable def Number.value? : Number → Option EReal
  | .int n => some (n : ℝ)
  | .float x => x.value?

/-- The extended real number at a place. -/
noncomputable def Position.value : Position → EReal
  | .negInfinity => ⊥
  | .units n => ((n / unitsPerOne : ℚ) : ℝ)
  | .posInfinity => ⊤

theorem Position.lt_iff (p q : Position) : p.lt q = true ↔ p.value < q.value := by
  cases p with
  | negInfinity =>
    cases q with
    | negInfinity => exact iff_of_false Bool.false_ne_true (lt_irrefl _)
    | units k => exact iff_of_true rfl (EReal.bot_lt_coe _)
    | posInfinity => exact iff_of_true rfl bot_lt_top
  | posInfinity =>
    have hlt : ¬ lt .posInfinity q = true := by cases q <;> exact Bool.false_ne_true
    exact iff_of_false hlt not_top_lt
  | units n =>
    cases q with
    | negInfinity => exact iff_of_false Bool.false_ne_true not_lt_bot
    | posInfinity => exact iff_of_true rfl (EReal.coe_lt_top _)
    | units k =>
      rw [value, value, EReal.coe_lt_coe_iff, Rat.cast_lt,
        div_lt_div_iff_of_pos_right Binary64.cast_unitsPerOne_pos, Int.cast_lt]
      exact decide_eq_true_iff

theorem Binary64.value?_eq (x : Binary64) : x.value? = x.position.map Position.value := by
  cases x with
  | nan => rfl
  | infinity negative => cases negative <;> rfl
  | finite negative m => rfl

theorem Number.value?_eq (v : Number) : v.value? = v.position.map Position.value := by
  cases v with
  | int n =>
    have hn : ((n * unitsPerOne : Int) / unitsPerOne : ℚ) = n := by
      rw [Int.cast_mul, Int.cast_natCast,
        mul_div_cancel_right₀ _ Binary64.cast_unitsPerOne_pos.ne']
    show some _ = some (((_ : ℚ) : ℝ) : EReal)
    rw [hn, Rat.cast_intCast]
  | float x => exact x.value?_eq

/-- A comparison holds when both numbers denote something and the one is less than the other. -/
theorem Number.lt_iff (v w : Number) :
    v.lt w = true ↔ ∃ x ∈ v.value?, ∃ y ∈ w.value?, x < y := by
  rw [value?_eq, value?_eq]
  unfold lt
  cases v.position with
  | none => simp
  | some p =>
    cases w.position with
    | none => simp
    | some q => simpa using p.lt_iff q

theorem Number.exists_value? {v : Number} (h : v ≠ .float .nan) : ∃ x, v.value? = some x := by
  cases v with
  | int n => exact ⟨_, rfl⟩
  | float x =>
    cases x with
    | nan => exact absurd rfl h
    | infinity negative => exact ⟨_, rfl⟩
    | finite negative m => exact ⟨_, rfl⟩

/-! ## The first greatest value -/

/-- The value at `i` is greatest by a key, and all values before it have smaller keys. -/
structure IsFirstGreatest {κ : Type} [LinearOrder κ] (key : Number → κ) (values : List Number)
    (i : Nat) (best : Number) : Prop where
  value_at : values[i]? = some best
  greatest : ∀ v ∈ values, key v ≤ key best
  first : ∀ v ∈ values.take i, key v < key best

section

variable {κ : Type} [LinearOrder κ] {key : Number → κ} {better : Number → Number → Bool}

theorem isFirstGreatest_singleton (v : Number) : IsFirstGreatest key [v] 0 v where
  value_at := rfl
  greatest := by simp
  first := by simp

/-- One more value takes the place of the greatest one if it is greater. -/
theorem IsFirstGreatest.concat {values : List Number} {i : Nat} {best : Number}
    (h : IsFirstGreatest key values i best) (v : Number) :
    if key best < key v then IsFirstGreatest key (values ++ [v]) values.length v
    else IsFirstGreatest key (values ++ [v]) i best := by
  have hi : i < values.length := (List.getElem?_eq_some_iff.mp h.value_at).1
  split
  · rename_i hlt
    have hall : ∀ w ∈ values, key w < key v := fun w hw => (h.greatest w hw).trans_lt hlt
    constructor
    · rw [List.getElem?_append_right le_rfl, Nat.sub_self]
      rfl
    · intro w hw
      rcases List.mem_append.mp hw with hw | hw
      · exact (hall w hw).le
      · rw [List.mem_singleton.mp hw]
    · rw [List.take_left]
      exact hall
  · rename_i hle
    constructor
    · rw [List.getElem?_append_left hi, h.value_at]
    · intro w hw
      rcases List.mem_append.mp hw with hw | hw
      · exact h.greatest w hw
      · rw [List.mem_singleton.mp hw]
        exact not_lt.mp hle
    · rw [List.take_append_of_le_length hi.le]
      exact h.first

/-- A pass that goes on from the first greatest value ends at the first greatest value. -/
theorem IsFirstGreatest.exists_firstBestIndex {before rest : List Number} {position : Nat}
    {best : Number} (h : IsFirstGreatest key before position best)
    (hbetter : ∀ v ∈ before ++ rest, ∀ w ∈ before ++ rest, better v w = decide (key w < key v)) :
    ∃ v, IsFirstGreatest key (before ++ rest)
      (firstBestIndex better best position before.length rest) v := by
  induction rest generalizing before position best with
  | nil =>
    rw [List.append_nil]
    exact ⟨best, h⟩
  | cons v rest ih =>
    have hsplit : before ++ v :: rest = (before ++ [v]) ++ rest := by simp
    have hlength : (before ++ [v]).length = before.length + 1 := by simp
    have hmem : best ∈ before := List.mem_of_getElem? h.value_at
    have hstep := h.concat v
    have hv := hbetter v (by simp) best (List.mem_append_left _ hmem)
    unfold firstBestIndex
    rw [hv, hsplit, ← hlength]
    rw [hsplit] at hbetter
    by_cases hlt : key best < key v
    · rw [if_pos hlt] at hstep
      rw [if_pos (decide_eq_true hlt)]
      exact ih hstep hbetter
    · rw [if_neg hlt] at hstep
      rw [if_neg (by simpa using hlt)]
      exact ih hstep hbetter

theorem exists_isFirstGreatest (key : Number → κ) (better : Number → Number → Bool)
    {values : List Number} (hne : values ≠ [])
    (hbetter : ∀ v ∈ values, ∀ w ∈ values, better v w = decide (key w < key v)) :
    ∃ i v, extremeIndex better values = .ok i ∧ IsFirstGreatest key values i v := by
  cases values with
  | nil => exact absurd rfl hne
  | cons first rest =>
    obtain ⟨v, hv⟩ := (isFirstGreatest_singleton first).exists_firstBestIndex hbetter
    exact ⟨_, v, rfl, hv⟩

end

/-! ## Two passes -/

/-- At the position that a pass ends with stands the value that it ends with, whatever the
comparison is. -/
theorem getElem?_firstBestIndex (better : Number → Number → Bool) {before : List Number}
    {position : Nat} {best : Number} (h : before[position]? = some best) (rest : List Number) :
    (before ++ rest)[firstBestIndex better best position before.length rest]? =
      some (firstBest better best rest) := by
  induction rest generalizing before position best with
  | nil => rwa [List.append_nil]
  | cons v rest ih =>
    have hi : position < before.length := (List.getElem?_eq_some_iff.mp h).1
    have hsplit : before ++ v :: rest = (before ++ [v]) ++ rest := by simp
    have hlength : (before ++ [v]).length = before.length + 1 := by simp
    unfold firstBestIndex firstBest
    rw [List.foldl_cons, hsplit, ← hlength]
    split
    · exact ih (by simp)
    · exact ih (by rw [List.getElem?_append_left hi, h])

theorem exists_extremeIndex (better : Number → Number → Bool) {values : List Number}
    (hne : values ≠ []) : ∃ i v, extremeIndex better values = .ok i ∧ values[i]? = some v ∧
      extreme better values = .ok v.toBinary64 := by
  cases values with
  | nil => exact absurd rfl hne
  | cons first rest =>
    have hfirst : [first][0]? = some first := rfl
    exact ⟨_, _, rfl, getElem?_firstBestIndex better hfirst rest, rfl⟩

/-! ## The extremes -/

/-- The indices of the values that stand in a relation to all values. -/
def indicesOf (relation : EReal → EReal → Prop) (values : List Number) : Set Nat :=
  {i | ∃ v ∈ values[i]?, ∃ x ∈ v.value?, ∀ w ∈ values, ∀ y ∈ w.value?, relation x y}

section

variable {κ : Type} [LinearOrder κ] {f : EReal → κ} {values : List Number}
  (hvalues : ∀ v ∈ values, ∃ x, v.value? = some x)

include hvalues

theorem IsFirstGreatest.isLeast {i : Nat} {best : Number}
    (h : IsFirstGreatest (fun v => f (v.value?.getD 0)) values i best) :
    IsLeast (indicesOf (fun x y => f y ≤ f x) values) i := by
  have hbest : best ∈ values := List.mem_of_getElem? h.value_at
  obtain ⟨x, hx⟩ := hvalues best hbest
  have hgreatest := h.greatest
  have hfirst := h.first
  simp only [hx, Option.getD_some] at hgreatest hfirst
  constructor
  · refine ⟨best, h.value_at, x, hx, fun w hw y hy => ?_⟩
    have hle := hgreatest w hw
    rwa [hy, Option.getD_some] at hle
  · rintro j ⟨v, hv, y, hy, hall⟩
    by_contra hlt
    have hmem : v ∈ values.take i := by
      refine List.mem_of_getElem? (i := j) ?_
      rw [List.getElem?_take_of_lt (Nat.lt_of_not_le hlt)]
      exact hv
    have hless := hfirst v hmem
    rw [hy, Option.getD_some] at hless
    exact absurd (hall best hbest x hx) (not_le.mpr hless)

theorem exists_isLeast_extremeIndex {better : Number → Number → Bool} (hne : values ≠ [])
    (hbetter : ∀ v w x y, v.value? = some x → w.value? = some y →
      better v w = decide (f y < f x)) :
    ∃ i, extremeIndex better values = .ok i ∧
      IsLeast (indicesOf (fun x y => f y ≤ f x) values) i := by
  have hkeys : ∀ v ∈ values, ∀ w ∈ values,
      better v w = decide (f (w.value?.getD 0) < f (v.value?.getD 0)) := by
    intro v hv w hw
    obtain ⟨x, hx⟩ := hvalues v hv
    obtain ⟨y, hy⟩ := hvalues w hw
    rw [hbetter v w x y hx hy, hx, hy, Option.getD_some, Option.getD_some]
  obtain ⟨i, v, hi, hv⟩ := exists_isFirstGreatest (fun v => f (v.value?.getD 0)) better hne hkeys
  exact ⟨i, hi, hv.isLeast hvalues⟩

end

theorem Number.lt_eq_decide {v w : Number} {x y : EReal} (hv : v.value? = some x)
    (hw : w.value? = some y) : v.lt w = decide (x < y) := by
  rw [Bool.eq_iff_iff, lt_iff, hv, hw]
  simp

/-- The position of the greatest value is the least index at which a value is not less than any
other, and that of the least value likewise, for all lists without not-a-number. For all lists,
the greatest and the least value, widened, are the values at these positions. -/
theorem extremeIndex_isLeast (values : List Number) (hne : values ≠ []) :
    ((∀ v ∈ values, v ≠ .float .nan) →
      (∃ i, maxIndex values = .ok i ∧ IsLeast (indicesOf (· ≥ ·) values) i) ∧
      ∃ i, minIndex values = .ok i ∧ IsLeast (indicesOf (· ≤ ·) values) i) ∧
    (∃ i v, maxIndex values = .ok i ∧ values[i]? = some v ∧
      maximum values = .ok v.toBinary64) ∧
    ∃ i v, minIndex values = .ok i ∧ values[i]? = some v ∧
      minimum values = .ok v.toBinary64 := by
  refine ⟨fun hnan => ⟨?_, ?_⟩, exists_extremeIndex _ hne, exists_extremeIndex _ hne⟩
  · refine exists_isLeast_extremeIndex (f := id) (fun v hv => v.exists_value? (hnan v hv)) hne ?_
    intro v w x y hv hw
    exact Number.lt_eq_decide hw hv
  · refine exists_isLeast_extremeIndex (f := OrderDual.toDual)
      (fun v hv => v.exists_value? (hnan v hv)) hne ?_
    intro v w x y hv hw
    exact (Number.lt_eq_decide hv hw).trans (decide_eq_decide.mpr OrderDual.toDual_lt_toDual.symm)

/-- An integer above `2 ^ 53` is greater than the binary64 number that it is widened to. Of two
such integers that are equal the first is found. -/
theorem extremeIndex_isLeast_odd :
    IsLeast (indicesOf (· ≥ ·)
        [.float 9007199254740992, .int 9007199254740993, .int 9007199254740993]) 1 ∧
      maximum [.float 9007199254740992, .int 9007199254740993, .int 9007199254740993] =
        .ok 9007199254740992 := by
  have hindex : maxIndex
      [.float 9007199254740992, .int 9007199254740993, .int 9007199254740993] = .ok 1 :=
    congrArg Except.ok (by decide +kernel)
  have hwidened : (Number.int 9007199254740993).toBinary64 = 9007199254740992 := by
    decide +kernel
  obtain ⟨hleast, ⟨i, v, hi, hv, hmaximum⟩, -⟩ := extremeIndex_isLeast
    [.float 9007199254740992, .int 9007199254740993, .int 9007199254740993] (List.cons_ne_nil _ _)
  obtain ⟨⟨k, hk, hfirst⟩, -⟩ := hleast (by decide +kernel)
  rw [hindex, Except.ok.injEq] at hi hk
  subst hi hk
  cases hv
  rw [hwidened] at hmaximum
  exact ⟨hfirst, hmaximum⟩

end NumericActions
