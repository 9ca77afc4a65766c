import NumericActions.Proofs.HalfEven
import NumericActions.Proofs.ReductionFaults

/-!
# Special addends

Not-a-number and the infinities decide a sum among themselves. The finite addends can make the
first pass overflow, in front of a special addend, between two of them or behind the last one. But
the second pass meets the same special addends, and scaling back does not change what they come
to. So neither the order nor the finite addends show.

* `Dominates`: the result that special addends come to.
* `Specials.has_foldl`: the special addends that a pass has seen, after one addend and after all.
* `sumOnce_of_dominates`, `sum_of_dominates`: one pass and both.
* `sum_special`: sums, totals and averages with special addends.
-/

namespace NumericActions

/-! ## What special addends come to -/

/-- The result that the special ones of some addends come to. -/
inductive Dominates (addends : List Binary64) : Binary64 → Prop where
  | nan (mem : .nan ∈ addends) : Dominates addends .nan
  /-- Infinities of both signs have no sum. -/
  | opposite (positive : .infinity false ∈ addends) (negative : .infinity true ∈ addends) :
      Dominates addends .nan
  | infinity (negative : Bool) (mem : .infinity negative ∈ addends) (noNan : .nan ∉ addends)
      (noOpposite : .infinity (!negative) ∉ addends) : Dominates addends (.infinity negative)

/-- Two lists of addends have the same special ones, in any order and however often. -/
def SameSpecials (addends others : List Binary64) : Prop :=
  ∀ x : Binary64, x.isFinite = false → (x ∈ others ↔ x ∈ addends)

namespace Dominates

theorem exists_of_mem {addends : List Binary64} (h : ∃ x ∈ addends, x.isFinite = false) :
    ∃ x, Dominates addends x := by
  by_cases hnan : .nan ∈ addends
  · exact ⟨_, .nan hnan⟩
  · obtain ⟨x, hx, hspecial⟩ := h
    cases x with
    | nan => exact absurd hx hnan
    | finite negative m => cases hspecial
    | infinity negative =>
      by_cases hopposite : .infinity (!negative) ∈ addends
      · cases negative with
        | false => exact ⟨_, .opposite hx hopposite⟩
        | true => exact ⟨_, .opposite hopposite hx⟩
      · exact ⟨_, .infinity negative hx hnan hopposite⟩

variable {addends others : List Binary64} {x : Binary64}

theorem isFinite_eq_false (h : Dominates addends x) : x.isFinite = false := by
  cases h <;> rfl

theorem ne_nil (h : Dominates addends x) : addends ≠ [] := by
  cases h with
  | nan mem => exact List.ne_nil_of_mem mem
  | opposite positive _ => exact List.ne_nil_of_mem positive
  | infinity _ mem _ _ => exact List.ne_nil_of_mem mem

theorem congr (h : Dominates addends x) (hsame : SameSpecials addends others) :
    Dominates others x := by
  cases h with
  | nan mem => exact .nan ((hsame _ rfl).mpr mem)
  | opposite positive negative =>
    exact .opposite ((hsame _ rfl).mpr positive) ((hsame _ rfl).mpr negative)
  | infinity negative mem noNan noOpposite =>
    exact .infinity negative ((hsame _ rfl).mpr mem) (mt (hsame _ rfl).mp noNan)
      (mt (hsame _ rfl).mp noOpposite)

end Dominates

/-! ## One pass -/

namespace Specials

/-- Whether a special addend has been seen. -/
def has (s : Specials) : Binary64 → Bool
  | .nan => s.nan
  | .infinity false => s.positive
  | .infinity true => s.negative
  | .finite _ _ => false

theorem has_add (s : Specials) (y : Binary64) {x : Binary64} (hx : x.isFinite = false) :
    (s.add y).has x = true ↔ s.has x = true ∨ x = y := by
  cases y with
  | finite t m =>
    refine ⟨.inl, fun h => h.resolve_right ?_⟩
    rintro rfl
    cases hx
  | nan => cases x with
    | finite s m => cases hx
    | nan => simp [add, has]
    | infinity negative => cases negative <;> simp [add, has]
  | infinity t => cases x with
    | finite s m => cases hx
    | nan => cases t <;> simp [add, has]
    | infinity negative => cases t <;> cases negative <;> simp [add, has]

/-- After all addends exactly the special ones among them have been seen. -/
theorem has_foldl (addends : List Binary64) (s : Specials) {x : Binary64}
    (hx : x.isFinite = false) :
    (addends.foldl add s).has x = true ↔ s.has x = true ∨ x ∈ addends := by
  induction addends generalizing s with
  | nil => simp
  | cons y addends ih => rw [List.foldl_cons, ih, has_add s y hx, List.mem_cons, or_assoc]

theorem has_none (x : Binary64) : none.has x = false := by
  cases x with
  | infinity negative => cases negative <;> rfl
  | _ => rfl

/-- What has been seen has the result that the addends come to. -/
theorem sum?_of_dominates {s : Specials} {addends : List Binary64} {x : Binary64}
    (h : Dominates addends x)
    (hseen : ∀ y : Binary64, y.isFinite = false → (s.has y = true ↔ y ∈ addends)) :
    s.sum? = some x := by
  unfold sum?
  cases h with
  | nan mem =>
    have hnan : s.nan = true := (hseen .nan rfl).mpr mem
    rw [hnan]
    rfl
  | opposite positive negative =>
    have hpositive : s.positive = true := (hseen (.infinity false) rfl).mpr positive
    have hnegative : s.negative = true := (hseen (.infinity true) rfl).mpr negative
    rw [hpositive, hnegative, Bool.and_self, Bool.or_true]
    rfl
  | infinity negative mem noNan noOpposite =>
    have hnan : s.nan = false := Bool.eq_false_iff.mpr (mt (hseen .nan rfl).mp noNan)
    have hmem := (hseen (.infinity negative) rfl).mpr mem
    have hopposite := mt (hseen (.infinity (!negative)) rfl).mp noOpposite
    cases negative <;> simp_all [has]

end Specials

/-- A pass sees all special addends, wherever it starts its expansion anew. -/
theorem specials_of_expand {addends : List Binary64} {parts grown : List Int}
    {specials others : Specials} (h : expand parts specials addends = some (grown, others)) :
    others = addends.foldl Specials.add specials := by
  induction addends generalizing parts specials with
  | nil =>
    cases h
    rfl
  | cons x addends ih =>
    rw [List.foldl_cons]
    cases x with
    | nan => exact ih h
    | infinity negative => exact ih h
    | finite negative m =>
      obtain ⟨next, -, hexpand⟩ := expand_finite_iff.mp h
      exact ih hexpand

theorem sumOnce_of_dominates {addends : List Binary64} {x total : Binary64}
    (hx : Dominates addends x) (h : sumOnce addends = some total) : total = x := by
  obtain ⟨grown, specials, hexpand, rfl⟩ := sumOnce_eq_some_iff.mp h
  have hseen : ∀ y : Binary64, y.isFinite = false → (specials.has y = true ↔ y ∈ addends) := by
    intro y hy
    rw [specials_of_expand hexpand, Specials.has_foldl addends _ hy, Specials.has_none]
    simp
  rw [Specials.sum?_of_dominates hx hseen, Option.getD_some]

/-! ## Both passes -/

namespace Binary64

theorem nan_mul (x : Binary64) : .nan * x = .nan := by
  cases x <;> rfl

theorem infinity_mul_downscale (negative : Bool) :
    .infinity negative * downscale = .infinity negative := by
  obtain ⟨scale, e, -, hscale, hunits⟩ := exists_downscale_eq
  have hpos := Nat.two_pow_pos e
  rw [hscale, mul_infinity_finite, if_neg (by omega), Bool.bne_false]

theorem special_mul_downscale {x : Binary64} (hx : x.isFinite = false) : x * downscale = x := by
  cases x with
  | nan => exact nan_mul _
  | infinity negative => exact infinity_mul_downscale negative
  | finite negative m => cases hx

theorem special_mul_upscale {x : Binary64} (hx : x.isFinite = false) : x * upscale = x := by
  cases x with
  | nan => exact nan_mul _
  | infinity negative => exact infinity_mul_upscale negative
  | finite negative m => cases hx

end Binary64

/-- Scaling down leaves the special addends, and makes none. -/
theorem sameSpecials_downscale (addends : List Binary64) :
    SameSpecials addends (addends.map (· * downscale)) := by
  intro x hx
  rw [List.mem_map]
  constructor
  · rintro ⟨y, hy, hscaled⟩
    cases hfinite : y.isFinite with
    | false => rwa [← hscaled, Binary64.special_mul_downscale hfinite]
    | true =>
      obtain ⟨negative, m, rfl⟩ := Binary64.exists_of_isFinite hfinite
      obtain ⟨scaled, hvalue, -⟩ := exists_finite_mul_downscale negative m
      rw [← hscaled, hvalue] at hx
      cases hx
  · exact fun hmem => ⟨x, hmem, Binary64.special_mul_downscale hx⟩

theorem sum_of_dominates {addends : List Binary64} (hlength : addends.length < 2 ^ 63)
    {x : Binary64} (hx : Dominates addends x) : sum addends = .ok x := by
  unfold sum
  cases hfirst : sumOnce addends with
  | some total => rw [sumOnce_of_dominates hx hfirst]
  | none =>
    obtain ⟨total, hsecond⟩ := exists_sumOnce_downscale hlength
    have htotal := sumOnce_of_dominates (hx.congr (sameSpecials_downscale addends)) hsecond
    rw [hsecond, htotal]
    dsimp only
    rw [Binary64.special_mul_upscale hx.isFinite_eq_false]

/-! ## Totals and averages -/

theorem Binary64.special_div_ofInt {x : Binary64} (hx : x.isFinite = false) {count : Nat}
    (hlt : count < 2 ^ 63) : x / ofInt count = x := by
  obtain ⟨m, hm⟩ := exists_ofInt_eq (n := count) (by omega)
  have hsign : decide ((count : Int) < 0) = false := decide_eq_false (by omega)
  rw [hm, hsign]
  cases x with
  | nan => rfl
  | infinity negative => cases negative <;> rfl
  | finite negative k => cases hx

/-- The average of a special sum is the sum. -/
theorem average_of_dominates {values : List Number} (hlength : values.length < 2 ^ 63)
    {x : Binary64} (hx : Dominates (widened values) x) : average values = .ok x := by
  have hwidened : (widened values).length < 2 ^ 63 := by rwa [length_widened]
  have hne : values ≠ [] := by
    rintro rfl
    exact hx.ne_nil rfl
  unfold average
  rw [bind_of_eq_ok (Check.requireNonEmpty_of_ne_nil hne),
    bind_of_eq_ok (sum_of_dominates hwidened hx), meanOf_eq x (List.length_pos_iff.mpr hne) hlength,
    Binary64.special_div_ofInt hx.isFinite_eq_false hlength]

/-- The sum of fewer than `2 ^ 63` addends, some of which are special, is what these come to, and
is never a fault. Every other list with the same special addends has the same sum, whatever its
finite addends and its order are. So has every list of numbers, as its total and as its average,
if these are the special ones among the numbers when they are widened; an integer is widened to an
infinity exactly when it is out of range. -/
theorem sum_special {addends : List Binary64} (hlength : addends.length < 2 ^ 63)
    (hspecial : ∃ x ∈ addends, x.isFinite = false) :
    ∃ result, sum addends = .ok result ∧ (∀ x, Dominates addends x ↔ x = result) ∧
      (∀ others : List Binary64, others.length < 2 ^ 63 → SameSpecials addends others →
        sum others = .ok result) ∧
      (∀ values : List Number, values.length < 2 ^ 63 → SameSpecials addends (widened values) →
        total values = .ok result ∧ average values = .ok result) ∧
      ∀ (n : Int) negative, (Number.int n).toBinary64 = .infinity negative ↔
        overflowThreshold ≤ |(n : ℚ)| ∧ decide (n < 0) = negative := by
  obtain ⟨result, hresult⟩ := Dominates.exists_of_mem hspecial
  refine ⟨result, sum_of_dominates hlength hresult, fun x => ⟨fun hx => ?_, fun hx => hx ▸ hresult⟩,
    fun others hothers hsame => sum_of_dominates hothers (hresult.congr hsame),
    fun values hvalues hsame => ⟨?_, average_of_dominates hvalues (hresult.congr hsame)⟩,
    fun n negative => ?_⟩
  · have hsums := sum_of_dominates hlength hx
    rw [sum_of_dominates hlength hresult, Except.ok.injEq] at hsums
    exact hsums.symm
  · have hwidened : (widened values).length < 2 ^ 63 := by rwa [length_widened]
    exact sum_of_dominates hwidened (hresult.congr hsame)
  · have hrounds : RoundsTo (n : ℚ) (Number.int n).toBinary64 := roundsTo_ofInt n
    rw [hrounds.eq_infinity_iff]
    simp only [Int.cast_lt_zero]

/-- The first pass overflows in front of the infinity. An integer out of range is the same infinity,
and two more numbers do not change the average. -/
theorem sum_special_overflow :
    sumOnce [1e308, 1e308, .infinity true] = none ∧
      sum [1e308, 1e308, .infinity true] = .ok (.infinity true) ∧
      average [.float 1, .int (-10 ^ 400), .float 5e-324] = .ok (.infinity true) := by
  have hfinite : ∀ y : Binary64, y.isFinite = true →
      ∀ x : Binary64, x.isFinite = false → x ≠ y := by
    rintro y hy x hx rfl
    exact absurd hy (Bool.eq_false_iff.mp hx)
  have hgreat := hfinite 1e308 (by decide +kernel)
  have hone := hfinite 1 (by decide +kernel)
  have hsmall := hfinite 5e-324 (by decide +kernel)
  have hwidened : widened [.float 1, .int (-10 ^ 400), .float 5e-324] =
      [1, .infinity true, 5e-324] := by decide +kernel
  obtain ⟨result, hsum, hiff, -, hnumbers, -⟩ :=
    @sum_special [1e308, 1e308, .infinity true] (by decide) ⟨.infinity true, by simp, rfl⟩
  have hresult : Binary64.infinity true = result := (hiff _).mp
    (.infinity true (by simp) (by simp [hgreat .nan rfl]) (by simp [hgreat (.infinity false) rfl]))
  have hsame : SameSpecials [1e308, 1e308, .infinity true]
      (widened [.float 1, .int (-10 ^ 400), .float 5e-324]) := by
    intro x hx
    rw [hwidened]
    simp [hgreat x hx, hone x hx, hsmall x hx]
  obtain ⟨-, haverage⟩ := hnumbers _ (by decide) hsame
  rw [← hresult] at hsum haverage
  exact ⟨by decide +kernel, hsum, haverage⟩

end NumericActions
