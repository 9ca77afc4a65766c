import NumericActions.Proofs.Expansions
import NumericActions.Proofs.Representable
import NumericActions.Summation.Basic

/-!
# Sums do not fail

The first pass of a sum may overflow in the middle, but the second does not: its addends are
scaled down so far that fewer than `2 ^ 63` of them stay below the limit in every order.
Special addends start the expansion anew and do not count.

* `expand_finite_iff`, `sumOnce_eq_some_iff`: one addend and one pass.
* `exists_expand`: the expansion of addends that are small against their number.
* `exists_finite_mul_downscale`: how small the addends of the second pass are.
* `exists_sum`: the sum of fewer than `2 ^ 63` numbers is not a fault.
-/

namespace NumericActions

open Expansion Rounding

/-! ## One addend and one pass -/

theorem expand_finite_iff {negative : Bool} {m : Magnitude} {parts : List Int}
    {specials : Specials} {rest : List Binary64} {result : List Int × Specials} :
    expand parts specials (.finite negative m :: rest) = some result ↔
      ∃ grown, grow (Binary64.signedUnits negative m) parts = some grown ∧
        expand grown specials rest = some result := by
  rw [expand]
  cases grow (Binary64.signedUnits negative m) parts <;> simp

theorem sumOnce_eq_some_iff {addends : List Binary64} {total : Binary64} :
    sumOnce addends = some total ↔
      ∃ parts specials, expand [] Specials.none addends = some (parts, specials) ∧
        (specials.sum?).getD (Binary64.ofSignedUnits false (value parts)) = total := by
  unfold sumOnce
  cases expand [] Specials.none addends with
  | none => simp
  | some result =>
    obtain ⟨parts, specials⟩ := result
    simp

/-! ## Sums in range -/

/-- One step takes the bound on one addend off what is left for the others, so the expansion
stays compact up to the last addend. -/
theorem exists_expand {e g : Nat} (he : 2 ^ (e + 53) ≤ magnitudeLimit) (hg : g ≤ 2 ^ e)
    {addends : List Binary64}
    (hsmall : ∀ negative m, Binary64.finite negative m ∈ addends → m.units ≤ g)
    {bound : Nat} {parts : List Int} (hparts : Compact e bound parts)
    (hsum : bound + addends.length * g ≤ 2 ^ (e + 52)) (specials : Specials) :
    ∃ result, expand parts specials addends = some result := by
  induction addends generalizing bound parts specials with
  | nil => exact ⟨_, rfl⟩
  | cons x addends ih =>
    have hrest : ∀ negative m, Binary64.finite negative m ∈ addends → m.units ≤ g :=
      fun negative m hm => hsmall negative m (List.mem_cons_of_mem x hm)
    rw [List.length_cons, Nat.add_mul, Nat.one_mul] at hsum
    have hspecial : ∀ specials, ∃ result, expand [] specials addends = some result := fun s =>
      ih hrest (Compact.nil e bound) (by omega) s
    cases x with
    | nan => exact hspecial _
    | infinity negative => exact hspecial _
    | finite negative m =>
      have hunits := hsmall negative m (by simp)
      have habs := Binary64.natAbs_signedUnits negative m
      obtain ⟨grown, hgrown, hcompact⟩ := hparts.grow he (habs ▸ m.onGrid)
        (by omega) (show _ ≤ bound + g by omega) (by omega)
      obtain ⟨result, hresult⟩ := ih hrest hcompact (by omega) specials
      exact ⟨result, expand_finite_iff.mpr ⟨grown, hgrown, hresult⟩⟩

theorem exists_sumOnce {e g : Nat} (he : 2 ^ (e + 53) ≤ magnitudeLimit) (hg : g ≤ 2 ^ e)
    {addends : List Binary64}
    (hsmall : ∀ negative m, Binary64.finite negative m ∈ addends → m.units ≤ g)
    (hsum : addends.length * g ≤ 2 ^ (e + 52)) : ∃ total, sumOnce addends = some total := by
  obtain ⟨⟨parts, specials⟩, h⟩ :=
    exists_expand he hg hsmall (Compact.nil e 0) (by omega) Specials.none
  exact ⟨_, sumOnce_eq_some_iff.mpr ⟨parts, specials, h, rfl⟩⟩

/-- Fewer than `2 ^ 63` addends do not overflow in any order, if `2 ^ 64` times each of them
does not exceed the limit. -/
theorem exists_sumOnce_of_le {addends : List Binary64} (hlength : addends.length < 2 ^ 63)
    (hsmall : ∀ negative m, Binary64.finite negative m ∈ addends →
      m.units * 2 ^ 64 ≤ magnitudeLimit) : ∃ total, sumOnce addends = some total := by
  obtain ⟨g, hg⟩ : ∃ g, g = 2034 := ⟨_, rfl⟩
  obtain ⟨limit, hlimit, hrange⟩ := exists_magnitudeLimit_eq
  refine exists_sumOnce (Nat.le_of_eq (show 2 ^ (g + 11 + 53) = magnitudeLimit by
    rw [hrange, show g + 11 + 53 = limit by omega]))
    (Nat.pow_le_pow_right (by decide) (Nat.le_add_right g 11)) (fun negative m hm => ?_) ?_
  · have hunits := hsmall negative m hm
    rw [hrange, show limit = g + 64 by omega, Nat.pow_add] at hunits
    exact Nat.le_of_mul_le_mul_right hunits (Nat.two_pow_pos 64)
  · rw [show g + 11 + 52 = 63 + g by omega, Nat.pow_add]
    exact Nat.mul_le_mul_right _ (Nat.le_of_lt hlength)

/-! ## The second pass -/

theorem exists_downscale_eq : ∃ m : Magnitude, ∃ e, e = 1010 ∧
    downscale = .finite false m ∧ m.units = 2 ^ e := by
  obtain ⟨e, he⟩ : ∃ e, e = 1010 := ⟨_, rfl⟩
  obtain ⟨m, hm, hunits⟩ := Binary64.rounded_of_le false Nat.one_pos (onGrid_two_pow e)
    (two_pow_lt_magnitudeLimit (by omega)) (Nat.le_of_eq (Nat.mul_one (2 ^ e)).symm)
  have hround := roundQuotient_mul Nat.one_pos (onGrid_two_pow e)
  rw [Nat.mul_one] at hround
  refine ⟨m, e, he, ?_, hunits.trans hround⟩
  unfold downscale
  rw [← he, Nat.pow_eq, hm]

/-- Scaling divides by `2 ^ 64` and rounds, which leaves `2 ^ 64` times the room below the
limit. -/
theorem exists_finite_mul_downscale (negative : Bool) (m : Magnitude) :
    ∃ scaled : Magnitude, .finite negative m * downscale = .finite negative scaled ∧
      scaled.units = roundQuotient m.units (2 ^ 64) ∧
      scaled.units * 2 ^ 64 ≤ magnitudeLimit := by
  obtain ⟨scale, s, hs, hscale, hunits⟩ := exists_downscale_eq
  obtain ⟨u, hu, hone⟩ := exists_unitsPerOne_eq
  obtain ⟨limit, hlimit, hrange⟩ := exists_magnitudeLimit_eq
  obtain ⟨g, hg⟩ : ∃ g, g = 2034 := ⟨_, rfl⟩
  have hpow : unitsPerOne = 2 ^ 64 * 2 ^ s := by rw [hone, ← Nat.pow_add, show u = 64 + s by omega]
  have hroom : 2 ^ g * 2 ^ 64 = magnitudeLimit := by
    rw [hrange, ← Nat.pow_add, show g + 64 = limit by omega]
  have hle : m.units ≤ 2 ^ g * 2 ^ 64 := hroom ▸ Nat.le_of_lt m.inRange
  have hproduct : m.units * scale.units ≤ 2 ^ g * unitsPerOne := by
    rw [hunits, hpow, ← Nat.mul_assoc]
    exact Nat.mul_le_mul_right _ hle
  obtain ⟨scaled, hvalue, hscaled⟩ := Binary64.rounded_of_le negative unitsPerOne_pos
    (onGrid_two_pow g) (two_pow_lt_magnitudeLimit (by omega)) hproduct
  have hround : scaled.units = roundQuotient m.units (2 ^ 64) := by
    rw [hscaled, hunits, hpow, roundQuotient_mul_mul _ _ (Nat.two_pow_pos s)]
  refine ⟨scaled, ?_, hround, ?_⟩
  · rw [hscale, Binary64.mul_finite, Bool.bne_false, hvalue]
  · rw [hround, ← hroom]
    exact Nat.mul_le_mul_right _ (roundQuotient_le (Nat.two_pow_pos 64) (onGrid_two_pow g) hle)

/-- Special addends stay special. -/
theorem exists_finite_of_mul_downscale {x : Binary64} {negative : Bool} {scaled : Magnitude}
    (h : x * downscale = .finite negative scaled) : ∃ m, x = .finite negative m := by
  obtain ⟨scale, -, -, hscale, -⟩ := exists_downscale_eq
  cases x with
  | nan =>
    rw [hscale] at h
    cases h
  | infinity t =>
    rw [hscale, Binary64.mul_infinity_finite] at h
    split at h <;> cases h
  | finite t m =>
    obtain ⟨scaled', hvalue, -⟩ := exists_finite_mul_downscale t m
    rw [hvalue] at h
    cases h
    exact ⟨m, rfl⟩

/-- The second pass of fewer than `2 ^ 63` numbers does not overflow. -/
theorem exists_sumOnce_downscale {addends : List Binary64} (h : addends.length < 2 ^ 63) :
    ∃ total, sumOnce (addends.map (· * downscale)) = some total := by
  refine exists_sumOnce_of_le (by rwa [List.length_map]) fun negative scaled hscaled => ?_
  obtain ⟨x, -, hx⟩ := List.mem_map.mp hscaled
  obtain ⟨m, rfl⟩ := exists_finite_of_mul_downscale hx
  obtain ⟨scaled', hvalue, -, hle⟩ := exists_finite_mul_downscale negative m
  rw [hvalue] at hx
  cases hx
  exact hle

/-- The sum of fewer than `2 ^ 63` numbers has a value, whatever they are. -/
theorem exists_sum {addends : List Binary64} (h : addends.length < 2 ^ 63) :
    ∃ total, sum addends = .ok total := by
  unfold sum
  cases hfirst : sumOnce addends with
  | some total => exact ⟨total, rfl⟩
  | none =>
    obtain ⟨total, hsecond⟩ := exists_sumOnce_downscale h
    rw [hsecond]
    exact ⟨_, rfl⟩

end NumericActions
