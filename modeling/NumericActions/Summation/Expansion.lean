import NumericActions.Binary64.Arithmetic

/-!
# Expansions

An expansion is a list of 53-bit numbers of units that together stand for their exact
sum. Adding a number sweeps it through the parts: each rounded sum goes on and its exact
remainder stays behind, so nothing is lost. The sweep has no result when a rounded sum
reaches the limit of binary64.

* `roundUnits_small`: a number of units below `2 ^ 53` is not changed by rounding.
* `grow_sum`: growing an expansion adds exactly.
-/

namespace NumericActions.Expansion

/-- The 53-bit number of units nearest to `n`, ties to even. -/
def roundUnits (n : Int) : Int :=
  if n < 0 then -(Rounding.roundQuotient n.natAbs 1 : Int) else Rounding.roundQuotient n.natAbs 1

theorem roundUnits_small {n : Int} (h : n.natAbs < Nat.pow 2 53) : roundUnits n = n := by
  have hr : Rounding.roundQuotient n.natAbs 1 = n.natAbs := by
    have := Rounding.nearestInt_mul n.natAbs (Nat.zero_lt_one)
    simpa [Rounding.roundQuotient, Nat.div_one, Rounding.spacing_of_lt h] using this
  unfold roundUnits
  rw [hr]
  split <;> omega

/-- What an expansion stands for. -/
def value : List Int → Int
  | [] => 0
  | part :: parts => part + value parts

/-- The parts of an expansion, the smallest first, with a number swept through them. -/
def grow (carry : Int) : List Int → Option (List Int)
  | [] => some (if carry = 0 then [] else [carry])
  | part :: parts =>
    let high := roundUnits (carry + part)
    let low := carry + part - high
    if magnitudeLimit ≤ high.natAbs then none
    else (grow high parts).map fun rest => if low = 0 then rest else low :: rest

theorem grow_sum {carry : Int} {parts grown : List Int} (h : grow carry parts = some grown) :
    value grown = carry + value parts := by
  induction parts generalizing carry grown with
  | nil =>
    simp only [grow, Option.some.injEq] at h
    subst h
    split <;> simp_all [value]
  | cons part parts ih =>
    simp only [grow] at h
    split at h
    · cases h
    · obtain ⟨rest, hr, hg⟩ := Option.map_eq_some_iff.mp h
      have hs := ih hr
      subst hg
      split <;> simp only [value] <;> omega

end NumericActions.Expansion
