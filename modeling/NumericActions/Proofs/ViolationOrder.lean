import Mathlib.Data.String.Basic
import NumericActions.Contract.Validation

/-!
# The order of violations

Violations are put in the order of their places, a place being compared step by step as
texts. Violations at one place stay in the order of the keywords that cause them.

* `Violation.sorted_eq`: the order is that of the places.
* `Violation.perm_sorted`, `Violation.pairwise_sorted`, `Violation.atPlace_sorted`: sorting
  loses nothing, puts the places in order, and keeps the order at each place.
* `Violation.atPlace_itemViolations`: the violations at the items of an array.
-/

namespace NumericActions

/-! ## Steps as texts -/

namespace PathStep

theorem sortText_key (name : String) : sortText (.key name) = name := rfl

/-- Different indices have different digits. -/
theorem sortText_index_inj {i j : Nat} : sortText (.index i) = sortText (.index j) ↔ i = j := by
  constructor
  · intro h
    have hdigits : i.repr = j.repr := h
    simpa using congrArg (fun text => Nat.ofDigitChars 10 text.toList 0) hdigits
  · rintro rfl
    rfl

end PathStep

namespace Violation

/-! ## The order of places -/

/-- The place of a violation as it is compared. -/
def placeTexts (violation : Violation) : List String := violation.steps.map PathStep.sortText

theorem textsLe_cons_iff {a b : String} {as bs : List String} :
    textsLe (a :: as) (b :: bs) = true ↔ a < b ∨ a = b ∧ textsLe as bs = true := by
  rw [textsLe]
  split
  · simp_all
  · split <;> simp_all

theorem textsLe_total (as bs : List String) : textsLe as bs || textsLe bs as := by
  rw [Bool.or_eq_true]
  induction as generalizing bs with
  | nil => exact .inl rfl
  | cons a as ih =>
    cases bs with
    | nil => exact .inr rfl
    | cons b bs =>
      rw [textsLe_cons_iff, textsLe_cons_iff]
      rcases lt_trichotomy a b with h | rfl | h
      · exact .inl (.inl h)
      · rcases ih bs with h | h
        · exact .inl (.inr ⟨rfl, h⟩)
        · exact .inr (.inr ⟨rfl, h⟩)
      · exact .inr (.inl h)

theorem textsLe_trans (as bs cs : List String) (hab : textsLe as bs) (hbc : textsLe bs cs) :
    textsLe as cs := by
  induction as generalizing bs cs with
  | nil => rfl
  | cons a as ih =>
    cases bs with
    | nil => cases hab
    | cons b bs =>
      cases cs with
      | nil => cases hbc
      | cons c cs =>
        rw [textsLe_cons_iff] at hab hbc ⊢
        rcases hab with hab | ⟨rfl, hab⟩
        · rcases hbc with hbc | ⟨rfl, -⟩
          · exact .inl (hab.trans hbc)
          · exact .inl hab
        · rcases hbc with hbc | ⟨rfl, hbc⟩
          · exact .inl hbc
          · exact .inr ⟨rfl, ih bs cs hab hbc⟩

theorem textsLe_refl (as : List String) : textsLe as as := by
  rcases Bool.or_eq_true_iff.mp (textsLe_total as as) with h | h <;> exact h

theorem textsLe_antisymm (as bs : List String) (hab : textsLe as bs) (hba : textsLe bs as) :
    as = bs := by
  induction as generalizing bs with
  | nil =>
    cases bs with
    | nil => rfl
    | cons b bs => cases hba
  | cons a as ih =>
    cases bs with
    | nil => cases hab
    | cons b bs =>
      rw [textsLe_cons_iff] at hab hba
      rcases hab with hab | ⟨rfl, hab⟩
      · rcases hba with hba | ⟨rfl, -⟩
        · exact absurd hab (lt_asymm hba)
        · exact absurd hab (lt_irrefl _)
      · rcases hba with hba | ⟨-, hba⟩
        · exact absurd hba (lt_irrefl _)
        · rw [ih bs hab hba]

/-! ## Sorted violations -/

theorem sorted_eq (violations : List Violation) :
    sorted violations =
      NumericActions.sorted (fun a b => textsLe a.placeTexts b.placeTexts) violations := by
  unfold sorted
  dsimp only
  rw [sorted_map, List.map_map]
  exact List.map_id _

theorem perm_sorted (violations : List Violation) : (sorted violations).Perm violations := by
  rw [sorted_eq]
  exact sorted_perm _ violations

theorem pairwise_sorted (violations : List Violation) :
    (sorted violations).Pairwise fun a b => textsLe a.placeTexts b.placeTexts = true := by
  rw [sorted_eq]
  apply NumericActions.pairwise_sorted
  · intro a b
    exact textsLe_total _ _
  · intro a b c
    exact textsLe_trans _ _ _

/-! ## Violations at a place -/

/-- The violations at a place, in their order. -/
def atPlace (steps : List PathStep) (violations : List Violation) : List Violation :=
  violations.filter fun violation => violation.steps = steps

theorem atPlace_sorted (steps : List PathStep) (violations : List Violation) :
    atPlace steps (sorted violations) = atPlace steps violations := by
  unfold atPlace
  rw [sorted_eq]
  apply filter_sorted
  intro a _ b _ ha hb
  rw [decide_eq_true_eq] at ha hb
  rw [placeTexts, placeTexts, ha, hb]
  exact textsLe_refl _

@[simp] theorem atPlace_nil (steps : List PathStep) : atPlace steps [] = [] := rfl

@[simp] theorem atPlace_append (steps : List PathStep) (vs ws : List Violation) :
    atPlace steps (vs ++ ws) = atPlace steps vs ++ atPlace steps ws :=
  List.filter_append vs ws

/-- Violations of a value by itself are all at its own place. -/
theorem atPlace_of_steps_eq_nil {violations : List Violation}
    (h : ∀ violation ∈ violations, violation.steps = []) (steps : List PathStep) :
    atPlace steps violations = if steps = [] then violations else [] := by
  unfold atPlace
  split
  · rename_i hsteps
    refine List.filter_eq_self.mpr fun violation hm => ?_
    rw [h violation hm, hsteps, decide_eq_true rfl]
  · rename_i hsteps
    refine List.filter_eq_nil_iff.mpr fun violation hm => ?_
    rw [h violation hm]
    simpa using Ne.symm hsteps

/-- A violation that is seen from outside has the step to it in front of its place. -/
theorem atPlace_behind (step : PathStep) (steps : List PathStep) (violations : List Violation) :
    atPlace steps (violations.map (behind step)) =
      match steps with
      | [] => []
      | first :: rest =>
        if first = step then (atPlace rest violations).map (behind step) else [] := by
  unfold atPlace
  rw [List.filter_map]
  cases steps with
  | nil => simp [behind, Function.comp_def]
  | cons first rest =>
    dsimp only
    split
    · rename_i h
      simp [behind, Function.comp_def, h]
    · rename_i h
      simp [behind, Function.comp_def, Ne.symm h]

/-- Which violations the items of an array have at an index from `start` on. -/
theorem atPlace_itemViolations (check : Value → List Violation) (start : Nat)
    (vs : List Value) (steps : List PathStep) :
    atPlace steps (itemViolations check start vs) =
      match steps with
      | .index i :: rest =>
        if start ≤ i then
          (vs[i - start]?.elim [] fun v => atPlace rest (check v)).map (behind (.index i))
        else []
      | _ => [] := by
  induction vs generalizing start with
  | nil =>
    rw [itemViolations]
    split
    · simp
    · rfl
  | cons v vs ih =>
    rw [itemViolations, atPlace_append, atPlace_behind, ih]
    match steps with
    | [] => rfl
    | .key name :: rest => rfl
    | .index i :: rest =>
      dsimp only
      by_cases hi : i = start
      · subst hi
        simp
      · by_cases hlt : start ≤ i
        · have hsub : i - start = i - (start + 1) + 1 := by omega
          rw [if_neg (by simpa using hi), if_pos (by omega), if_pos hlt, hsub]
          rfl
        · rw [if_neg (by simpa using hi), if_neg (by omega), if_neg hlt]
          rfl

end Violation

end NumericActions
