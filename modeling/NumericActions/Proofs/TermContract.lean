import NumericActions.Contract.Basic
import NumericActions.Term.Leaves

/-!
# The contract of terms

The schema of a term refers to itself behind the items of an array. However deep a value
is, it has exactly one violation of that schema when it is no term, and none when it is one.

* `Value.IsTerm`: numbers, and lists of terms.
* `Contract.termViolations`: none for a term, and one for everything else.
* `Contract.resolveIn_term`: the violations of the schema, as often as references are
  followed in a value of some depth.
* `Value.IsTerm.foreign_leaves`: a term has no foreign leaf.
-/

namespace NumericActions

/-! ## Terms -/

/-- A number, or a list of terms. -/
inductive Value.IsTerm : Value → Prop where
  | number (n : Number) : IsTerm (.number n)
  | list {items : List Value} (terms : ∀ v ∈ items, IsTerm v) : IsTerm (.list items)

namespace Value

theorem isTerm_list_iff {items : List Value} : (list items).IsTerm ↔ ∀ v ∈ items, v.IsTerm := by
  constructor
  · intro h
    cases h with
    | list terms => exact terms
  · exact .list

mutual

/-- Decides whether a value is a term. -/
def isTerm : Value → Bool
  | .number _ => true
  | .list items => areTerms items
  | _ => false

def areTerms : List Value → Bool
  | [] => true
  | v :: vs => v.isTerm && areTerms vs

end

mutual

theorem isTerm_iff : (v : Value) → (v.isTerm = true ↔ v.IsTerm)
  | .number n => by simp [isTerm, IsTerm.number n]
  | .list items => by rw [isTerm, isTerm_list_iff, areTerms_iff items]
  | .bool _ | .null | .text _ | .bytes _ | .tuple _ | .dict _ => by
    constructor
    · intro h
      simp [isTerm] at h
    · intro h
      cases h

theorem areTerms_iff : (vs : List Value) → (areTerms vs = true ↔ ∀ v ∈ vs, v.IsTerm)
  | [] => by simp [areTerms]
  | v :: vs => by
    rw [areTerms, Bool.and_eq_true, isTerm_iff v, areTerms_iff vs, List.forall_mem_cons]

end

instance : DecidablePred IsTerm := fun v => decidable_of_iff _ (isTerm_iff v)

/-! ## Leaves -/

theorem foreign_leavesOfAll {vs : List Value} (h : ∀ v ∈ vs, v.leaves.foreign = none) :
    (leavesOfAll vs).foreign = none := by
  induction vs with
  | nil => rfl
  | cons v vs ih =>
    obtain ⟨hv, hvs⟩ := List.forall_mem_cons.mp h
    simp only [leavesOfAll, Leaves.append_def, Leaves.append, hv, ih hvs]

theorem IsTerm.foreign_leaves {v : Value} (h : v.IsTerm) : v.leaves.foreign = none := by
  induction h with
  | number n => rfl
  | list _ ih => exact foreign_leavesOfAll ih

/-! ## Depth -/

theorem depth_le_depths {v : Value} {vs : List Value} (h : v ∈ vs) : v.depth ≤ depths vs := by
  induction vs with
  | nil => cases h
  | cons w ws ih =>
    rw [depths]
    rcases List.mem_cons.mp h with rfl | h
    · exact Nat.le_max_left _ _
    · exact Nat.le_trans (ih h) (Nat.le_max_right _ _)

theorem depth_lt_of_mem {v : Value} {items : List Value} (h : v ∈ items) :
    v.depth < (list items).depth := by
  have := depth_le_depths h
  rw [depth]
  omega

theorem depth_lt_of_lookup {entries : List (String × Value)} {key : String} {v : Value}
    (h : entries.lookup key = some v) : v.depth < (dict entries).depth := by
  have hle : v.depth ≤ entryDepths entries := by
    induction entries with
    | nil => cases h
    | cons entry rest ih =>
      rw [List.lookup_cons] at h
      rw [entryDepths]
      split at h
      · cases h
        exact Nat.le_max_left _ _
      · exact Nat.le_trans (ih h) (Nat.le_max_right _ _)
  rw [depth]
  omega

end Value

/-! ## Violations -/

theorem itemViolations_eq_nil_iff {check : Value → List Violation} (index : Nat)
    {vs : List Value} : itemViolations check index vs = [] ↔ ∀ v ∈ vs, check v = [] := by
  induction vs generalizing index with
  | nil => simp [itemViolations]
  | cons v vs ih => simp [itemViolations, ih]

namespace Contract

/-- The violation of a value that should be a term. -/
def termViolations (v : Value) : List Violation :=
  if v.IsTerm then [] else [⟨[], v, .noneOf⟩]

theorem termViolations_eq_nil_iff {v : Value} : termViolations v = [] ↔ v.IsTerm := by
  unfold termViolations
  split <;> simp_all

/-- What the schema of a term finds in a value when references have some meaning. -/
theorem violations_termDefinition (resolve : String → Value → List Violation) (v : Value) :
    Schema.violations resolve termDefinition.2 v =
      match v with
      | .number _ => []
      | .list items =>
        if itemViolations (resolve "term") 0 items = [] then [] else [⟨[], v, .noneOf⟩]
      | _ => [⟨[], v, .noneOf⟩] := by
  cases v with
  | list items =>
    cases hitems : itemViolations (resolve "term") 0 items <;>
      simp [hitems, termDefinition, Schema.violations, Keyword.allViolations, Keyword.violations,
        Keyword.choiceOutcomes, choiceViolations, violationUnless, SchemaType.holds]
  | _ =>
    simp [termDefinition, Schema.violations, Keyword.allViolations, Keyword.violations,
      Keyword.choiceOutcomes, choiceViolations, violationUnless, SchemaType.holds]

/-- What the schema of a term finds when it finds the violations of terms behind the items. -/
theorem violations_termDefinition_eq (resolve : String → Value → List Violation) (v : Value)
    (h : ∀ items, v = .list items → ∀ w ∈ items, resolve "term" w = termViolations w) :
    Schema.violations resolve termDefinition.2 v = termViolations v := by
  rw [violations_termDefinition, termViolations]
  cases v with
  | number n => rw [if_pos (Value.IsTerm.number n)]
  | list items =>
    have hitems : itemViolations (resolve "term") 0 items = [] ↔ (Value.list items).IsTerm := by
      rw [itemViolations_eq_nil_iff, Value.isTerm_list_iff]
      refine forall₂_congr fun w hw => ?_
      rw [h items rfl w hw, termViolations_eq_nil_iff]
    simp only [hitems]
  | _ =>
    rw [if_neg]
    rintro ⟨⟩

/-- When references are followed as often as a value is deep, the schema of a term finds no
violation in a term, and one in everything else. -/
theorem resolveIn_term {bound : Nat} {v : Value} (h : v.depth < bound) :
    Schema.resolveIn [termDefinition] bound "term" v = termViolations v := by
  induction bound generalizing v with
  | zero => exact absurd h (Nat.not_lt_zero _)
  | succ bound ih =>
    have hlookup : [termDefinition].lookup "term" = some termDefinition.2 := rfl
    rw [Schema.resolveIn, hlookup]
    refine violations_termDefinition_eq _ v fun items hv w hw => ih ?_
    subst hv
    have := Value.depth_lt_of_mem hw
    omega

end Contract

end NumericActions
