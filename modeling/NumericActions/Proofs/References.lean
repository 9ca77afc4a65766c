import Mathlib.Data.List.Basic
import NumericActions.Proofs.TermContract

/-!
# What references mean

References are followed as often as a value is deep. In the contracts this is often enough, so
what a schema finds does not depend on the bound: a reference means the violations of a term.

* `Keyword.violations_congr`: a keyword asks for the meaning of references in parts of a value
  only.
* `Schema.references`: the names that a schema refers to.
* `Contract.meaning`, `Contract.resolveIn_eq`: the meaning of references, without a bound.
* `Contract.violations_eq`: the violations of a contract by this meaning.
-/

namespace NumericActions

/-! ## Keywords one by one -/

theorem itemViolations_congr {f g : Value → List Violation} (index : Nat) {vs : List Value}
    (h : ∀ v ∈ vs, f v = g v) : itemViolations f index vs = itemViolations g index vs := by
  induction vs generalizing index with
  | nil => rfl
  | cons v vs ih =>
    obtain ⟨hv, hvs⟩ := List.forall_mem_cons.mp h
    rw [itemViolations, itemViolations, hv, ih _ hvs]

theorem entryViolations_congr {entries : List (String × Value)} {key : String}
    {f g : Value → List Violation} (h : ∀ v, entries.lookup key = some v → f v = g v) :
    entryViolations entries key f = entryViolations entries key g := by
  unfold entryViolations
  cases hlookup : entries.lookup key with
  | none => rfl
  | some v => rw [Option.elim_some, Option.elim_some, h v hlookup]

namespace Keyword

variable (resolve : String → Value → List Violation)

theorem allViolations_eq (known : List String) (value : Value) (schema : Schema) :
    allViolations resolve known value schema =
      schema.flatMap fun keyword => keyword.violations resolve known value := by
  induction schema with
  | nil => rw [allViolations, List.flatMap_nil]
  | cons keyword schema ih => rw [allViolations, List.flatMap_cons, ih]

theorem propertyViolations_eq (entries : List (String × Value)) (parts : List (String × Schema)) :
    propertyViolations resolve entries parts =
      parts.flatMap fun part =>
        entryViolations entries part.1 fun value => part.2.violations resolve value := by
  induction parts with
  | nil => rw [propertyViolations, List.flatMap_nil]
  | cons part parts ih =>
    obtain ⟨key, schema⟩ := part
    rw [propertyViolations, List.flatMap_cons, ih]
    rfl

theorem choiceOutcomes_eq (value : Value) (parts : List Schema) :
    choiceOutcomes resolve value parts =
      parts.map fun part => (part.toValue, part.violations resolve value) := by
  induction parts with
  | nil => rw [choiceOutcomes, List.map_nil]
  | cons part parts ih =>
    rw [choiceOutcomes, List.map_cons, ih]
    rfl

end Keyword

/-- A keyword asks for the meaning of references in the value and in its parts only. -/
theorem Keyword.violations_congr {resolve resolve' : String → Value → List Violation}
    (known : List String) (value : Value) (keyword : Keyword)
    (h : ∀ name v, v.depth ≤ value.depth → resolve name v = resolve' name v) :
    keyword.violations resolve known value = keyword.violations resolve' known value := by
  have hschema : ∀ (schema : Schema), sizeOf schema < sizeOf keyword →
      ∀ v : Value, v.depth ≤ value.depth →
        schema.violations resolve v = schema.violations resolve' v := by
    intro schema hsize v hv
    unfold Schema.violations
    rw [allViolations_eq, allViolations_eq]
    refine List.flatMap_congr fun inner hinner => ?_
    exact violations_congr _ v inner fun name w hw => h name w (Nat.le_trans hw hv)
  cases keyword with
  | items schema =>
    cases value with
    | list values =>
      simp only [violations]
      refine itemViolations_congr 0 fun v hv => ?_
      exact hschema schema (by simp) v (Nat.le_of_lt (Value.depth_lt_of_mem hv))
    | _ => simp only [violations]
  | properties parts =>
    cases value with
    | dict entries =>
      simp only [violations, propertyViolations_eq]
      refine List.flatMap_congr fun part hpart => entryViolations_congr fun v hv => ?_
      have hsize := List.sizeOf_lt_of_mem hpart
      obtain ⟨key, schema⟩ := part
      refine hschema schema ?_ v (Nat.le_of_lt (Value.depth_lt_of_lookup hv))
      simp only [properties.sizeOf_spec, Prod.mk.sizeOf_spec] at hsize ⊢
      omega
    | _ => simp only [violations]
  | oneOf parts =>
    simp only [violations, choiceOutcomes_eq]
    refine congrArg _ (List.map_congr_left fun part hpart => ?_)
    have hsize := List.sizeOf_lt_of_mem hpart
    rw [hschema part (by simp only [oneOf.sizeOf_spec]; omega) value (Nat.le_refl _)]
  | reference name =>
    simp only [violations]
    exact h name value (Nat.le_refl _)
  | _ => simp only [violations]
termination_by sizeOf keyword
decreasing_by
  have := List.sizeOf_lt_of_mem hinner
  omega

theorem Schema.violations_congr {resolve resolve' : String → Value → List Violation}
    (schema : Schema) (value : Value)
    (h : ∀ name v, v.depth ≤ value.depth → resolve name v = resolve' name v) :
    schema.violations resolve value = schema.violations resolve' value := by
  unfold Schema.violations
  rw [Keyword.allViolations_eq, Keyword.allViolations_eq]
  exact List.flatMap_congr fun keyword _ => keyword.violations_congr _ value h

/-! ## The names in a schema -/

mutual

/-- The names that a keyword refers to, also from within the schemas that it holds. -/
def Keyword.references : Keyword → List String
  | .reference name => [name]
  | .items schema => Keyword.allReferences schema
  | .oneOf schemas => Keyword.choiceReferences schemas
  | .properties entries => Keyword.entryReferences entries
  | _ => []

def Keyword.allReferences : List Keyword → List String
  | [] => []
  | keyword :: rest => keyword.references ++ Keyword.allReferences rest

def Keyword.choiceReferences : List (List Keyword) → List String
  | [] => []
  | schema :: rest => Keyword.allReferences schema ++ Keyword.choiceReferences rest

def Keyword.entryReferences : List (String × List Keyword) → List String
  | [] => []
  | (_, schema) :: rest => Keyword.allReferences schema ++ Keyword.entryReferences rest

end

namespace Schema

def references (schema : Schema) : List String := Keyword.allReferences schema

theorem mem_references {schema : Schema} {keyword : Keyword} (h : keyword ∈ schema)
    {name : String} (hname : name ∈ keyword.references) : name ∈ schema.references := by
  induction schema with
  | nil => cases h
  | cons first rest ih =>
    rw [references, Keyword.allReferences, List.mem_append]
    rcases List.mem_cons.mp h with rfl | h
    · exact .inl hname
    · exact .inr (ih h)

theorem mem_choiceReferences {parts : List Schema} {part : Schema} (h : part ∈ parts)
    {name : String} (hname : name ∈ part.references) :
    name ∈ Keyword.choiceReferences parts := by
  induction parts with
  | nil => cases h
  | cons first rest ih =>
    rw [Keyword.choiceReferences, List.mem_append]
    rcases List.mem_cons.mp h with rfl | h
    · exact .inl hname
    · exact .inr (ih h)

theorem mem_entryReferences {parts : List (String × Schema)} {part : String × Schema}
    (h : part ∈ parts) {name : String} (hname : name ∈ part.2.references) :
    name ∈ Keyword.entryReferences parts := by
  induction parts with
  | nil => cases h
  | cons first rest ih =>
    obtain ⟨key, schema⟩ := first
    rw [Keyword.entryReferences, List.mem_append]
    rcases List.mem_cons.mp h with rfl | h
    · exact .inl hname
    · exact .inr (ih h)

end Schema

/-! ## The contracts -/

namespace Contract

theorem definitions_lookup_eq_some {contract : Contract} {name : String} {part : Schema}
    (h : contract.schema.definitions.lookup name = some part) :
    contract.schema.definitions = [termDefinition] ∧ name = "term" ∧ part = termDefinition.2 := by
  have hdefinitions : contract.schema.definitions = [termDefinition] := by
    cases contract with
    | term => rfl
    | invocation => rfl
    | specification => cases h
  rw [hdefinitions] at h
  by_cases hname : name = "term"
  · subst hname
    cases h
    exact ⟨hdefinitions, rfl, rfl⟩
  · have hnone : [termDefinition].lookup name = none := by
      simp [termDefinition, hname]
    rw [hnone] at h
    cases h

/-- What a reference of a contract means. Terms are all that is defined. -/
def meaning (contract : Contract) (name : String) (v : Value) : List Violation :=
  match contract.schema.definitions.lookup name with
  | none => []
  | some _ => termViolations v

theorem resolveIn_eq (contract : Contract) {bound : Nat} (name : String) {v : Value}
    (h : v.depth < bound) :
    Schema.resolveIn contract.schema.definitions bound name v = contract.meaning name v := by
  obtain ⟨bound, rfl⟩ := Nat.exists_eq_succ_of_ne_zero (Nat.ne_zero_of_lt h)
  unfold meaning
  cases hlookup : contract.schema.definitions.lookup name with
  | none => rw [Schema.resolveIn, hlookup]
  | some part =>
    obtain ⟨hdefinitions, rfl, -⟩ := definitions_lookup_eq_some hlookup
    rw [hdefinitions]
    exact resolveIn_term h

/-- Every contract defines what it refers to. -/
theorem exists_of_mem_references {contract : Contract} {name : String}
    (h : name ∈ contract.schema.references) :
    ∃ part, contract.schema.definitions.lookup name = some part := by
  have hterms : ∀ name ∈ ["term"], ∃ part, [termDefinition].lookup name = some part :=
    List.forall_mem_singleton.mpr ⟨_, rfl⟩
  cases contract with
  | term => exact hterms name h
  | invocation => exact hterms name h
  | specification => cases h

theorem keywordViolations_meaning (contract : Contract) (keyword : Keyword) (known : List String)
    {bound : Nat} {v : Value} (h : v.depth < bound) :
    keyword.violations (Schema.resolveIn contract.schema.definitions bound) known v =
      keyword.violations contract.meaning known v :=
  keyword.violations_congr known v fun name _ hw =>
    contract.resolveIn_eq name (Nat.lt_of_le_of_lt hw h)

theorem violations_meaning (contract : Contract) {bound : Nat} (schema : Schema) {v : Value}
    (h : v.depth < bound) :
    schema.violations (Schema.resolveIn contract.schema.definitions bound) v =
      schema.violations contract.meaning v :=
  schema.violations_congr v fun name _ hw => contract.resolveIn_eq name (Nat.lt_of_le_of_lt hw h)

theorem violations_eq (contract : Contract) (v : Value) :
    contract.violations v = contract.schema.violations contract.meaning v :=
  contract.violations_meaning contract.schema (Nat.lt_succ_self _)

end Contract

end NumericActions
