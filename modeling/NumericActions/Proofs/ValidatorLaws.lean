import NumericActions.Contract.Validator
import NumericActions.Proofs.References
import NumericActions.Proofs.ViolationOrder

/-!
# Lawful validators

The laws of a validator say what each keyword finds. Together they determine what is found for
a contract: every lawful validator finds the violations of the contract, or it is broken off
behind some of them. The evaluation of schemas is a lawful validator, with and without a bound
on the depth of values.

* `Validator.Lawful.finds_of_parts`: one schema, given what is found for its parts.
* `Validator.Lawful.finds_schema`, `Validator.Lawful.finds_contract`: all of a schema, and the
  contracts.
* `Validator.evaluator_lawful`: the evaluation of schemas obeys the laws.
-/

namespace NumericActions

variable {ε : Type}

/-! ## Scans -/

namespace Scan

variable {scan : Scan ε} {reached : Prop} {violations : List Violation}

theorem Lists.completed_of_reached (h : scan.Lists reached violations) (hreached : reached) :
    scan.completed = .ok violations := by
  cases h with
  | ended => rfl
  | brokenOff breakdown out => exact absurd hreached out

theorem Lists.of_completed (h : scan.Lists reached violations) {found : List Violation}
    (hcompleted : scan.completed = .ok found) : scan = ⟨violations, none⟩ ∧ found = violations := by
  cases h with
  | ended =>
    cases hcompleted
    exact ⟨rfl, rfl⟩
  | brokenOff => cases hcompleted

theorem Lists.of_breakdown (h : scan.Lists reached violations) {breakdown : ε}
    (hcompleted : scan.completed = .error breakdown) :
    ∃ found, scan = ⟨found, some breakdown⟩ ∧ found <+: violations := by
  cases h with
  | ended => cases hcompleted
  | brokenOff other out begins =>
    cases hcompleted
    exact ⟨_, rfl, begins⟩

end Scan

namespace Validator

variable {V : Validator ε} {reach : Contract → Schema → Value → Prop} {contract : Contract}
  {resolve : String → Value → List Violation}

/-! ## One schema -/

/-- What is found for the schemas that a keyword refers to or holds is what references and these
schemas mean, in the value or in its parts. -/
def PartsFound (V : Validator ε) (reach : Contract → Schema → Value → Prop) (contract : Contract)
    (resolve : String → Value → List Violation) (value : Value) : Keyword → Prop
  | .reference name => ∃ part, contract.schema.definitions.lookup name = some part ∧
      V.Finds reach contract part value (resolve name value)
  | .oneOf parts => ∀ part ∈ parts,
      V.Finds reach contract part value (Schema.violations resolve part value)
  | .items part => ∀ values, value = .list values → ∀ v ∈ values,
      V.Finds reach contract part v (Schema.violations resolve part v)
  | .properties parts => ∀ entries, value = .dict entries → ∀ part ∈ parts, ∀ v,
      entries.lookup part.1 = some v →
        V.Finds reach contract part.2 v (Schema.violations resolve part.2 v)
  | _ => True

theorem Lawful.keywordFinds_of_parts (h : V.Lawful reach) {schema : Schema} {value : Value}
    {keyword : Keyword} (hk : keyword ∈ schema)
    (hparts : V.PartsFound reach contract resolve value keyword) :
    V.KeywordFinds reach contract schema value keyword
      (keyword.violations resolve schema.propertyKeys value) := by
  cases keyword with
  | remark key remark =>
    rw [Keyword.violations]
    exact h.ignored hk rfl
  | definitions entries =>
    rw [Keyword.violations]
    exact h.ignored hk rfl
  | type t =>
    rw [Keyword.violations]
    exact h.type hk
  | required keys =>
    cases value with
    | dict entries => exact h.required hk
    | _ => exact h.ignored hk rfl
  | closed =>
    cases value with
    | dict entries => exact h.closed hk
    | _ => exact h.ignored hk rfl
  | properties parts =>
    cases value with
    | dict entries =>
      simp only [Keyword.violations, Keyword.propertyViolations_eq]
      exact h.properties hk fun part hpart v hv => hparts entries rfl part hpart v hv
    | _ => exact h.ignored hk rfl
  | items part =>
    cases value with
    | list values => exact h.items hk fun v hv => hparts values rfl v hv
    | _ => exact h.ignored hk rfl
  | oneOf parts =>
    simp only [Keyword.violations, Keyword.choiceOutcomes_eq]
    exact h.oneOf hk hparts
  | reference name =>
    obtain ⟨part, hlookup, hpart⟩ := hparts
    rw [Keyword.violations]
    exact h.reference hk hlookup hpart
  | pattern p =>
    cases value with
    | text text => exact h.pattern hk
    | _ => exact h.ignored hk rfl
  | minimum bound =>
    cases value with
    | number n => exact h.minimum hk
    | _ => exact h.ignored hk rfl
  | options texts =>
    rw [Keyword.violations]
    exact h.options hk

theorem Lawful.finds_of_parts (h : V.Lawful reach) {schema : Schema} {value : Value}
    (hparts : ∀ keyword ∈ schema, V.PartsFound reach contract resolve value keyword) :
    V.Finds reach contract schema value (schema.violations resolve value) := by
  unfold Schema.violations
  rw [Keyword.allViolations_eq]
  exact h.schema fun keyword hk => h.keywordFinds_of_parts hk (hparts keyword hk)

/-! ## All of a schema -/

/-- A schema finds what it means, if the names that it refers to are defined and their
definitions find what they mean. -/
theorem Lawful.finds_schema (h : V.Lawful reach) (schema : Schema)
    (hreferences : ∀ name ∈ schema.references, ∃ part,
      contract.schema.definitions.lookup name = some part ∧
        ∀ value, V.Finds reach contract part value (resolve name value)) (value : Value) :
    V.Finds reach contract schema value (schema.violations resolve value) := by
  have hpart : ∀ keyword ∈ schema, ∀ part : Schema, sizeOf part < sizeOf keyword →
      (∀ name ∈ part.references, name ∈ keyword.references) → ∀ v,
        V.Finds reach contract part v (part.violations resolve v) := by
    intro keyword hk part hsize hnames v
    have hless := List.sizeOf_lt_of_mem hk
    exact h.finds_schema part
      (fun name hname => hreferences name (Schema.mem_references hk (hnames name hname))) v
  refine h.finds_of_parts fun keyword hk => ?_
  cases keyword with
  | reference name =>
    obtain ⟨part, hlookup, hfinds⟩ :=
      hreferences name (Schema.mem_references hk (List.mem_singleton_self name))
    exact ⟨part, hlookup, hfinds value⟩
  | oneOf parts =>
    intro part hp
    have hless := List.sizeOf_lt_of_mem hp
    refine hpart _ hk part ?_ (fun name hname => Schema.mem_choiceReferences hp hname) value
    rw [Keyword.oneOf.sizeOf_spec]
    omega
  | items part =>
    intro values _ v _
    exact hpart _ hk part (by simp) (fun name hname => hname) v
  | properties parts =>
    intro entries _ part hp v _
    have hless := List.sizeOf_lt_of_mem hp
    refine hpart _ hk part.2 ?_ (fun name hname => Schema.mem_entryReferences hp hname) v
    obtain ⟨key, schema⟩ := part
    rw [Prod.mk.sizeOf_spec] at hless
    rw [Keyword.properties.sizeOf_spec]
    show sizeOf schema < _
    omega
  | _ => trivial
termination_by sizeOf schema

/-! ## The contracts -/

/-- The schema of a term refers to itself for the items of a list, so this is by recursion on
the value. -/
theorem Lawful.finds_term (h : V.Lawful reach)
    (hterm : contract.schema.definitions.lookup "term" = some Contract.termDefinition.2)
    (value : Value) :
    V.Finds reach contract Contract.termDefinition.2 value (Contract.termViolations value) := by
  have hitem : ∀ values, value = .list values → ∀ v ∈ values,
      V.Finds reach contract [.reference "term"] v
        (Schema.violations (fun _ => Contract.termViolations) [.reference "term"] v) := by
    intro values hvalue v hv
    refine h.finds_of_parts (List.forall_mem_singleton.mpr ?_)
    exact ⟨_, hterm, h.finds_term hterm v⟩
  have harray : V.Finds reach contract [.type .array, .items [.reference "term"]] value
      (Schema.violations (fun _ => Contract.termViolations)
        [.type .array, .items [.reference "term"]] value) :=
    h.finds_of_parts (List.forall_mem_cons.mpr ⟨trivial, List.forall_mem_singleton.mpr hitem⟩)
  have hnumber : V.Finds reach contract [.type .number] value
      (Schema.violations (fun _ => Contract.termViolations) [.type .number] value) :=
    h.finds_of_parts (List.forall_mem_singleton.mpr trivial)
  rw [← Contract.violations_termDefinition_eq (fun _ => Contract.termViolations) value
    fun _ _ _ _ => rfl]
  refine h.finds_of_parts (List.forall_mem_singleton.mpr ?_)
  exact List.forall_mem_cons.mpr ⟨hnumber, List.forall_mem_singleton.mpr harray⟩
termination_by value.depth
decreasing_by
  rw [hvalue]
  exact Value.depth_lt_of_mem hv

/-- Every lawful validator finds the violations of a contract. -/
theorem Lawful.finds_contract (h : V.Lawful reach) (contract : Contract) (value : Value) :
    V.Finds reach contract contract.schema value (contract.violations value) := by
  rw [Contract.violations_eq]
  refine h.finds_schema contract.schema (fun name hname => ?_) value
  obtain ⟨part, hlookup⟩ := Contract.exists_of_mem_references hname
  obtain ⟨-, rfl, rfl⟩ := Contract.definitions_lookup_eq_some hlookup
  refine ⟨_, hlookup, fun v => ?_⟩
  unfold Contract.meaning
  rw [hlookup]
  exact h.finds_term hlookup v

end Validator

/-! ## Reports -/

namespace Contract

variable {V : Validator ε} {reach : Contract → Schema → Value → Prop} {contract : Contract}
  {value : Value} {texts : List String} {breakdown : ε}

/-- Within the reach of a validator a report is complete. -/
theorem exists_report (h : V.Lawful reach) (hreach : reach contract contract.schema value) :
    ∃ texts, contract.reportBy V value = .ok texts := by
  unfold reportBy
  rw [(h.finds_contract contract value).completed_of_reached hreach]
  exact ⟨_, rfl⟩

theorem errors_of_reportBy (h : V.Lawful reach) (hreport : contract.reportBy V value = .ok texts) :
    V.errors contract.schema contract.schema value = ⟨contract.violations value, none⟩ ∧
      texts = (Violation.sorted (contract.violations value)).map V.text := by
  unfold reportBy at hreport
  cases hscan : (V.errors contract.schema contract.schema value).completed with
  | error b =>
    rw [hscan] at hreport
    cases hreport
  | ok found =>
    rw [hscan] at hreport
    cases hreport
    obtain ⟨herrors, rfl⟩ := (h.finds_contract contract value).of_completed hscan
    exact ⟨herrors, rfl⟩

theorem errors_of_breakdown (h : V.Lawful reach)
    (hreport : contract.reportBy V value = .error breakdown) :
    ∃ found, V.errors contract.schema contract.schema value = ⟨found, some breakdown⟩ ∧
      found <+: contract.violations value := by
  unfold reportBy at hreport
  cases hscan : (V.errors contract.schema contract.schema value).completed with
  | error b =>
    rw [hscan] at hreport
    cases hreport
    exact (h.finds_contract contract value).of_breakdown hscan
  | ok found =>
    rw [hscan] at hreport
    cases hreport

theorem eq_nil_iff_of_reportBy (h : V.Lawful reach)
    (hreport : contract.reportBy V value = .ok texts) :
    texts = [] ↔ contract.violations value = [] := by
  rw [(errors_of_reportBy h hreport).2, List.map_eq_nil_iff, ← List.perm_nil, ← List.perm_nil]
  exact ⟨(Violation.perm_sorted _).symm.trans, (Violation.perm_sorted _).trans⟩

theorem checkBy_of_reportBy_nil (h : V.Lawful reach)
    (hreport : contract.reportBy V value = .ok []) : contract.checkBy V value = .ok (.ok ()) := by
  rw [checkBy, h.validate, (errors_of_reportBy h hreport).1,
    (eq_nil_iff_of_reportBy h hreport).mp rfl]
  rfl

/-- The first violation is one of those in the report. -/
theorem exists_of_reportBy (h : V.Lawful reach)
    (hreport : contract.reportBy V value = .ok texts) (hne : texts ≠ []) :
    ∃ violation, contract.checkBy V value = .ok (.error violation) ∧
      V.text violation ∈ texts := by
  obtain ⟨herrors, htexts⟩ := errors_of_reportBy h hreport
  rw [ne_eq, eq_nil_iff_of_reportBy h hreport] at hne
  obtain ⟨violation, rest, hviolations⟩ := List.exists_cons_of_ne_nil hne
  rw [hviolations] at herrors htexts
  refine ⟨violation, ?_, ?_⟩
  · rw [checkBy, h.validate, herrors]
    rfl
  · rw [htexts]
    refine List.mem_map_of_mem ((Violation.perm_sorted _).mem_iff.mpr ?_)
    exact List.mem_cons_self

/-- A validator that is broken off has found the first violation by then, or nothing. -/
theorem checkBy_of_breakdown (h : V.Lawful reach)
    (hreport : contract.reportBy V value = .error breakdown) :
    contract.checkBy V value = .error breakdown ∨
      ∃ violation, (contract.violations value).head? = some violation ∧
        contract.checkBy V value = .ok (.error violation) := by
  obtain ⟨found, herrors, begins⟩ := errors_of_breakdown h hreport
  rw [checkBy, h.validate, herrors]
  cases found with
  | nil => exact .inl rfl
  | cons violation found =>
    obtain ⟨rest, hrest⟩ := begins
    exact .inr ⟨violation, by rw [← hrest]; rfl, rfl⟩

theorem text_eq (h : V.Lawful reach) {violation : Violation}
    (hplain : ∀ step ∈ violation.steps, step.IsPlain) :
    V.text violation = violation.path ++ ": " ++ V.message violation := by
  rw [Validator.text, h.path hplain]
  rfl

end Contract

/-! ## The evaluation of schemas -/

namespace Scan

variable {breakdown : Option ε} {violations listed : List Violation}

theorem lists_guarded (h : breakdown = none → violations = listed) :
    (guarded breakdown violations).Lists (breakdown = none) listed := by
  cases breakdown with
  | none =>
    obtain rfl := h rfl
    exact .ended
  | some b => exact .brokenOff b nofun (List.nil_prefix)

theorem eq_of_lists_guarded (h : (guarded breakdown violations).Lists (breakdown = none) listed)
    (hnone : breakdown = none) : violations = listed := by
  subst hnone
  cases h
  rfl

end Scan

namespace Validator

variable {refusal : Nat → Option ε}

/-- The values that an evaluator does not refuse. -/
def Admits (refusal : Nat → Option ε) (_ : Contract) (_ : Schema) (value : Value) : Prop :=
  refusal value.depth = none

section

variable {contract : Contract} {schema : Schema} {value : Value} {listed : List Violation}

theorem keywordFinds_evaluator {keyword : Keyword}
    (h : refusal value.depth = none →
      keyword.violations contract.meaning schema.propertyKeys value = listed) :
    (evaluator refusal).KeywordFinds (Admits refusal) contract schema value keyword listed := by
  have hmeaning := contract.keywordViolations_meaning keyword schema.propertyKeys
    (Nat.lt_succ_self value.depth)
  exact Scan.lists_guarded fun hadmits => hmeaning.trans (h hadmits)

/-- What the evaluation of a keyword finds in a value that is not refused. -/
theorem eq_of_keywordFinds_evaluator {keyword : Keyword} (hadmits : refusal value.depth = none)
    (h : (evaluator refusal).KeywordFinds (Admits refusal) contract schema value keyword
      listed) :
    keyword.violations contract.meaning schema.propertyKeys value = listed := by
  rw [← contract.keywordViolations_meaning keyword _ (Nat.lt_succ_self _)]
  exact Scan.eq_of_lists_guarded h hadmits

theorem eq_of_finds_evaluator (hadmits : refusal value.depth = none)
    (h : (evaluator refusal).Finds (Admits refusal) contract schema value listed) :
    schema.violations contract.meaning value = listed := by
  rw [← contract.violations_meaning schema (Nat.lt_succ_self _)]
  exact Scan.eq_of_lists_guarded h hadmits

end

/-- The evaluation of schemas obeys the laws of a validator, if it admits with a value all that
are less deep. -/
theorem evaluator_lawful (h : ∀ m n, m ≤ n → refusal n = none → refusal m = none) :
    (evaluator refusal).Lawful (Admits refusal) where
  schema := by
    intro contract schema value found hfound
    refine Scan.lists_guarded fun hadmits => ?_
    rw [contract.violations_meaning schema (Nat.lt_succ_self _), Schema.violations,
      Keyword.allViolations_eq]
    exact List.flatMap_congr fun keyword hk =>
      eq_of_keywordFinds_evaluator hadmits (hfound keyword hk)
  ignored := by
    intro contract schema value keyword hk hconcerns
    refine keywordFinds_evaluator fun _ => ?_
    cases keyword <;> cases value <;> first | rfl | cases hconcerns
  type := by
    intro contract schema value t hk
    refine keywordFinds_evaluator fun _ => ?_
    rw [Keyword.violations]
  required := by
    intro contract schema entries keys hk
    exact keywordFinds_evaluator fun _ => rfl
  closed := by
    intro contract schema entries hk
    exact keywordFinds_evaluator fun _ => rfl
  properties := by
    intro contract schema entries parts found hk hparts
    refine keywordFinds_evaluator fun hadmits => ?_
    simp only [Keyword.violations, Keyword.propertyViolations_eq]
    refine List.flatMap_congr fun part hpart => entryViolations_congr fun v hv => ?_
    have hdepth := Nat.le_of_lt (Value.depth_lt_of_lookup hv)
    exact eq_of_finds_evaluator (h _ _ hdepth hadmits) (hparts part hpart v hv)
  items := by
    intro contract schema values part found hk hitems
    refine keywordFinds_evaluator fun hadmits => ?_
    simp only [Keyword.violations]
    refine itemViolations_congr 0 fun v hv => ?_
    have hdepth := Nat.le_of_lt (Value.depth_lt_of_mem hv)
    exact eq_of_finds_evaluator (h _ _ hdepth hadmits) (hitems v hv)
  oneOf := by
    intro contract schema value parts found hk hparts
    refine keywordFinds_evaluator fun hadmits => ?_
    simp only [Keyword.violations, Keyword.choiceOutcomes_eq]
    refine congrArg _ (List.map_congr_left fun part hpart => ?_)
    rw [eq_of_finds_evaluator hadmits (hparts part hpart)]
  reference := by
    intro contract schema value name part found hk hlookup hpart
    refine keywordFinds_evaluator fun hadmits => ?_
    rw [Keyword.violations, ← eq_of_finds_evaluator hadmits hpart, Contract.meaning, hlookup]
    obtain ⟨-, rfl, rfl⟩ := Contract.definitions_lookup_eq_some hlookup
    refine (Contract.violations_termDefinition_eq _ _ fun _ _ w _ => ?_).symm
    rw [Contract.meaning, hlookup]
  pattern := by
    intro contract schema text p hk
    exact keywordFinds_evaluator fun _ => rfl
  minimum := by
    intro contract schema n bound hk
    exact keywordFinds_evaluator fun _ => rfl
  options := by
    intro contract schema value texts hk
    refine keywordFinds_evaluator fun _ => ?_
    rw [Keyword.violations]
  validate := rfl
  path := fun _ => rfl

theorem standard_lawful : standard.Lawful fun _ _ _ => True := by
  have hadmits : Admits (fun _ => (none : Option Empty)) = fun _ _ _ => True := by
    funext contract schema value
    exact eq_true rfl
  exact hadmits ▸ evaluator_lawful fun _ _ _ _ => rfl

/-- Up to the limit nothing is refused. -/
theorem upTo_lawful (limit : Nat) (breakdown : ε) :
    (upTo limit breakdown).Lawful fun _ _ value => value.depth ≤ limit := by
  have hrefusal : ∀ depth, (if limit < depth then some breakdown else none) = none ↔
      depth ≤ limit := by simp
  have hadmits : Admits (fun depth => if limit < depth then some breakdown else none) =
      fun _ _ value => value.depth ≤ limit := by
    funext contract schema value
    exact propext (hrefusal value.depth)
  refine hadmits ▸ evaluator_lawful fun m n hle hn => ?_
  rw [hrefusal] at hn ⊢
  exact Nat.le_trans hle hn

theorem errors_upTo_of_lt {limit : Nat} {value : Value} (h : limit < value.depth)
    (root schema : Schema) (breakdown : ε) :
    (upTo limit breakdown).errors root schema value = ⟨[], some breakdown⟩ := by
  show Scan.guarded (if limit < value.depth then some breakdown else none) _ = _
  rw [if_pos h]
  rfl

end Validator

end NumericActions
