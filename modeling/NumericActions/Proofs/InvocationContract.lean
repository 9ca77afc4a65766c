import NumericActions.Proofs.ValidatorLaws
import NumericActions.Proofs.ViolationOrder

/-!
# The contract of invocations

The contract is stated as a schema with keywords, references and choices. Its report says
the same as a description of the objects that state an invocation: it is empty for these,
and otherwise lists what is wrong with each key, once and in the order of the places.

* `InvocationEntries`: the entries of an object that states an invocation.
* `Contract.violations_dict`: the violations key by key.
* `Contract.ReportsInvocation`: what the report of an object consists of.
* `Contract.ReportsInvocation.unique`: there is one list only that consists of it.
* `Contract.report_invocation`: the report of every value.
-/

namespace NumericActions

/-! ## Objects that state an invocation -/

def invocationKeys : List String := ["action", "arguments", "parallel"]

structure InvocationEntries (entries : List (String × Value)) : Prop where
  keys : ∀ key ∈ entries.map (·.1), key ∈ invocationKeys
  action : ∃ name, entries.lookup "action" = some (.text name) ∧
    Contract.namePattern.occursIn name = true
  arguments : ∃ terms, entries.lookup "arguments" = some (.list terms) ∧ ∀ v ∈ terms, v.IsTerm
  parallel : ∀ v, entries.lookup "parallel" = some v → ∃ flag, v = .bool flag

/-- A value that obeys the contract of invocations. -/
def Value.IsInvocation : Value → Prop
  | .dict entries => InvocationEntries entries
  | _ => False

namespace Contract

open Violation (atPlace behind)

/-! ## Violations key by key -/

def nameViolations : Value → List Violation
  | .text name =>
    if namePattern.occursIn name then [] else [⟨[], .text name, .pattern namePattern⟩]
  | v => [⟨[], v, .type .string⟩]

def argumentsViolations : Value → List Violation
  | .list vs => itemViolations termViolations 0 vs
  | v => [⟨[], v, .type .array⟩]

def flagViolations : Value → List Violation
  | .bool _ => []
  | v => [⟨[], v, .type .boolean⟩]

/-- The keys that are missing, and all keys that are not expected together. -/
def keyViolations (entries : List (String × Value)) : List Violation :=
  let keys := entries.map (·.1)
  (["action", "arguments"].filter (· ∉ keys)).map
      (fun key => ⟨[], .dict entries, .required key⟩) ++
    match keys.filter (· ∉ invocationKeys) with
    | [] => []
    | unexpected => [⟨[], .dict entries, .unexpected unexpected⟩]

theorem violations_action (resolve : String → Value → List Violation) (v : Value)
    (description : Value) :
    Schema.violations resolve [.type .string, .pattern namePattern,
      .remark "description" description] v = nameViolations v := by
  cases v <;> simp [Schema.violations, Keyword.allViolations, Keyword.violations, nameViolations,
    violationUnless, SchemaType.holds]

theorem violations_arguments (v : Value) :
    Schema.violations invocation.meaning [.type .array, .items [.reference "term"]] v =
      argumentsViolations v := by
  have hmeaning : ∀ w, invocation.meaning "term" w = termViolations w := fun _ => rfl
  cases v <;> simp [Schema.violations, Keyword.allViolations, Keyword.violations,
    argumentsViolations, violationUnless, SchemaType.holds, hmeaning]

theorem violations_parallel (resolve : String → Value → List Violation) (v : Value)
    (standard description : Value) :
    Schema.violations resolve [.type .boolean, .remark "default" standard,
      .remark "description" description] v = flagViolations v := by
  cases v <;> simp [Schema.violations, Keyword.allViolations, Keyword.violations, flagViolations,
    violationUnless, SchemaType.holds]

/-- The keywords about the keys of an object. -/
theorem keyViolations_eq (entries : List (String × Value)) :
    (["action", "arguments"].filter fun key => !entries.any fun entry => entry.1 = key).map
        (fun key => ⟨[], .dict entries, .required key⟩) ++
      violationUnless
        ((entries.map (·.1)).filter fun key => !invocationKeys.contains key).isEmpty
        (.dict entries)
        (.unexpected ((entries.map (·.1)).filter fun key => !invocationKeys.contains key)) =
      keyViolations entries := by
  have hmissing : (["action", "arguments"].filter fun key =>
      !entries.any fun entry => entry.1 = key) =
        ["action", "arguments"].filter (· ∉ entries.map (·.1)) := by
    refine List.filter_congr fun key _ => ?_
    rw [Bool.eq_iff_iff]
    simp only [Bool.not_eq_true', List.any_eq_false, decide_eq_true_eq, List.mem_map, not_exists,
      not_and]
  have hunexpected : ((entries.map (·.1)).filter fun key => !invocationKeys.contains key) =
      (entries.map (·.1)).filter (· ∉ invocationKeys) := by
    refine List.filter_congr fun key _ => ?_
    rw [Bool.eq_iff_iff]
    simp
  rw [hmissing, hunexpected]
  unfold keyViolations
  dsimp only
  cases (entries.map (·.1)).filter (· ∉ invocationKeys) <;> rfl

theorem violations_dict (entries : List (String × Value)) :
    invocation.violations (.dict entries) =
      keyViolations entries ++ (entryViolations entries "action" nameViolations ++
        (entryViolations entries "arguments" argumentsViolations ++
          entryViolations entries "parallel" flagViolations)) := by
  have hkeys : invocationSchema.propertyKeys = invocationKeys := rfl
  have hobject : violationUnless (SchemaType.object.holds (.dict entries)) (.dict entries)
      (.type .object) = [] := rfl
  rw [violations_eq, schema, Schema.violations, hkeys]
  simp only [invocationSchema, header, List.cons_append, List.nil_append, Keyword.allViolations,
    Keyword.violations, Keyword.propertyViolations_eq, List.flatMap_cons, List.flatMap_nil,
    violations_action, violations_arguments, violations_parallel, hobject, List.append_nil]
  rw [← List.append_assoc, keyViolations_eq]

theorem violations_of_not_dict {value : Value} (h : ∀ entries, value ≠ .dict entries) :
    invocation.violations value = [⟨[], value, .type .object⟩] := by
  cases value with
  | dict entries => exact absurd rfl (h entries)
  | _ =>
    simp [Contract.violations, schema, Schema.validate, Schema.violations, invocationSchema,
      header, Keyword.allViolations, Keyword.violations, violationUnless, SchemaType.holds]

/-! ## The report of an object -/

/-- What a sorted list of violations of an object consists of. Together the fields determine
the list, because the places are listed in their order and every violation has one of these
places. -/
structure ReportsInvocation (entries : List (String × Value)) (reported : List Violation) :
    Prop where
  /-- The places are in order, step by step as texts, so index 10 comes before index 2. -/
  ordered : reported.Pairwise fun a b => Violation.textsLe a.placeTexts b.placeTexts = true
  /-- At the object itself there is one violation for each missing key, and then one for all
  keys that are not expected. -/
  root : atPlace [] reported =
    (["action", "arguments"].filter (· ∉ entries.map (·.1))).map
        (fun key => ⟨[], .dict entries, .required key⟩) ++
      match (entries.map (·.1)).filter (· ∉ invocationKeys) with
      | [] => []
      | unexpected => [⟨[], .dict entries, .unexpected unexpected⟩]
  /-- The name has one violation if it is no text, or a text without the pattern. -/
  action : atPlace [.key "action"] reported =
    match entries.lookup "action" with
    | none => []
    | some (.text name) =>
      if namePattern.occursIn name then []
      else [⟨[.key "action"], .text name, .pattern namePattern⟩]
    | some v => [⟨[.key "action"], v, .type .string⟩]
  /-- The arguments have one violation as a whole if they are no list. -/
  arguments : atPlace [.key "arguments"] reported =
    match entries.lookup "arguments" with
    | none => []
    | some (.list _) => []
    | some v => [⟨[.key "arguments"], v, .type .array⟩]
  /-- An argument has one violation if it is no term, however deep the wrong leaf is. -/
  argument : ∀ i, atPlace [.key "arguments", .index i] reported =
    match entries.lookup "arguments" with
    | some (.list vs) => vs[i]?.elim [] fun v =>
      if v.IsTerm then [] else [⟨[.key "arguments", .index i], v, .noneOf⟩]
    | _ => []
  /-- The flag has one violation if it is no truth value. -/
  parallel : atPlace [.key "parallel"] reported =
    match entries.lookup "parallel" with
    | none => []
    | some (.bool _) => []
    | some v => [⟨[.key "parallel"], v, .type .boolean⟩]
  /-- There are no violations at other places. -/
  places : ∀ violation ∈ reported,
    violation.steps = [] ∧ violation.path = "$" ∨
    violation.steps = [.key "action"] ∧ violation.path = "$.action" ∨
    violation.steps = [.key "arguments"] ∧ violation.path = "$.arguments" ∨
    (∃ i : Nat, violation.steps = [.key "arguments", .index i] ∧
      violation.path = "$.arguments[" ++ toString i ++ "]") ∨
    violation.steps = [.key "parallel"] ∧ violation.path = "$.parallel"

namespace ReportsInvocation

variable {entries : List (String × Value)} {reported others : List Violation}

theorem steps_eq_of_placeTexts_eq (h : ReportsInvocation entries reported)
    (h' : ReportsInvocation entries others) {a b : Violation} (ha : a ∈ reported) (hb : b ∈ others)
    (heq : a.placeTexts = b.placeTexts) : a.steps = b.steps := by
  unfold Violation.placeTexts at heq
  rcases h.places a ha with ⟨ha, -⟩ | ⟨ha, -⟩ | ⟨ha, -⟩ | ⟨i, ha, -⟩ | ⟨ha, -⟩ <;>
    rcases h'.places b hb with ⟨hb, -⟩ | ⟨hb, -⟩ | ⟨hb, -⟩ | ⟨j, hb, -⟩ | ⟨hb, -⟩ <;>
    simp_all [PathStep.sortText_key, PathStep.sortText_index_inj]

theorem atPlace_eq (h : ReportsInvocation entries reported) (h' : ReportsInvocation entries others)
    (steps : List PathStep) : atPlace steps reported = atPlace steps others := by
  by_cases hplace : ∃ violation ∈ reported ++ others, violation.steps = steps
  · obtain ⟨violation, hmem, rfl⟩ := hplace
    have hplaces := (List.mem_append.mp hmem).elim (h.places violation) (h'.places violation)
    rcases hplaces with ⟨hsteps, -⟩ | ⟨hsteps, -⟩ | ⟨hsteps, -⟩ | ⟨i, hsteps, -⟩ | ⟨hsteps, -⟩ <;>
      rw [hsteps]
    · rw [h.root, h'.root]
    · rw [h.action, h'.action]
    · rw [h.arguments, h'.arguments]
    · rw [h.argument, h'.argument]
    · rw [h.parallel, h'.parallel]
  · have hnil : ∀ violations, (∀ v ∈ violations, v ∈ reported ++ others) →
        atPlace steps violations = [] := by
      intro violations hsub
      refine List.filter_eq_nil_iff.mpr fun v hv => ?_
      rw [decide_eq_true_eq]
      exact fun hsteps => hplace ⟨v, hsub v hv, hsteps⟩
    rw [hnil reported fun v hv => List.mem_append_left others hv,
      hnil others fun v hv => List.mem_append_right reported hv]

/-- There is only one list that reports on an object. -/
theorem unique (h : ReportsInvocation entries reported) (h' : ReportsInvocation entries others) :
    reported = others := by
  apply eq_of_filter_key_eq Violation.steps fun a b =>
    Violation.textsLe (a.map PathStep.sortText) (b.map PathStep.sortText) = true
  · intro steps
    exact Violation.textsLe_refl _
  · intro a ha b hb hab hba
    exact h.steps_eq_of_placeTexts_eq h' ha hb (Violation.textsLe_antisymm _ _ hab hba)
  · exact h.ordered
  · exact h'.ordered
  · exact h.atPlace_eq h'

end ReportsInvocation

/-! ## The violations at each place -/

section

variable {entries : List (String × Value)}

theorem steps_of_mem_keyViolations {violation : Violation}
    (h : violation ∈ keyViolations entries) : violation.steps = [] := by
  unfold keyViolations at h
  rcases List.mem_append.mp h with h | h
  · obtain ⟨key, -, rfl⟩ := List.mem_map.mp h
    rfl
  · split at h
    · cases h
    · rw [List.mem_singleton.mp h]

theorem steps_of_mem_nameViolations {v : Value} {violation : Violation}
    (h : violation ∈ nameViolations v) : violation.steps = [] := by
  unfold nameViolations at h
  split at h
  · split at h
    · cases h
    · rw [List.mem_singleton.mp h]
  · rw [List.mem_singleton.mp h]

theorem steps_of_mem_flagViolations {v : Value} {violation : Violation}
    (h : violation ∈ flagViolations v) : violation.steps = [] := by
  unfold flagViolations at h
  split at h
  · cases h
  · rw [List.mem_singleton.mp h]

theorem atPlace_entryViolations (key : String) (check : Value → List Violation)
    (steps : List PathStep) :
    atPlace steps (entryViolations entries key check) =
      match steps with
      | [] => []
      | first :: rest =>
        if first = .key key then
          (entries.lookup key).elim [] fun v => (atPlace rest (check v)).map (behind (.key key))
        else [] := by
  unfold entryViolations
  cases entries.lookup key with
  | none =>
    cases steps with
    | nil => rfl
    | cons first rest => simp
  | some v => exact Violation.atPlace_behind _ _ _

theorem exists_of_mem_entryViolations {key : String} {check : Value → List Violation}
    {violation : Violation} (h : violation ∈ entryViolations entries key check) :
    ∃ v, entries.lookup key = some v ∧ ∃ inner ∈ check v,
      violation = behind (.key key) inner := by
  unfold entryViolations at h
  cases hlookup : entries.lookup key with
  | none =>
    rw [hlookup] at h
    cases h
  | some v =>
    rw [hlookup] at h
    obtain ⟨inner, hinner, rfl⟩ := List.mem_map.mp h
    exact ⟨v, rfl, inner, hinner, rfl⟩

end

theorem atPlace_argumentsViolations (v : Value) :
    atPlace [] (argumentsViolations v) =
      match v with
      | .list _ => []
      | v => [⟨[], v, .type .array⟩] := by
  cases v with
  | list vs => exact Violation.atPlace_itemViolations _ _ _ _
  | _ => rfl

theorem atPlace_index_argumentsViolations (i : Nat) (v : Value) :
    atPlace [.index i] (argumentsViolations v) =
      match v with
      | .list vs => vs[i]?.elim [] fun v =>
        if v.IsTerm then [] else [⟨[.index i], v, .noneOf⟩]
      | _ => [] := by
  cases v with
  | list vs =>
    show atPlace _ (itemViolations termViolations 0 vs) = _
    rw [Violation.atPlace_itemViolations]
    dsimp only
    rw [if_pos (Nat.zero_le i), Nat.sub_zero]
    cases vs[i]? with
    | none => rfl
    | some w =>
      rw [Option.elim_some, Option.elim_some, termViolations]
      split <;> rfl
  | _ => rfl

theorem steps_of_mem_argumentsViolations {v : Value} {violation : Violation}
    (h : violation ∈ argumentsViolations v) :
    violation.steps = [] ∨ ∃ i, violation.steps = [.index i] := by
  have hitems : ∀ (index : Nat) (vs : List Value),
      violation ∈ itemViolations termViolations index vs → ∃ i, violation.steps = [.index i] := by
    intro index vs h
    induction vs generalizing index with
    | nil => cases h
    | cons w ws ih =>
      rcases List.mem_append.mp h with h | h
      · obtain ⟨inner, hinner, rfl⟩ := List.mem_map.mp h
        unfold termViolations at hinner
        split at hinner
        · cases hinner
        · rw [List.mem_singleton.mp hinner]
          exact ⟨index, rfl⟩
      · exact ih _ h
  unfold argumentsViolations at h
  split at h
  · exact .inr (hitems _ _ h)
  · rw [List.mem_singleton.mp h]
    exact .inl rfl

theorem atPlace_root (entries : List (String × Value)) :
    atPlace [] (Violation.sorted (invocation.violations (.dict entries))) =
      keyViolations entries := by
  have hkeys : ∀ violation ∈ keyViolations entries, violation.steps = [] := fun _ =>
    steps_of_mem_keyViolations
  rw [Violation.atPlace_sorted, violations_dict]
  simp [Violation.atPlace_of_steps_eq_nil hkeys, atPlace_entryViolations]

/-- Behind the step to a key there are the violations of its value alone. -/
theorem atPlace_key (entries : List (String × Value)) (rest : List PathStep) :
    (atPlace (.key "action" :: rest) (Violation.sorted (invocation.violations (.dict entries))) =
      (entries.lookup "action").elim [] fun v =>
        (atPlace rest (nameViolations v)).map (behind (.key "action"))) ∧
    (atPlace (.key "arguments" :: rest)
        (Violation.sorted (invocation.violations (.dict entries))) =
      (entries.lookup "arguments").elim [] fun v =>
        (atPlace rest (argumentsViolations v)).map (behind (.key "arguments"))) ∧
    (atPlace (.key "parallel" :: rest) (Violation.sorted (invocation.violations (.dict entries))) =
      (entries.lookup "parallel").elim [] fun v =>
        (atPlace rest (flagViolations v)).map (behind (.key "parallel"))) := by
  have hkeys : ∀ violation ∈ keyViolations entries, violation.steps = [] := fun _ =>
    steps_of_mem_keyViolations
  simp only [Violation.atPlace_sorted, violations_dict]
  simp [Violation.atPlace_of_steps_eq_nil hkeys, atPlace_entryViolations]

theorem places_violations_dict {entries : List (String × Value)} {violation : Violation}
    (h : violation ∈ invocation.violations (.dict entries)) :
    violation.steps = [] ∧ violation.path = "$" ∨
    violation.steps = [.key "action"] ∧ violation.path = "$.action" ∨
    violation.steps = [.key "arguments"] ∧ violation.path = "$.arguments" ∨
    (∃ i : Nat, violation.steps = [.key "arguments", .index i] ∧
      violation.path = "$.arguments[" ++ toString i ++ "]") ∨
    violation.steps = [.key "parallel"] ∧ violation.path = "$.parallel" := by
  rw [violations_dict] at h
  rcases List.mem_append.mp h with h | h
  · have hsteps := steps_of_mem_keyViolations h
    exact .inl ⟨hsteps, by rw [Violation.path, hsteps]; rfl⟩
  rcases List.mem_append.mp h with h | h
  · obtain ⟨v, -, inner, hinner, rfl⟩ := exists_of_mem_entryViolations h
    have hsteps : inner.steps = [] := steps_of_mem_nameViolations hinner
    refine .inr (.inl ⟨by rw [behind, hsteps], ?_⟩)
    rw [Violation.path, behind, hsteps]
    rfl
  rcases List.mem_append.mp h with h | h
  · obtain ⟨v, -, inner, hinner, rfl⟩ := exists_of_mem_entryViolations h
    rcases steps_of_mem_argumentsViolations hinner with hsteps | ⟨i, hsteps⟩
    · refine .inr (.inr (.inl ⟨by rw [behind, hsteps], ?_⟩))
      rw [Violation.path, behind, hsteps]
      rfl
    · refine .inr (.inr (.inr (.inl ⟨i, by rw [behind, hsteps], ?_⟩)))
      have hindex : PathStep.text (.index i) = "[" ++ toString i ++ "]" := rfl
      rw [Violation.path, behind, hsteps, ← String.toList_inj]
      simp [PathStep.pathText, PathStep.text.eq_1, hindex, String.join]
  · obtain ⟨v, -, inner, hinner, rfl⟩ := exists_of_mem_entryViolations h
    have hsteps : inner.steps = [] := steps_of_mem_flagViolations hinner
    refine .inr (.inr (.inr (.inr ⟨by rw [behind, hsteps], ?_⟩)))
    rw [Violation.path, behind, hsteps]
    rfl

theorem reportsInvocation (entries : List (String × Value)) :
    ReportsInvocation entries (Violation.sorted (invocation.violations (.dict entries))) := by
  constructor
  · exact Violation.pairwise_sorted _
  · exact atPlace_root entries
  · rw [(atPlace_key entries _).1]
    cases entries.lookup "action" with
    | none => rfl
    | some v =>
      rw [Option.elim_some,
        Violation.atPlace_of_steps_eq_nil fun _ => steps_of_mem_nameViolations, if_pos rfl]
      cases v with
      | text name =>
        dsimp only [nameViolations]
        split <;> rfl
      | _ => rfl
  · rw [(atPlace_key entries _).2.1]
    cases entries.lookup "arguments" with
    | none => rfl
    | some v =>
      rw [Option.elim_some, atPlace_argumentsViolations]
      cases v <;> rfl
  · intro i
    rw [(atPlace_key entries _).2.1]
    cases entries.lookup "arguments" with
    | none => rfl
    | some v =>
      rw [Option.elim_some, atPlace_index_argumentsViolations]
      cases v with
      | list vs =>
        dsimp only
        cases vs[i]? with
        | none => rfl
        | some w =>
          simp only [Option.elim_some]
          split <;> rfl
      | _ => rfl
  · rw [(atPlace_key entries _).2.2]
    cases entries.lookup "parallel" with
    | none => rfl
    | some v =>
      rw [Option.elim_some,
        Violation.atPlace_of_steps_eq_nil fun _ => steps_of_mem_flagViolations, if_pos rfl]
      cases v <;> rfl
  · intro violation h
    exact places_violations_dict ((Violation.perm_sorted _).mem_iff.mp h)

/-! ## Objects without violations -/

theorem keyViolations_eq_nil_iff {entries : List (String × Value)} :
    keyViolations entries = [] ↔
      (∀ key ∈ entries.map (·.1), key ∈ invocationKeys) ∧
        "action" ∈ entries.map (·.1) ∧ "arguments" ∈ entries.map (·.1) := by
  have hunexpected : (entries.map (·.1)).filter (· ∉ invocationKeys) = [] ↔
      ∀ key ∈ entries.map (·.1), key ∈ invocationKeys := by
    simp [List.filter_eq_nil_iff]
  have hmissing : ["action", "arguments"].filter (· ∉ entries.map (·.1)) = [] ↔
      "action" ∈ entries.map (·.1) ∧ "arguments" ∈ entries.map (·.1) := by
    simp [List.filter_eq_nil_iff]
  unfold keyViolations
  dsimp only
  rw [List.append_eq_nil_iff, List.map_eq_nil_iff, hmissing, ← hunexpected, and_comm]
  refine and_congr_left fun _ => ?_
  cases (entries.map (·.1)).filter (· ∉ invocationKeys) <;> simp

theorem entryViolations_eq_nil_iff {entries : List (String × Value)} {key : String}
    {check : Value → List Violation} :
    entryViolations entries key check = [] ↔
      ∀ v, entries.lookup key = some v → check v = [] := by
  unfold entryViolations
  cases entries.lookup key <;> simp

theorem nameViolations_eq_nil_iff {v : Value} :
    nameViolations v = [] ↔ ∃ name, v = .text name ∧ namePattern.occursIn name = true := by
  cases v <;> simp [nameViolations]

theorem argumentsViolations_eq_nil_iff {v : Value} :
    argumentsViolations v = [] ↔ ∃ terms, v = .list terms ∧ ∀ term ∈ terms, term.IsTerm := by
  cases v <;> simp [argumentsViolations, itemViolations_eq_nil_iff, termViolations_eq_nil_iff]

theorem flagViolations_eq_nil_iff {v : Value} : flagViolations v = [] ↔ ∃ flag, v = .bool flag := by
  cases v <;> simp [flagViolations]

theorem mem_keys_iff {entries : List (String × Value)} {key : String} :
    key ∈ entries.map (·.1) ↔ ∃ v, entries.lookup key = some v := by
  rw [← Option.isSome_iff_exists, List.lookup_isSome_iff]
  simp

theorem violations_dict_eq_nil_iff {entries : List (String × Value)} :
    invocation.violations (.dict entries) = [] ↔ InvocationEntries entries := by
  rw [violations_dict, List.append_eq_nil_iff, List.append_eq_nil_iff, List.append_eq_nil_iff,
    keyViolations_eq_nil_iff, entryViolations_eq_nil_iff, entryViolations_eq_nil_iff,
    entryViolations_eq_nil_iff]
  simp only [nameViolations_eq_nil_iff, argumentsViolations_eq_nil_iff, flagViolations_eq_nil_iff]
  constructor
  · rintro ⟨⟨hkeys, haction, harguments⟩, hname, hterms, hflag⟩
    obtain ⟨v, hv⟩ := mem_keys_iff.mp haction
    obtain ⟨w, hw⟩ := mem_keys_iff.mp harguments
    obtain ⟨name, rfl, hpattern⟩ := hname v hv
    obtain ⟨terms, rfl, hall⟩ := hterms w hw
    exact ⟨hkeys, ⟨name, hv, hpattern⟩, ⟨terms, hw, hall⟩, hflag⟩
  · rintro ⟨hkeys, ⟨name, hv, hpattern⟩, ⟨terms, hw, hall⟩, hflag⟩
    refine ⟨⟨hkeys, mem_keys_iff.mpr ⟨_, hv⟩, mem_keys_iff.mpr ⟨_, hw⟩⟩, ?_, ?_, hflag⟩
    · intro v h
      rw [hv] at h
      cases h
      exact ⟨name, rfl, hpattern⟩
    · intro v h
      rw [hw] at h
      cases h
      exact ⟨terms, rfl, hall⟩

theorem violations_eq_nil_iff {value : Value} :
    invocation.violations value = [] ↔ value.IsInvocation := by
  cases value with
  | dict entries => exact violations_dict_eq_nil_iff
  | _ =>
    rw [violations_of_not_dict (by simp)]
    simp [Value.IsInvocation]

theorem isPlain_of_mem_violations {value : Value} {violation : Violation}
    (h : violation ∈ invocation.violations value) : ∀ step ∈ violation.steps, step.IsPlain := by
  have hkeys : ∀ key ∈ invocationKeys, PathStep.IsPlain (.key key) := by
    simp only [PathStep.IsPlain]
    decide
  cases value with
  | dict entries =>
    have haction := hkeys "action" (by decide)
    have harguments := hkeys "arguments" (by decide)
    have hparallel := hkeys "parallel" (by decide)
    rcases places_violations_dict h with ⟨hsteps, -⟩ | ⟨hsteps, -⟩ | ⟨hsteps, -⟩ | ⟨i, hsteps, -⟩ |
      ⟨hsteps, -⟩ <;> rw [hsteps] <;> simp [haction, harguments, hparallel, PathStep.IsPlain.eq_2]
  | _ =>
    rw [violations_of_not_dict (by simp)] at h
    rw [List.mem_singleton.mp h]
    exact fun step hstep => absurd hstep List.not_mem_nil

/-- The report on a value by any validator. It is complete within the reach of the validator, and
a complete report is empty exactly when the value states an invocation. It words one violation of
a value that is no object, and of an object the violations that are described and no others. -/
theorem report_invocation {ε : Type} {V : Validator ε} {reach : Contract → Schema → Value → Prop}
    (h : V.Lawful reach) (value : Value) :
    (reach invocation invocation.schema value → ∃ texts, invocation.reportBy V value = .ok texts) ∧
    ∀ texts, invocation.reportBy V value = .ok texts →
      (texts = [] ↔ value.IsInvocation) ∧
      ∃ reported : List Violation,
        texts = reported.map (fun violation => violation.path ++ ": " ++ V.message violation) ∧
        match value with
        | .dict entries =>
          ReportsInvocation entries reported ∧
            ∀ others, ReportsInvocation entries others → others = reported
        | _ => ∃ violation, reported = [violation] ∧ violation.path = "$" ∧
          violation.value = value ∧ violation.cause = .type .object := by
  refine ⟨exists_report h, fun texts hreport => ?_⟩
  obtain ⟨-, htexts⟩ := errors_of_reportBy h hreport
  refine ⟨(eq_nil_iff_of_reportBy h hreport).trans violations_eq_nil_iff, Violation.sorted _,
    htexts.trans (List.map_congr_left fun violation hviolation => ?_), ?_⟩
  · exact text_eq h (isPlain_of_mem_violations ((Violation.perm_sorted _).mem_iff.mp hviolation))
  · cases value with
    | dict entries =>
      have hreported := reportsInvocation entries
      exact ⟨hreported, fun others h' => h'.unique hreported⟩
    | _ =>
      rw [violations_of_not_dict (by simp)]
      exact ⟨_, rfl, rfl, rfl, rfl⟩

/-- A key that is missing and one that is not expected, and two arguments that are no terms. -/
theorem report_invocation_indices :
    ∃ reported : List Violation,
      ReportsInvocation
        [("arguments", .list [.int 0, .int 1, .null, .int 3, .int 4, .int 5, .int 6, .int 7, .int 8,
          .int 9, .list [.bool true]]), ("note", .null)] reported ∧
      reported.map (fun violation => violation.path ++ ": " ++ violation.message) =
        ["$: 'action' is a required property",
         "$: Additional properties are not allowed ('note' was unexpected)",
         "$.arguments[10]: [True] is not valid under any of the given schemas",
         "$.arguments[2]: None is not valid under any of the given schemas"] := by
  obtain ⟨-, hreport⟩ := report_invocation Validator.standard_lawful
    (.dict [("arguments", .list [.int 0, .int 1, .null, .int 3, .int 4, .int 5, .int 6, .int 7,
      .int 8, .int 9, .list [.bool true]]), ("note", .null)])
  obtain ⟨-, reported, htexts, hreported, -⟩ := hreport _ (reportBy_standard _ _)
  exact ⟨reported, hreported, htexts.symm.trans (by decide +kernel)⟩

end Contract

end NumericActions
