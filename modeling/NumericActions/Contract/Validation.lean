import NumericActions.Contract.Violation

/-!
# Validation

A value is held against the keywords of a schema in their order. A keyword ignores values
of types that it says nothing about. References are followed one by one, and in a schema
that refers to itself only behind the items of an array, the depth of the value bounds
how often.

* `Keyword.violations`, `Schema.violations`: the violations, with the meaning of
  references as a parameter.
* `Schema.validate`: the violations of a schema that defines what it refers to.
-/

namespace NumericActions

mutual

def Value.depth : Value → Nat
  | .list items => 1 + Value.depths items
  | .tuple items => 1 + Value.depths items
  | .dict entries => 1 + Value.entryDepths entries
  | _ => 0

def Value.depths : List Value → Nat
  | [] => 0
  | v :: vs => max v.depth (Value.depths vs)

def Value.entryDepths : List (String × Value) → Nat
  | [] => 0
  | (_, v) :: rest => max v.depth (Value.entryDepths rest)

end

def Value.isOneOf (texts : List String) : Value → Bool
  | .text s => texts.contains s
  | _ => false

/-- The violation of a keyword by a value itself, if a condition fails. -/
def violationUnless (allowed : Bool) (value : Value) (cause : ViolationCause) :
    List Violation :=
  if allowed then [] else [⟨[], value, cause⟩]

/-- The violations of the items of an array, each held against a schema. -/
def itemViolations (check : Value → List Violation) : (index : Nat) → List Value →
    List Violation
  | _, [] => []
  | index, item :: rest =>
    (check item).map (Violation.behind (.index index)) ++
      itemViolations check (index + 1) rest

/-- The violations of the value of a key of an object, if the object has the key. -/
def entryViolations (entries : List (String × Value)) (key : String)
    (check : Value → List Violation) : List Violation :=
  (entries.lookup key).elim [] fun v => (check v).map (Violation.behind (.key key))

/-- The violation of a choice between schemas, from the violations of each of them. -/
def choiceViolations (value : Value) (outcomes : List (Value × List Violation)) :
    List Violation :=
  match outcomes.filter (fun outcome => outcome.2.isEmpty) with
  | [] => [⟨[], value, .noneOf⟩]
  | [_] => []
  | first :: rest => [⟨[], value, .manyOf ((rest ++ [first]).map (·.1))⟩]

mutual

/-- The violations of a keyword that stands beside the properties with the given keys.
References have the meaning `resolve`. -/
def Keyword.violations (resolve : String → Value → List Violation) (known : List String)
    (value : Value) : Keyword → List Violation
  | .remark _ _ => []
  | .definitions _ => []
  | .type t => violationUnless (t.holds value) value (.type t)
  | .required keys =>
    match value with
    | .dict entries =>
      (keys.filter fun key => !entries.any (·.1 = key)).map
        fun key => ⟨[], value, .required key⟩
    | _ => []
  | .closed =>
    match value with
    | .dict entries =>
      let unexpected := (entries.map (·.1)).filter fun key => !known.contains key
      violationUnless unexpected.isEmpty value (.unexpected unexpected)
    | _ => []
  | .properties schemas =>
    match value with
    | .dict entries => Keyword.propertyViolations resolve entries schemas
    | _ => []
  | .items schema =>
    match value with
    | .list vs =>
      itemViolations
        (fun v => Keyword.allViolations resolve (Schema.propertyKeys schema) v schema) 0 vs
    | _ => []
  | .oneOf schemas => choiceViolations value (Keyword.choiceOutcomes resolve value schemas)
  | .reference name => resolve name value
  | .pattern p =>
    match value with
    | .text s => violationUnless (p.occursIn s) value (.pattern p)
    | _ => []
  | .minimum bound =>
    match value with
    | .number n => violationUnless (!n.lt (.int bound)) value (.minimum bound)
    | _ => []
  | .options texts => violationUnless (value.isOneOf texts) value (.options texts)

def Keyword.allViolations (resolve : String → Value → List Violation)
    (known : List String) (value : Value) : List Keyword → List Violation
  | [] => []
  | keyword :: rest =>
    keyword.violations resolve known value ++
      Keyword.allViolations resolve known value rest

/-- The violations of the entries that have a property, in the order of the
properties. -/
def Keyword.propertyViolations (resolve : String → Value → List Violation)
    (entries : List (String × Value)) : List (String × List Keyword) → List Violation
  | [] => []
  | (key, schema) :: rest =>
    entryViolations entries key
        (fun value => Keyword.allViolations resolve (Schema.propertyKeys schema) value schema) ++
      Keyword.propertyViolations resolve entries rest

def Keyword.choiceOutcomes (resolve : String → Value → List Violation) (value : Value) :
    List (List Keyword) → List (Value × List Violation)
  | [] => []
  | schema :: rest =>
    (Schema.toValue schema,
      Keyword.allViolations resolve (Schema.propertyKeys schema) value schema) ::
      Keyword.choiceOutcomes resolve value rest

end

namespace Schema

def violations (resolve : String → Value → List Violation) (schema : Schema)
    (value : Value) : List Violation :=
  Keyword.allViolations resolve schema.propertyKeys value schema

/-- The meaning of references to definitions when at most so many of them are followed
one behind the other. -/
def resolveIn (definitions : List (String × Schema)) : (bound : Nat) → String → Value →
    List Violation
  | 0, _, _ => []
  | bound + 1, name, value =>
    match definitions.lookup name with
    | none => []
    | some schema => schema.violations (resolveIn definitions bound) value

/-- The violations of a schema that defines what it refers to. -/
def validate (schema : Schema) (value : Value) : List Violation :=
  schema.violations (resolveIn schema.definitions (value.depth + 1)) value

end Schema

end NumericActions
