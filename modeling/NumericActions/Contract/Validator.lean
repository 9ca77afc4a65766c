import NumericActions.Contract.Basic

/-!
# Validators

A validator holds a value against a schema and delivers the violations one by one. It has
resources of its own, and on a value that is nested too deeply for them it is broken off. A
breakdown says nothing about the value, so whoever asked the validator hands it on.

* `Scan`: what a validator delivers.
* `Scan.Lists`: a scan that delivers a list, or the beginning of it when it is broken off.
* `Validator`, `Validator.Lawful`: validators, with a law for each keyword.
* `Contract.reportBy`, `Contract.checkBy`: a value and a contract, by any validator.
* `Validator.standard`: the evaluation of schemas as a validator.
* `Contract.report`, `Contract.check`: a value and a contract, by this validator.
-/

namespace NumericActions

variable {ε : Type}

/-! ## Scans -/

/-- Violations that are delivered one by one, until the end or until a breakdown. -/
structure Scan (ε : Type) where
  found : List Violation
  breakdown : Option ε

namespace Scan

def completed (scan : Scan ε) : Except ε (List Violation) :=
  match scan.breakdown with
  | none => .ok scan.found
  | some breakdown => .error breakdown

/-- What is known behind the first violation, from which on nothing is asked for. -/
def verdict (scan : Scan ε) : Except ε (Except Violation Unit) :=
  match scan.found with
  | violation :: _ => .ok (.error violation)
  | [] => scan.completed.map fun _ => .ok ()

/-- All violations, unless there is a breakdown before the first of them. -/
def guarded (breakdown : Option ε) (violations : List Violation) : Scan ε :=
  ⟨breakdown.elim violations fun _ => [], breakdown⟩

/-- A scan of some violations. It delivers all of them if it is within reach of the
validator; otherwise it may be broken off behind any of them. -/
inductive Lists (reached : Prop) (violations : List Violation) : Scan ε → Prop where
  | ended : Lists reached violations ⟨violations, none⟩
  | brokenOff {found : List Violation} (breakdown : ε) (out : ¬ reached)
      (begins : found <+: violations) : Lists reached violations ⟨found, some breakdown⟩

end Scan

/-! ## Validators -/

structure Validator (ε : Type) where
  /-- the violations of a schema that stands in `root` -/
  errors (root schema : Schema) : Value → Scan ε
  /-- the violations of a keyword of a schema that stands in `root` -/
  keyword (root schema : Schema) : Value → Keyword → Scan ε
  /-- the first violation of a schema, if there is one -/
  validate (root : Schema) : Value → Except ε (Except Violation Unit)
  path : List PathStep → String
  message : Violation → String

/-- Whether a keyword says something about a value. The others pass it over. -/
def Keyword.concerns (value : Value) : Keyword → Bool
  | .remark _ _ | .definitions _ => false
  | .required _ | .closed | .properties _ => SchemaType.object.holds value
  | .items _ => SchemaType.array.holds value
  | .pattern _ => SchemaType.string.holds value
  | .minimum _ => SchemaType.number.holds value
  | .type _ | .oneOf _ | .reference _ | .options _ => true

/-- A step that stands in a path as it is: an index, or a key of letters. -/
def PathStep.IsPlain : PathStep → Prop
  | .key name => name ≠ "" ∧ name.toList.all Char.isAlpha
  | .index _ => True

namespace Validator

def text (V : Validator ε) (violation : Violation) : String :=
  V.path violation.steps ++ ": " ++ V.message violation

section

variable (V : Validator ε) (reach : Contract → Schema → Value → Prop) (contract : Contract)
  (schema : Schema) (value : Value)

/-- The violations that a schema in a contract has in a value. -/
def Finds (violations : List Violation) : Prop :=
  (V.errors contract.schema schema value).Lists (reach contract schema value) violations

/-- The violations that a keyword of a schema in a contract has in a value. -/
def KeywordFinds (keyword : Keyword) (violations : List Violation) : Prop :=
  (V.keyword contract.schema schema value keyword).Lists (reach contract schema value)
    violations

end

/-- The laws of a validator, of which nothing else is known. The schemas of the contracts and
the values that a validator can go through without a breakdown are in its `reach`. What a
keyword finds depends on what is found by the schemas that stand in it. -/
structure Lawful (V : Validator ε) (reach : Contract → Schema → Value → Prop) : Prop where
  /-- The keywords of a schema are gone through in their order. -/
  schema : ∀ {contract schema value} {found : Keyword → List Violation},
    (∀ keyword ∈ schema, V.KeywordFinds reach contract schema value keyword (found keyword)) →
    V.Finds reach contract schema value (schema.flatMap found)
  /-- A keyword ignores values of types that it says nothing about. -/
  ignored : ∀ {contract schema value keyword}, keyword ∈ schema →
    keyword.concerns value = false → V.KeywordFinds reach contract schema value keyword []
  /-- Ints and floats are the numbers, so a truth value is none. An integral float is an
  integer. Lists alone are arrays, and dicts alone are objects. -/
  type : ∀ {contract schema value t}, .type t ∈ schema →
    V.KeywordFinds reach contract schema value (.type t)
      (violationUnless (t.holds value) value (.type t))
  /-- Each missing key is a violation of its own. -/
  required : ∀ {contract schema entries keys}, .required keys ∈ schema →
    V.KeywordFinds reach contract schema (.dict entries) (.required keys)
      ((keys.filter fun key => !entries.any (·.1 = key)).map
        fun key => ⟨[], .dict entries, .required key⟩)
  /-- All keys without a property in the same schema are one violation together. -/
  closed : ∀ {contract schema entries}, .closed ∈ schema →
    V.KeywordFinds reach contract schema (.dict entries) .closed
      (let unexpected := (entries.map (·.1)).filter fun key => !schema.propertyKeys.contains key
       violationUnless unexpected.isEmpty (.dict entries) (.unexpected unexpected))
  /-- The value of each property that is there is held against the schema of the property. -/
  properties : ∀ {contract schema entries parts} {found : Schema → Value → List Violation},
    .properties parts ∈ schema →
    (∀ part ∈ parts, ∀ value, entries.lookup part.1 = some value →
      V.Finds reach contract part.2 value (found part.2 value)) →
    V.KeywordFinds reach contract schema (.dict entries) (.properties parts)
      (parts.flatMap fun part => entryViolations entries part.1 (found part.2))
  /-- Each item of an array is held against the schema. -/
  items : ∀ {contract schema values part} {found : Value → List Violation},
    .items part ∈ schema →
    (∀ value ∈ values, V.Finds reach contract part value (found value)) →
    V.KeywordFinds reach contract schema (.list values) (.items part)
      (itemViolations found 0 values)
  /-- The value is held against each of the schemas, and one of them alone must have no
  violation. -/
  oneOf : ∀ {contract schema value parts} {found : Schema → List Violation},
    .oneOf parts ∈ schema →
    (∀ part ∈ parts, V.Finds reach contract part value (found part)) →
    V.KeywordFinds reach contract schema value (.oneOf parts)
      (choiceViolations value (parts.map fun part => (part.toValue, found part)))
  /-- The value is held against the schema that the contract defines under the name. -/
  reference : ∀ {contract schema value name part found}, .reference name ∈ schema →
    contract.schema.definitions.lookup name = some part →
    V.Finds reach contract part value found →
    V.KeywordFinds reach contract schema value (.reference name) found
  /-- The pattern must occur in the text. -/
  pattern : ∀ {contract schema text p}, .pattern p ∈ schema →
    V.KeywordFinds reach contract schema (.text text) (.pattern p)
      (violationUnless (p.occursIn text) (.text text) (.pattern p))
  minimum : ∀ {contract schema n bound}, .minimum bound ∈ schema →
    V.KeywordFinds reach contract schema (.number n) (.minimum bound)
      (violationUnless (!n.lt (.int bound)) (.number n) (.minimum bound))
  /-- The value must be one of the texts. -/
  options : ∀ {contract schema value texts}, .options texts ∈ schema →
    V.KeywordFinds reach contract schema value (.options texts)
      (violationUnless (value.isOneOf texts) value (.options texts))
  /-- The first violation that is found is the one that is raised. -/
  validate : ∀ {contract : Contract} {value},
    V.validate contract.schema value = (V.errors contract.schema contract.schema value).verdict
  path : ∀ {steps : List PathStep}, (∀ step ∈ steps, step.IsPlain) →
    V.path steps = PathStep.pathText steps

end Validator

/-! ## Contracts -/

namespace Contract

/-- The report on a value: the wording of its violations in the order of their places. -/
def reportBy (V : Validator ε) (contract : Contract) (value : Value) :
    Except ε (List String) := do
  let violations ← (V.errors contract.schema contract.schema value).completed
  return (Violation.sorted violations).map V.text

/-- Whether a value obeys a contract; if not, the first of its violations. -/
def checkBy (V : Validator ε) (contract : Contract) (value : Value) :
    Except ε (Except Violation Unit) :=
  V.validate contract.schema value

end Contract

/-! ## The evaluation of schemas -/

namespace Validator

/-- The evaluation of schemas as a validator, which refuses values of some depths. -/
def evaluator (refusal : Nat → Option ε) : Validator ε where
  errors root schema value :=
    .guarded (refusal value.depth)
      (schema.violations (Schema.resolveIn root.definitions (value.depth + 1)) value)
  keyword root schema value keyword :=
    .guarded (refusal value.depth)
      (keyword.violations (Schema.resolveIn root.definitions (value.depth + 1))
        schema.propertyKeys value)
  validate root value := (Scan.guarded (refusal value.depth) (root.validate value)).verdict
  path := PathStep.pathText
  message := Violation.message

/-- The validator that refuses no value. -/
def standard : Validator Empty := evaluator fun _ => none

/-- The validator that refuses all values beyond a depth. -/
def upTo (limit : Nat) (breakdown : ε) : Validator ε :=
  evaluator fun depth => if limit < depth then some breakdown else none

end Validator

/-- The result of what cannot break down. -/
def certain {α : Type} : Except Empty α → α
  | .ok a => a

theorem eq_ok_certain {α : Type} : (x : Except Empty α) → x = .ok (certain x)
  | .ok _ => rfl

namespace Contract

def report (contract : Contract) (value : Value) : List String :=
  certain (contract.reportBy .standard value)

theorem reportBy_standard (contract : Contract) (value : Value) :
    contract.reportBy .standard value = .ok (contract.report value) :=
  eq_ok_certain _

def check (contract : Contract) (value : Value) : Except Violation Unit :=
  certain (contract.checkBy .standard value)

end Contract

end NumericActions
