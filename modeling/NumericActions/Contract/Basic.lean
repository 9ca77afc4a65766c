import NumericActions.Contract.Validation

/-!
# Contracts

A contract is a schema that a host and the actions agree on. There is one for terms, one
for invocations and one for specifications of actions.

* `Contract.schema`: the schemas.
* `Contract.violations`: the violations in the order of the keywords.
-/

namespace NumericActions

inductive Contract where
  | term
  | invocation
  | specification
  deriving DecidableEq

namespace Contract

def all : List Contract := [.term, .invocation, .specification]

def name : Contract → String
  | .term => "term"
  | .invocation => "action_invocation"
  | .specification => "action_spec"

def of? (text : String) : Option Contract := all.find? fun contract => contract.name = text

theorem of?_name (contract : Contract) : of? contract.name = some contract := by
  cases contract <;> decide

def unknownText (text : String) : String :=
  "unknown contract " ++ Text.quoted text ++ ", expected one of " ++
    (Value.tuple (all.map fun contract => .text contract.name)).literal

/-! ## Patterns -/

def nameStartClass : Text.Pattern := .oneOf [.between 'a' 'z', .between '0' '9']

def nameClass : Text.Pattern :=
  .oneOf [.between 'a' 'z', .between '0' '9', .single '_', .escaped '-']

def segmentPattern : Text.Pattern := .sequence nameStartClass (.repeated nameClass)

/-- A name of an action: segments with a slash between two of them. -/
def namePattern : Text.Pattern :=
  .sequence .start <|
    .sequence segmentPattern <|
      .sequence (.repeated (.sequence (.literal '/') segmentPattern)) .finish

/-! ## Schemas -/

def header (name title description : String) : Schema :=
  [.remark "$schema" (.text "https://json-schema.org/draft/2020-12/schema"),
   .remark "$id" (.text ("https://agentmath.local/schema/" ++ name ++ ".json")),
   .remark "title" (.text title),
   .remark "description" (.text description)]

def termDefinition : String × Schema :=
  ("term",
    [.oneOf
      [[.type .number],
       [.type .array, .items [.reference "term"]]]])

def termSchema : Schema :=
  header "term" "Term" "A number or an ordered array of terms, nested to arbitrary depth" ++
  [.reference "term",
   .definitions [termDefinition]]

def invocationSchema : Schema :=
  header "action_invocation" "ActionInvocation"
    "One synchronous invocation of a numeric action" ++
  [.type .object,
   .required ["action", "arguments"],
   .closed,
   .properties
    [("action",
      [.type .string,
       .pattern namePattern,
       .remark "description" (.text "Hierarchical action name, e.g. math/sigmoid")]),
     ("arguments",
      [.type .array,
       .items [.reference "term"]]),
     ("parallel",
      [.type .boolean,
       .remark "default" (.bool false),
       .remark "description"
        (.text "Parallel-execution hint; results never depend on it")])],
   .definitions [termDefinition]]

def specificationSchema : Schema :=
  header "action_spec" "ActionSpec" "Manifest entry describing one registered action" ++
  [.type .object,
   .required ["name", "minimal_arguments", "discipline"],
   .closed,
   .properties
    [("name", [.type .string, .pattern namePattern]),
     ("minimal_arguments", [.type .integer, .minimum 0]),
     ("discipline",
      [.type .string,
       .options ["elementwise", "windowed", "aggregate", "parameterized"]]),
     ("description", [.type .string])]]

def schema : Contract → Schema
  | .term => termSchema
  | .invocation => invocationSchema
  | .specification => specificationSchema

def violations (contract : Contract) (value : Value) : List Violation :=
  contract.schema.validate value

end Contract

end NumericActions
