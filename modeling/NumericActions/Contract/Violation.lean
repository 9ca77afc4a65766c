import NumericActions.Contract.Schema
import NumericActions.Sorting

/-!
# Violations

A violation says which part of a value a keyword does not allow, and why.

* `Violation.path`: the place of the part.
* `Violation.text`: the wording.
* `Violation.sorted`: violations in the order of their places.
-/

namespace NumericActions

inductive PathStep where
  | key (name : String)
  | index (i : Nat)
  deriving DecidableEq

namespace PathStep

def sortText : PathStep → String
  | .key name => name
  | .index i => toString i

def text : PathStep → String
  | .key name => "." ++ name
  | .index i => s!"[{i}]"

/-- The place behind some steps, with `$` for the whole value. -/
def pathText (steps : List PathStep) : String := "$" ++ String.join (steps.map text)

end PathStep

inductive ViolationCause where
  | type (expected : SchemaType)
  | required (key : String)
  /-- keys without a property, in the order of the object -/
  | unexpected (keys : List String)
  | pattern (pattern : Text.Pattern)
  | minimum (bound : Int)
  | options (texts : List String)
  /-- none of several schemas holds -/
  | noneOf
  /-- more than one of several schemas holds -/
  | manyOf (schemas : List Value)

/-- A part of a value that is not allowed, with the steps that lead to it. -/
structure Violation where
  steps : List PathStep
  value : Value
  cause : ViolationCause

namespace ViolationCause

def keyword : ViolationCause → String
  | .type _ => "type"
  | .required _ => "required"
  | .unexpected _ => "additionalProperties"
  | .pattern _ => "pattern"
  | .minimum _ => "minimum"
  | .options _ => "enum"
  | .noneOf => "oneOf"
  | .manyOf _ => "oneOf"

def text (value : Value) : ViolationCause → String
  | .type expected =>
    value.literal ++ " is not of type " ++ Text.quoted expected.name
  | .required key => Text.quoted key ++ " is a required property"
  | .unexpected keys =>
    let verb := if keys.length = 1 then "was" else "were"
    let names := (NumericActions.sorted (fun a b => !decide (b < a)) keys).map Text.quoted
    "Additional properties are not allowed (" ++ ", ".intercalate names ++ " " ++ verb ++
      " unexpected)"
  | .pattern p => value.literal ++ " does not match " ++ Text.quoted p.text
  | .minimum bound => value.literal ++ s!" is less than the minimum of {bound}"
  | .options texts =>
    value.literal ++ " is not one of " ++ (Value.list (texts.map .text)).literal
  | .noneOf => value.literal ++ " is not valid under any of the given schemas"
  | .manyOf schemas =>
    value.literal ++ " is valid under each of " ++
      ", ".intercalate (schemas.map Value.literal)

end ViolationCause

namespace Violation

/-- The violation seen from a value that the violating one is a part of. -/
def behind (step : PathStep) (violation : Violation) : Violation :=
  { violation with steps := step :: violation.steps }

def path (violation : Violation) : String := PathStep.pathText violation.steps

def message (violation : Violation) : String := violation.cause.text violation.value

def keyword (violation : Violation) : String := violation.cause.keyword

/-! ## Order -/

/-- The order of two lists of texts, in which a list comes behind what it begins with. -/
def textsLe : List String → List String → Bool
  | [], _ => true
  | _ :: _, [] => false
  | a :: as, b :: bs => if a < b then true else if a = b then textsLe as bs else false

/-- The violations in the order of their steps as texts. Violations of one place stay in
their order. -/
def sorted (violations : List Violation) : List Violation :=
  let keyed := violations.map fun violation =>
    (violation.steps.map PathStep.sortText, violation)
  (NumericActions.sorted (fun a b => textsLe a.1 b.1) keyed).map (·.2)

end Violation

end NumericActions
