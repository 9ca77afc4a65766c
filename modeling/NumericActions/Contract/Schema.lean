import NumericActions.Text.Pattern
import NumericActions.Value.Basic

/-!
# Schemas

A schema is a list of keywords, each of which restricts values of some types or says
something about the schema. Parts that are used again are defined under names.

* `Keyword`, `Schema`: keywords, whose order is the order of the violations they cause.
* `Schema.toValue`: a schema as a value, the way it is published.
-/

namespace NumericActions

/-- The types that schemas tell apart. An integral float counts as an integer, and a
truth value does not count as a number. -/
inductive SchemaType where
  | object
  | array
  | string
  | number
  | integer
  | boolean
  deriving DecidableEq

namespace SchemaType

def name : SchemaType → String
  | .object => "object"
  | .array => "array"
  | .string => "string"
  | .number => "number"
  | .integer => "integer"
  | .boolean => "boolean"

def holds : SchemaType → Value → Bool
  | .object, .dict _ => true
  | .array, .list _ => true
  | .string, .text _ => true
  | .number, .number _ => true
  | .integer, .number (.int _) => true
  | .integer, .number (.float x) => x.isWhole
  | .boolean, .bool _ => true
  | _, _ => false

end SchemaType

inductive Keyword where
  /-- a remark that restricts nothing -/
  | remark (key : String) (value : Value)
  | type (type : SchemaType)
  /-- keys that an object must have -/
  | required (keys : List String)
  /-- an object has no key but those of the properties beside this keyword -/
  | closed
  | properties (entries : List (String × List Keyword))
  | items (schema : List Keyword)
  /-- exactly one of the schemas holds -/
  | oneOf (schemas : List (List Keyword))
  /-- the schema that is defined under a name -/
  | reference (name : String)
  | definitions (entries : List (String × List Keyword))
  | pattern (pattern : Text.Pattern)
  | minimum (bound : Int)
  | options (texts : List String)

abbrev Schema := List Keyword

/-! ## Schemas as values -/

mutual

def Keyword.toEntry : Keyword → String × Value
  | .remark key value => (key, value)
  | .type t => ("type", .text t.name)
  | .required keys => ("required", .list (keys.map .text))
  | .closed => ("additionalProperties", .bool false)
  | .properties entries => ("properties", .dict (Keyword.entriesToValues entries))
  | .items schema => ("items", .dict (Keyword.allToEntries schema))
  | .oneOf schemas => ("oneOf", .list (Keyword.schemasToValues schemas))
  | .reference name => ("$ref", .text ("#/$defs/" ++ name))
  | .definitions entries => ("$defs", .dict (Keyword.entriesToValues entries))
  | .pattern p => ("pattern", .text p.text)
  | .minimum bound => ("minimum", .int bound)
  | .options texts => ("enum", .list (texts.map .text))

def Keyword.allToEntries : List Keyword → List (String × Value)
  | [] => []
  | keyword :: rest => keyword.toEntry :: Keyword.allToEntries rest

def Keyword.entriesToValues : List (String × List Keyword) → List (String × Value)
  | [] => []
  | (key, schema) :: rest =>
    (key, .dict (Keyword.allToEntries schema)) :: Keyword.entriesToValues rest

def Keyword.schemasToValues : List (List Keyword) → List Value
  | [] => []
  | schema :: rest => .dict (Keyword.allToEntries schema) :: Keyword.schemasToValues rest

end

namespace Schema

def toValue (schema : Schema) : Value := .dict (Keyword.allToEntries schema)

def propertyKeys (schema : Schema) : List String :=
  schema.flatMap fun keyword =>
    match keyword with
    | .properties entries => entries.map (·.1)
    | _ => []

def definitions (schema : Schema) : List (String × Schema) :=
  schema.flatMap fun keyword =>
    match keyword with
    | .definitions entries => entries
    | _ => []

end Schema

end NumericActions
