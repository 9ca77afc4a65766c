import NumericActions.Action.Coercion

/-!
# Action specifications

The specification of an action is what a host may know about it: its name, the least
number of its arguments, its way of grouping numbers and a description. It is read from
fields of any values, and every field that is wrong is reported.

* `ActionSpec.read?`: the specification in a list of fields, or its field errors, by any
  coercion.
* `ActionSpec.ofFields?`: the reading by the lax coercion.
* `ActionSpec.toFields`: the fields of a specification.
-/

namespace NumericActions

structure ActionSpec where
  name : ActionName
  minimalArguments : Nat
  discipline : Discipline
  description : String
  deriving DecidableEq

namespace ActionSpec

/-- The specification in a list of fields. The description may be missing and is then
empty; fields of other names are passed over. The errors of all fields are reported, in
the order of the fields of a specification. -/
def read? (coercion : Coercion) (fields : List (String × Value)) :
    Except (List FieldError) ActionSpec :=
  let name := Field.find (.error .missing) coercion.name fields "name"
  let minimalArguments :=
    Field.find (.error .missing) coercion.natural fields "minimal_arguments"
  let discipline := Field.find (.error .missing) coercion.discipline fields "discipline"
  let description := Field.find (.ok "") coercion.text fields "description"
  match name, minimalArguments, discipline, description with
  | .ok name, .ok minimalArguments, .ok discipline, .ok description =>
    .ok ⟨name, minimalArguments, discipline, description⟩
  | _, _, _, _ =>
    .error (Field.error? name ++ Field.error? minimalArguments ++ Field.error? discipline ++
      Field.error? description)

def ofFields? (fields : List (String × Value)) : Except (List FieldError) ActionSpec :=
  read? .lax fields

def toFields (spec : ActionSpec) : List (String × Value) :=
  [("name", .text spec.name.text), ("minimal_arguments", .int spec.minimalArguments),
   ("discipline", .text spec.discipline.name), ("description", .text spec.description)]

def toValue (spec : ActionSpec) : Value := .dict spec.toFields

/-- What the attempt to change a field of a specification ends with. -/
def changeError (field : String) : FieldError := ⟨field, .frozen⟩

end ActionSpec

end NumericActions
