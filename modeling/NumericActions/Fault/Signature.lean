import NumericActions.Text.Quoted

/-!
# Signatures

A function is called with values for its parameters, in their order. With fewer values
the last parameters are missing; with more there is no parameter for the last values.

* `Signature.missing`: the parameters that get no value.
* `Signature.mismatchText`: the wording of a call with another number of values.
* `missing_eq_nil_iff`: no parameter is missing when there are enough values.
-/

namespace NumericActions

/-- The name of a function and the names of its parameters, as a host knows them. -/
structure Signature where
  name : String
  parameters : List String

namespace Signature

/-- Names in a row, with commas between more than two of them. -/
def enumerated : List String → String
  | [] => ""
  | [a] => a
  | [a, b] => a ++ " and " ++ b
  | a :: b :: rest => ", ".intercalate ((a :: b :: rest).dropLast) ++ ", and " ++
    rest.getLastD b

/-- The parameters that get no value when so many values are given. -/
def missing (signature : Signature) (given : Nat) : List String :=
  signature.parameters.drop given

theorem missing_eq_nil_iff {signature : Signature} {given : Nat} :
    signature.missing given = [] ↔ signature.parameters.length ≤ given := by
  simp [missing]

def arguments (count : Nat) : String :=
  if count = 1 then "positional argument" else "positional arguments"

/-- The wording of a call with another number of values than there are parameters. -/
def mismatchText (signature : Signature) (given : Nat) : String :=
  match signature.missing given with
  | [] =>
    let count := signature.parameters.length
    let verb := if given = 1 then "was" else "were"
    signature.name ++ s!"() takes {count} " ++ arguments count ++ s!" but {given} " ++ verb ++
      " given"
  | missing =>
    signature.name ++ s!"() missing {missing.length} required " ++ arguments missing.length ++
      ": " ++ enumerated (missing.map Text.quoted)

end Signature

end NumericActions
