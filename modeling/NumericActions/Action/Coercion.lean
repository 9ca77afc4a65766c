import NumericActions.Action.Name
import NumericActions.Fault.Check
import NumericActions.Text.Blank

/-!
# Fields and coercions

The fields of a specification may be given as values of other types than their own. A
coercion finds the value that is meant, or gives a cause why there is none. What it finds is
then held against the same conditions, whatever the coercion takes.

* `FieldCause.text`, `FieldCause.code`: the wording and the short name of a cause.
* `Coercion.lax`: the coercion by which specifications are read.
* `Coercion.KeepsPlain`: a value of the type of a field is the value that is meant.
* `Coercion.name`, `Coercion.natural`: names and natural numbers, by any coercion.
-/

namespace NumericActions

/-! ## Disciplines -/

inductive Discipline where
  | elementwise
  | windowed
  | aggregate
  | parameterized
  deriving DecidableEq

namespace Discipline

def all : List Discipline := [.elementwise, .windowed, .aggregate, .parameterized]

def name : Discipline → String
  | .elementwise => "elementwise"
  | .windowed => "windowed"
  | .aggregate => "aggregate"
  | .parameterized => "parameterized"

def of? (text : String) : Option Discipline := all.find? fun d => d.name = text

theorem of?_name (d : Discipline) : of? d.name = some d := by
  cases d <;> decide

end Discipline

/-! ## Field errors -/

inductive FieldCause where
  | missing
  | notText
  | emptyText
  /-- a name with a part that is not a segment -/
  | badSegment (segment name : String)
  | notInteger
  /-- a text that is not an integer -/
  | unreadableInteger
  /-- an integral float beyond the 64-bit integers -/
  | tooWideInteger
  | fractional
  | notFinite
  | negative
  | notADiscipline
  /-- a change of a finished specification -/
  | frozen

namespace FieldCause

def text : FieldCause → String
  | .missing => "Field required"
  | .notText => "Input should be a valid string"
  | .emptyText => "String should have at least 1 character"
  | .badSegment segment name =>
    "Value error, invalid action name segment " ++ Text.quoted segment ++ " in " ++
      Text.quoted name
  | .notInteger => "Input should be a valid integer"
  | .unreadableInteger =>
    "Input should be a valid integer, unable to parse string as an integer"
  | .tooWideInteger =>
    "Unable to parse input string as an integer, exceeded maximum size"
  | .fractional => "Input should be a valid integer, got a number with a fractional part"
  | .notFinite => "Input should be a finite number"
  | .negative => "Input should be greater than or equal to 0"
  | .notADiscipline =>
    "Input should be 'elementwise', 'windowed', 'aggregate' or 'parameterized'"
  | .frozen => "Instance is frozen"

/-- The short name of a cause, by which a host can tell it from others. -/
def code : FieldCause → String
  | .missing => "missing"
  | .notText => "string_type"
  | .emptyText => "string_too_short"
  | .badSegment _ _ => "value_error"
  | .notInteger => "int_type"
  | .unreadableInteger => "int_parsing"
  | .tooWideInteger => "int_parsing_size"
  | .fractional => "int_from_float"
  | .notFinite => "finite_number"
  | .negative => "greater_than_equal"
  | .notADiscipline => "enum"
  | .frozen => "frozen_instance"

end FieldCause

structure FieldError where
  field : String
  cause : FieldCause

def FieldError.text (e : FieldError) : String := e.field ++ ": " ++ e.cause.text

def FieldError.joined (errors : List FieldError) : String :=
  "; ".intercalate (errors.map FieldError.text)

/-! ## Reading fields -/

namespace Field

def text : Value → Except FieldCause String
  | .text s => .ok s
  | _ => .error .notText

/-- The integer that a text of digits is, with a sign and blanks around it allowed. -/
def integerOfText (s : String) : Except FieldCause Int :=
  match Text.trimmed s.toList with
  | '-' :: digits => (natural digits).map fun n => -(n : Int)
  | '+' :: digits => (natural digits).map fun n => (n : Int)
  | digits => (natural digits).map fun n => (n : Int)
where
  natural (digits : List Char) : Except FieldCause Nat :=
    if !digits.isEmpty && digits.all Char.isDigit then
      .ok (digits.foldl (fun n c => 10 * n + (c.toNat - '0'.toNat)) 0)
    else .error .unreadableInteger

/-- The integer that a float is. It must lie strictly between the powers of two that
bound the 64-bit integers. -/
def integerOfFloat (x : Binary64) : Except FieldCause Int :=
  match x with
  | .finite negative m =>
    let n := Binary64.truncInt negative m
    if !x.isWhole then .error .fractional
    else if int64Min < n ∧ n ≤ int64Max then .ok n
    else .error .tooWideInteger
  | _ => .error .notFinite

/-- The integer that a value stands for. A truth value counts as zero or one. -/
def integer : Value → Except FieldCause Int
  | .number (.int n) => .ok n
  | .number (.float x) => integerOfFloat x
  | .bool b => .ok (if b then 1 else 0)
  | .text s => integerOfText s
  | _ => .error .notInteger

def discipline : Value → Except FieldCause Discipline
  | .text s =>
    match Discipline.of? s with
    | some d => .ok d
    | none => .error .notADiscipline
  | _ => .error .notADiscipline

end Field

/-! ## Coercions -/

structure Coercion where
  text : Value → Except FieldCause String
  integer : Value → Except FieldCause Int
  discipline : Value → Except FieldCause Discipline

namespace Coercion

/-- Only texts are texts, and only the names of disciplines are disciplines; an integer may
also be given as a truth value, as an integral float or by its digits. -/
def lax : Coercion := ⟨Field.text, Field.integer, Field.discipline⟩

structure KeepsPlain (coercion : Coercion) : Prop where
  text : ∀ s, coercion.text (.text s) = .ok s
  integer : ∀ n, coercion.integer (.int n) = .ok n
  discipline : ∀ d, coercion.discipline (.text d.name) = .ok d

theorem lax_keepsPlain : lax.KeepsPlain := by
  refine ⟨fun _ => rfl, fun _ => rfl, fun d => ?_⟩
  simp only [lax, Field.discipline, Discipline.of?_name]

/-- A name, which is not empty and has no wrong segment. -/
def name (coercion : Coercion) (v : Value) : Except FieldCause ActionName := do
  let s ← coercion.text v
  if s.isEmpty then .error .emptyText
  else (ActionName.of? s).mapError fun segment => .badSegment segment s

def natural (coercion : Coercion) (v : Value) : Except FieldCause Nat := do
  let n ← coercion.integer v
  if n < 0 then .error .negative else .ok n.toNat

end Coercion

namespace Field

def name (v : Value) : Except FieldCause ActionName := Coercion.lax.name v

theorem name_text (s : String) :
    name (.text s) =
      if s.isEmpty then .error .emptyText
      else (ActionName.of? s).mapError fun segment => .badSegment segment s := rfl

/-- The value of a field, or the outcome of its absence. -/
def find {α : Type} (absent : Except FieldCause α) (read : Value → Except FieldCause α)
    (fields : List (String × Value)) (field : String) : Except FieldError α :=
  ((fields.lookup field).elim absent read).mapError fun cause => ⟨field, cause⟩

def error? {α : Type} : Except FieldError α → List FieldError
  | .ok _ => []
  | .error e => [e]

end Field

end NumericActions
