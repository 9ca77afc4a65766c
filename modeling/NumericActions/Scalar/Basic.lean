import NumericActions.Scalar.Elementary
import NumericActions.Fault.Strict

/-!
# Scalar functions

Functions of binary64 numbers. Outside its domain a function is not-a-number and beyond
the range it is an infinity. Only rounding to an integer uses strict arithmetic.

* `FloatFunction`: the functions of one variable, by name.
* `roundHalfUp`: rounding to an integer, a half going up.
* `power`, `sigmoid`: functions with parameters.
-/

namespace NumericActions

/-- The functions of one variable, in the order of their names. -/
inductive FloatFunction where
  | abs | acos | asin | atan | ceil | cos | cosh | degrees | exp | floor | log | log10
  | radians | signum | sin | sinh | sqrt | tan | tanh
  deriving DecidableEq

namespace FloatFunction

def all : List FloatFunction :=
  [.abs, .acos, .asin, .atan, .ceil, .cos, .cosh, .degrees, .exp, .floor, .log, .log10,
   .radians, .signum, .sin, .sinh, .sqrt, .tan, .tanh]

def name : FloatFunction → String
  | .abs => "abs"
  | .acos => "acos"
  | .asin => "asin"
  | .atan => "atan"
  | .ceil => "ceil"
  | .cos => "cos"
  | .cosh => "cosh"
  | .degrees => "degrees"
  | .exp => "exp"
  | .floor => "floor"
  | .log => "log"
  | .log10 => "log10"
  | .radians => "radians"
  | .signum => "signum"
  | .sin => "sin"
  | .sinh => "sinh"
  | .sqrt => "sqrt"
  | .tan => "tan"
  | .tanh => "tanh"

theorem mem_all (f : FloatFunction) : f ∈ all := by
  cases f <;> decide

def degreesPerRadian : Binary64 := 57.29577951308232

def radiansPerDegree : Binary64 := 0.017453292519943295

def apply (library : Elementary) : FloatFunction → Binary64 → Binary64
  | .abs => Binary64.abs
  | .acos => library.acos
  | .asin => library.asin
  | .atan => library.atan
  | .ceil => Binary64.ceil
  | .cos => library.cos
  | .cosh => library.cosh
  | .degrees => (· * degreesPerRadian)
  | .exp => library.exp
  | .floor => Binary64.floor
  | .log => library.log
  | .log10 => library.log10
  | .radians => (· * radiansPerDegree)
  | .signum => Binary64.signum
  | .sin => library.sin
  | .sinh => library.sinh
  | .sqrt => Binary64.sqrt
  | .tan => library.tan
  | .tanh => library.tanh

end FloatFunction

/-- The nearest integer, a half going up: one is added to the integer below when the
binary64 difference from it is at least a half. A number that is not finite stays. -/
def roundHalfUp (x : Binary64) : Except Fault Number :=
  match x with
  | .finite negative m => do
    let whole := Binary64.floorInt negative m
    let fraction := x - (← Strict.ofInt whole)
    return .int (whole + if Binary64.le 0.5 fraction then 1 else 0)
  | x => .ok (.float x)

/-- `base` to the power of `exponent`; an exponent of exactly one half is a square
root. -/
def power (library : Elementary) (exponent base : Binary64) : Binary64 :=
  if exponent.eq 0.5 then base.sqrt else library.pow base exponent

def sigmoid (library : Elementary) (alpha beta gamma t : Binary64) : Binary64 :=
  alpha / (beta + library.exp (-gamma * t))

end NumericActions
