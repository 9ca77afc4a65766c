import NumericActions.Binary64.Arithmetic

/-!
# Elementary functions

The transcendental functions are taken from a mathematics library, which is a parameter
of everything that uses them.

* `Elementary`: the functions of a library.
* `Elementary.native`: those of the machine.
-/

namespace NumericActions

structure Elementary where
  exp : Binary64 → Binary64
  log : Binary64 → Binary64
  log10 : Binary64 → Binary64
  sin : Binary64 → Binary64
  cos : Binary64 → Binary64
  tan : Binary64 → Binary64
  asin : Binary64 → Binary64
  acos : Binary64 → Binary64
  atan : Binary64 → Binary64
  sinh : Binary64 → Binary64
  cosh : Binary64 → Binary64
  tanh : Binary64 → Binary64
  /-- `pow base exponent` -/
  pow : Binary64 → Binary64 → Binary64

namespace Binary64

def toFloat (x : Binary64) : Float := Float.ofBits (UInt64.ofNat x.bits)

def ofFloat (x : Float) : Binary64 := ofBits x.toBits.toNat

end Binary64

namespace Elementary

def unary (f : Float → Float) (x : Binary64) : Binary64 := .ofFloat (f x.toFloat)

def native : Elementary where
  exp := unary Float.exp
  log := unary Float.log
  log10 := unary Float.log10
  sin := unary Float.sin
  cos := unary Float.cos
  tan := unary Float.tan
  asin := unary Float.asin
  acos := unary Float.acos
  atan := unary Float.atan
  sinh := unary Float.sinh
  cosh := unary Float.cosh
  tanh := unary Float.tanh
  pow base exponent := .ofFloat (Float.pow base.toFloat exponent.toFloat)

end Elementary

end NumericActions
