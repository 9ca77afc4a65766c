import NumericActions.Binary64.Basic

/-!
# Binary64 arithmetic

Every operation is computed exactly in units and rounded once, a half-way case going to
the even neighbour. Nothing fails: an undefined result is not-a-number and a result out
of range is an infinity.
-/

namespace NumericActions.Binary64

/-! ## Sign -/

def neg : Binary64 → Binary64
  | .nan => .nan
  | .infinity negative => .infinity (!negative)
  | .finite negative m => .finite (!negative) m

def abs : Binary64 → Binary64
  | .nan => .nan
  | .infinity _ => .infinity false
  | .finite _ m => .finite false m

/-- One, zero or minus one by the sign of the value. -/
def signum : Binary64 → Binary64
  | .nan => .nan
  | .infinity negative => if negative then ofInt (-1) else ofInt 1
  | .finite negative m =>
    if m.units = 0 then zero false else if negative then ofInt (-1) else ofInt 1

/-! ## The four operations -/

/-- The nearest binary64 number to an integral number of units. A sum that cancels has
the sign of its addends if they agree, and is positive otherwise. -/
def ofSignedUnits (zeroSign : Bool) (units : Int) : Binary64 :=
  if units = 0 then zero zeroSign else rounded (units < 0) units.natAbs 1

def add : Binary64 → Binary64 → Binary64
  | .finite s a, .finite t b => ofSignedUnits (s && t) (signedUnits s a + signedUnits t b)
  | .infinity s, .infinity t => if s = t then .infinity s else .nan
  | .nan, _ => .nan
  | _, .nan => .nan
  | .infinity s, .finite _ _ => .infinity s
  | .finite _ _, .infinity t => .infinity t

def sub (a b : Binary64) : Binary64 := a.add b.neg

def mul : Binary64 → Binary64 → Binary64
  | .nan, _ => .nan
  | _, .nan => .nan
  | .infinity s, .infinity t => .infinity (s != t)
  | .infinity s, .finite t m => if m.units = 0 then .nan else .infinity (s != t)
  | .finite s m, .infinity t => if m.units = 0 then .nan else .infinity (s != t)
  | .finite s a, .finite t b => rounded (s != t) (a.units * b.units) unitsPerOne

def div : Binary64 → Binary64 → Binary64
  | .nan, _ => .nan
  | _, .nan => .nan
  | .infinity _, .infinity _ => .nan
  | .infinity s, .finite t _ => .infinity (s != t)
  | .finite s _, .infinity t => zero (s != t)
  | .finite s a, .finite t b =>
    if b.units = 0 then (if a.units = 0 then .nan else .infinity (s != t))
    else rounded (s != t) (a.units * unitsPerOne) b.units

instance : Add Binary64 := ⟨add⟩
instance : Sub Binary64 := ⟨sub⟩
instance : Mul Binary64 := ⟨mul⟩
instance : Div Binary64 := ⟨div⟩
instance : Neg Binary64 := ⟨neg⟩

/-! ## Roots -/

def sqrt : Binary64 → Binary64
  | .nan => .nan
  | .infinity negative => if negative then .nan else .infinity false
  | .finite negative m =>
    if m.units = 0 then .finite negative m
    else if negative then .nan
    else roundedRoot (m.units * unitsPerOne)

/-- The length of the hypotenuse, rounded once. An infinite side decides, even beside
not-a-number. -/
def hypot : Binary64 → Binary64 → Binary64
  | .infinity _, _ => .infinity false
  | _, .infinity _ => .infinity false
  | .nan, _ => .nan
  | _, .nan => .nan
  | .finite _ a, .finite _ b => roundedRoot (a.units * a.units + b.units * b.units)

/-! ## Whole numbers -/

def floorInt (negative : Bool) (m : Magnitude) : Int :=
  (signedUnits negative m).fdiv unitsPerOne

def truncInt (negative : Bool) (m : Magnitude) : Int :=
  (signedUnits negative m).tdiv unitsPerOne

/-- Rounding down to a whole number, which keeps the sign of a zero. -/
def floor : Binary64 → Binary64
  | .finite negative m => rounded negative ((floorInt negative m).natAbs * unitsPerOne) 1
  | x => x

/-- Rounding up to a whole number; a result of zero keeps the sign of its argument. -/
def ceil (x : Binary64) : Binary64 := x.neg.floor.neg

def isWhole : Binary64 → Bool
  | .finite _ m => m.units % unitsPerOne = 0
  | _ => false

/-! ## Approximate equality -/

def relativeTolerance : Binary64 := 1e-9

def absoluteTolerance : Binary64 := 1e-12

/-- `a` and `b` agree up to the larger of `relative` times either value and `absolute`.
Not-a-number is close to itself alone and an infinity only to itself. There is no answer
for a negative tolerance, unless not-a-number has decided before. -/
def isClose? (a b relative absolute : Binary64) : Option Bool :=
  if a.isNaN || b.isNaN then some (a.isNaN && b.isNaN)
  else if relative.lt (zero false) || absolute.lt (zero false) then none
  else if a.eq b then some true
  else if a.isInfinite || b.isInfinite then some false
  else
    let difference := (b - a).abs
    some (difference.le (relative * b).abs || difference.le (relative * a).abs ||
      difference.le absolute)

end NumericActions.Binary64
