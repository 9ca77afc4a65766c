import NumericActions.Rounding

/-!
# Binary64 numbers

A finite binary64 number is a sign and a whole number of units of `2 ^ (-1074)`, the
smallest positive one. A whole number of units is a magnitude when it has at most 53
significant bits and is less than `2 ^ 2098`. All arithmetic on these numbers is exact
integer arithmetic followed by one rounding.

* `Binary64.ofBits`, `Binary64.bits`: the interchange format.
* `Binary64.position`, `Position.lt`: the exact place of a number on the extended line;
  the two zeros share a place and not-a-number has none.
* `Binary64.rounded`: the nearest binary64 number to a quotient of units.
-/

namespace NumericActions

/-! ## The type -/

/-- Every magnitude is less than this many units; it is `2 ^ 1024`. -/
def magnitudeLimit : Nat := Nat.pow 2 2098

theorem magnitudeLimit_pos : 0 < magnitudeLimit := by
  decide +kernel

def unitsPerOne : Nat := Nat.pow 2 1074

theorem unitsPerOne_pos : 0 < unitsPerOne := by
  decide +kernel

/-- The absolute value of a finite binary64 number. -/
structure Magnitude where
  units : Nat
  onGrid : Rounding.OnGrid units
  inRange : units < magnitudeLimit
  deriving DecidableEq

/-- A binary64 number. There is a single not-a-number, and zero has a sign. -/
inductive Binary64 where
  | nan
  | infinity (negative : Bool)
  | finite (negative : Bool) (magnitude : Magnitude)
  deriving DecidableEq

namespace Binary64

/-- A 53-bit number of units, or the infinity of that sign when it is out of range. -/
def ofUnits (negative : Bool) (units : Nat) (h : Rounding.OnGrid units) : Binary64 :=
  if hr : units < magnitudeLimit then .finite negative ⟨units, h, hr⟩ else .infinity negative

/-- The nearest binary64 number to `num / den` units. -/
def rounded (negative : Bool) (num den : Nat) : Binary64 :=
  ofUnits negative (Rounding.roundQuotient num den) (Rounding.onGrid_roundQuotient num den)

/-- The nearest binary64 number to the square root of `radicand` squared units. -/
def roundedRoot (radicand : Nat) : Binary64 :=
  ofUnits false (Rounding.roundRoot radicand) (Rounding.onGrid_roundRoot radicand)

def zero (negative : Bool) : Binary64 :=
  .finite negative ⟨0, Rounding.onGrid_of_lt (Nat.two_pow_pos _), magnitudeLimit_pos⟩

/-- The nearest binary64 number to `digits * 10 ^ exponent`. -/
def ofDecimal (negative : Bool) (digits : Nat) (exponent : Int) : Binary64 :=
  match exponent with
  | .ofNat e => rounded negative (digits * Nat.pow 10 e * unitsPerOne) 1
  | .negSucc e => rounded negative (digits * unitsPerOne) (Nat.pow 10 (e + 1))

/-- The nearest binary64 number to an integer; an infinity when it is out of range. -/
def ofInt (n : Int) : Binary64 := rounded (n < 0) (n.natAbs * unitsPerOne) 1

instance (n : Nat) : OfNat Binary64 n := ⟨ofInt n⟩

instance : OfScientific Binary64 where
  ofScientific digits negativeExponent exponent :=
    ofDecimal false digits (if negativeExponent then -exponent else exponent)

def isNaN : Binary64 → Bool
  | .nan => true
  | _ => false

def isInfinite : Binary64 → Bool
  | .infinity _ => true
  | _ => false

def isFinite : Binary64 → Bool
  | .finite _ _ => true
  | _ => false

def signedUnits (negative : Bool) (magnitude : Magnitude) : Int :=
  if negative then -(magnitude.units : Int) else magnitude.units

/-! ## The interchange format -/

/-- The magnitude part of the word: a power of two is added for every bit that the
units exceed 53. -/
def Magnitude.word (m : Magnitude) : Nat :=
  let scale := m.units.log2 - 52
  scale * Nat.pow 2 52 + m.units / Nat.pow 2 scale

/-- The highest of 64 bits, which is set in the word of a negative number. -/
def signBit : Nat := 0x8000000000000000

/-- The 64-bit word of a number; not-a-number is the quiet one without sign. -/
def bits : Binary64 → Nat
  | .nan => 0x7ff8000000000000
  | .infinity negative => (if negative then signBit else 0) + 0x7ff0000000000000
  | .finite negative m => (if negative then signBit else 0) + Magnitude.word m

def ofBits (word : Nat) : Binary64 :=
  let negative := decide (signBit ≤ word)
  let exponent := word / Nat.pow 2 52 % 2048
  let fraction := word % Nat.pow 2 52
  if exponent = 0 then rounded negative fraction 1
  else if exponent < 2047 then
    rounded negative ((Nat.pow 2 52 + fraction) * Nat.pow 2 (exponent - 1)) 1
  else if fraction = 0 then .infinity negative
  else .nan

end Binary64

/-! ## Order -/

/-- A place on the extended line, in units of `2 ^ (-1074)`. -/
inductive Position where
  | negInfinity
  | units (count : Int)
  | posInfinity
  deriving DecidableEq

namespace Position

def lt : Position → Position → Bool
  | .negInfinity, .negInfinity => false
  | .negInfinity, _ => true
  | .units a, .units b => a < b
  | .units _, .posInfinity => true
  | _, _ => false

end Position

namespace Binary64

/-- The exact place of a number; not-a-number has none. -/
def position : Binary64 → Option Position
  | .nan => none
  | .infinity negative => some (if negative then .negInfinity else .posInfinity)
  | .finite negative m => some (.units (signedUnits negative m))

/-- `a < b`; no comparison with not-a-number holds. -/
def lt (a b : Binary64) : Bool :=
  match a.position, b.position with
  | some p, some q => p.lt q
  | _, _ => false

/-- `a = b` as numbers: the two zeros are equal, and not-a-number equals nothing. -/
def eq (a b : Binary64) : Bool :=
  match a.position, b.position with
  | some p, some q => p == q
  | _, _ => false

/-- `a ≤ b`; no comparison with not-a-number holds. -/
def le (a b : Binary64) : Bool := a.lt b || a.eq b

end Binary64

end NumericActions
