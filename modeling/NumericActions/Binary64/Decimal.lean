import NumericActions.Binary64.Basic

/-!
# Decimal text of binary64 numbers

A finite number is written with the fewest decimal digits that read back as the same
number, and of several such decimals with the nearest one. Reading rounds the written
decimal once, a half-way case going to the even neighbour.

* `Magnitude.shortest`: the digits.
* `DecimalStyle`, `Binary64.text`: where positional writing ends and how an exponent
  is written.
* `Binary64.ofText?`: the reader.
-/

namespace NumericActions

/-- The decimal `digits * 10 ^ exponent`. -/
structure Decimal where
  digits : Nat
  exponent : Int
  deriving DecidableEq

/-! ## The fewest digits that read back -/

namespace Decimal

/-- The units of the 53-bit number nearest to a decimal. -/
def nearestUnits (d : Decimal) : Nat :=
  match d.exponent with
  | .ofNat e => Rounding.roundQuotient (d.digits * Nat.pow 10 e * unitsPerOne) 1
  | .negSucc e => Rounding.roundQuotient (d.digits * unitsPerOne) (Nat.pow 10 (e + 1))

def trimmed (digits : Nat) (exponent : Int) : Decimal :=
  if 0 < digits ∧ digits % 10 = 0 then trimmed (digits / 10) (exponent + 1)
  else ⟨digits, exponent⟩
termination_by digits
decreasing_by omega

end Decimal

def decimalLength (n : Nat) : Nat := (Nat.toDigits 10 n).length

namespace Magnitude

/-- The exponent of the leading decimal digit. One unit is more than `10 ^ (-324)`. -/
def leadingExponent (m : Magnitude) : Int :=
  (decimalLength (m.units * Nat.pow 10 324 / unitsPerOne) : Int) - 325

def decimalQuotient (m : Magnitude) (exponent : Int) : Nat × Nat :=
  match exponent with
  | .ofNat e => (m.units, unitsPerOne * Nat.pow 10 e)
  | .negSucc e => (m.units * Nat.pow 10 (e + 1), unitsPerOne)

/-- The nearer of the two decimals with `count` digits around a magnitude that read
back as it, or none of them. An exact tie goes to the even digit. -/
def readingBack? (m : Magnitude) (count : Nat) : Option Decimal :=
  let exponent := m.leadingExponent - count + 1
  let (num, den) := m.decimalQuotient exponent
  let below : Decimal := ⟨num / den, exponent⟩
  let above : Decimal := ⟨num / den + 1, exponent⟩
  let nearest : Decimal := ⟨Rounding.nearestInt num den, exponent⟩
  match below.nearestUnits == m.units, above.nearestUnits == m.units with
  | true, true => some nearest
  | true, false => some below
  | false, true => some above
  | false, false => none

/-- The shortest decimal that reads back as a positive magnitude. Seventeen digits
always suffice. -/
def shortest (m : Magnitude) : Decimal :=
  match (List.range 17).findSome? (fun k => m.readingBack? (k + 1)) with
  | some d => Decimal.trimmed d.digits d.exponent
  | none => ⟨m.units, 0⟩

end Magnitude

/-! ## Writing -/

/-- How decimals are laid out: positional writing serves leading exponents from
`leastPositional` up to and without `endPositional`, and a written exponent has a sign
and at least `exponentDigits` digits. -/
structure DecimalStyle where
  leastPositional : Int
  endPositional : Int
  exponentDigits : Nat

/-- Decimals are positional from `0.0001` and below `10 ^ 16`; an exponent has two digits
or more. -/
def decimalStyle : DecimalStyle := ⟨-4, 16, 2⟩

namespace Decimal

/-- Digits with a point after the first `places` of them; a whole number keeps one
digit after its point. -/
def positional (digits : List Char) (places : Int) : List Char :=
  match places with
  | .ofNat 0 => '0' :: '.' :: digits
  | .ofNat n =>
    if digits.length ≤ n then
      digits ++ List.replicate (n - digits.length) '0' ++ ['.', '0']
    else digits.take n ++ '.' :: digits.drop n
  | .negSucc n => '0' :: '.' :: List.replicate (n + 1) '0' ++ digits

/-- One digit, the others after a point, and the exponent of the first. -/
def scientific (style : DecimalStyle) (digits : List Char) (leading : Int) : List Char :=
  let exponent := Nat.toDigits 10 leading.natAbs
  let fraction := if digits.length ≤ 1 then [] else '.' :: digits.drop 1
  digits.take 1 ++ fraction ++ 'e' :: (if leading < 0 then '-' else '+') ::
    List.replicate (style.exponentDigits - exponent.length) '0' ++ exponent

def text (style : DecimalStyle) (d : Decimal) : List Char :=
  let digits := Nat.toDigits 10 d.digits
  let leading : Int := d.exponent + digits.length - 1
  if style.leastPositional ≤ leading ∧ leading < style.endPositional then
    positional digits (leading + 1)
  else scientific style digits leading

end Decimal

namespace Binary64

def text : Binary64 → String
  | .nan => "nan"
  | .infinity negative => if negative then "-inf" else "inf"
  | .finite negative m =>
    let digits := if m.units = 0 then "0.0".toList else m.shortest.text decimalStyle
    String.ofList (if negative then '-' :: digits else digits)

/-! ## Reading -/

def digitsValue (digits : List Char) : Nat :=
  digits.foldl (fun value c => 10 * value + (c.toNat - '0'.toNat)) 0

def readNat? (digits : List Char) : Option Nat :=
  if digits.isEmpty || !digits.all Char.isDigit then none else some (digitsValue digits)

/-- An optional exponent: the letter, a sign and digits. -/
def readExponent? : List Char → Option Int
  | [] => some 0
  | 'e' :: '-' :: digits => (readNat? digits).map fun n => -(n : Int)
  | 'e' :: '+' :: digits => (readNat? digits).map fun n => (n : Int)
  | _ => none

/-- Digits, an optional fraction and an optional exponent. -/
def readMagnitude? (negative : Bool) (cs : List Char) : Option Binary64 :=
  let whole := cs.takeWhile Char.isDigit
  let rest := cs.dropWhile Char.isDigit
  let (fraction, rest) := match rest with
    | '.' :: more => (more.takeWhile Char.isDigit, more.dropWhile Char.isDigit)
    | _ => ([], rest)
  if whole.isEmpty then none
  else (readExponent? rest).map fun exponent =>
    ofDecimal negative (digitsValue (whole ++ fraction)) (exponent - fraction.length)

def ofText? (text : String) : Option Binary64 :=
  match text.toList with
  | ['n', 'a', 'n'] => some .nan
  | ['i', 'n', 'f'] => some (.infinity false)
  | ['-', 'i', 'n', 'f'] => some (.infinity true)
  | '-' :: cs => readMagnitude? true cs
  | cs => readMagnitude? false cs

end Binary64

end NumericActions
