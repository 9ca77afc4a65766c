import NumericActions.Summation.Expansion
import NumericActions.Fault.Basic

/-!
# Exact summation

The sum of finite numbers is exact and rounded once, so the order of the addends does
not show in the result of a pass. Special addends decide among themselves: not-a-number or
infinities of both signs give not-a-number, and otherwise the infinity is the sum.

An expansion of the addends can overflow although their sum is in range. The addends
are then scaled down, summed again and scaled back; whether that happens depends on their
order.

* `Specials`: the special addends seen so far.
* `sumOnce`: one pass; it has no result when an expansion overflows.
* `sum`: the sum with its second pass.
-/

namespace NumericActions

structure Specials where
  nan : Bool
  positive : Bool
  negative : Bool
  deriving DecidableEq

namespace Specials

def none : Specials := ⟨false, false, false⟩

def add (s : Specials) : Binary64 → Specials
  | .nan => { s with nan := true }
  | .infinity false => { s with positive := true }
  | .infinity true => { s with negative := true }
  | .finite _ _ => s

def sum? (s : Specials) : Option Binary64 :=
  if s.nan || (s.positive && s.negative) then some .nan
  else if s.positive then some (.infinity false)
  else if s.negative then some (.infinity true)
  else Option.none

end Specials

/-- The expansion of the finite addends and the special addends; a special addend starts
the expansion anew. -/
def expand : List Int → Specials → List Binary64 → Option (List Int × Specials)
  | parts, specials, [] => some (parts, specials)
  | parts, specials, .finite negative m :: rest =>
    match Expansion.grow (Binary64.signedUnits negative m) parts with
    | some grown => expand grown specials rest
    | none => none
  | _, specials, x :: rest => expand [] (specials.add x) rest

def sumOnce (addends : List Binary64) : Option Binary64 :=
  match expand [] Specials.none addends with
  | none => none
  | some (parts, specials) =>
    some ((specials.sum?).getD (Binary64.ofSignedUnits false (Expansion.value parts)))

def downscale : Binary64 := Binary64.rounded false (Nat.pow 2 1010) 1

def upscale : Binary64 := Binary64.ofInt (Nat.pow 2 64)

/-- The sum of numbers. A second overflow is a fault. -/
def sum (addends : List Binary64) : Except Fault Binary64 :=
  match sumOnce addends with
  | some total => .ok total
  | none =>
    match sumOnce (addends.map (· * downscale)) with
    | some total => .ok (total * upscale)
    | none => .error (.range .sum)

end NumericActions
