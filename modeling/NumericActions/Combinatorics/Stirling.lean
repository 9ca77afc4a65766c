import NumericActions.Combinatorics.Binomial

/-!
# Stirling numbers of the second kind

The number of ways to divide `n` things into `k` groups that are not empty. It is
computed row by row with the recurrence `S(i, j) = j * S(i - 1, j) + S(i - 1, j - 1)`,
but only in the band of columns on which `S(n, k)` depends. No number in the band is
greater than `S(n, k)`, so the first that does not fit in 64 bits decides the outcome.

* `Band.cell`: a row of the band as a function of the column, zero outside the band.
* `Band.get`: the number in a column of the band.
* `Band.next`: the recurrence.
* `stirling`: the number, with direct answers at the edges.
-/

namespace NumericActions

/-- The part of a row from the column `low` on. -/
structure Band where
  low : Nat
  cells : List Nat

namespace Band

def cell (band : Band) (j : Nat) : Nat :=
  if j < band.low then 0 else (band.cells[j - band.low]?).getD 0

/-- The number in a column, which must belong to the band. -/
def get (band : Band) (j : Nat) : Except Fault Nat :=
  if band.low ≤ j then
    match band.cells[j - band.low]? with
    | some value => .ok value
    | none => .error (.missingColumn j)
  else .error (.missingColumn j)

def first : Band := ⟨1, [1]⟩

/-- The columns of row `i` on which `S(n, k)` depends. -/
def columns (n k i : Nat) : List Nat :=
  let low := max 1 (i - (n - k))
  List.range' low (min i k + 1 - low)

/-- One number of the next row, which must fit in 64 bits. -/
def nextCell (quantity : Quantity) (band : Band) (j : Nat) : Except Fault Nat := do
  let value := j * band.cell j + band.cell (j - 1)
  Check.fitsInt64 quantity (.int value)
  return value

def next (quantity : Quantity) (n k i : Nat) (band : Band) : Except Fault Band := do
  let cells ← (columns n k i).mapM (nextCell quantity band)
  return ⟨max 1 (i - (n - k)), cells⟩

/-- So many rows from the row `i` on. -/
def rows (quantity : Quantity) (n k : Nat) : (steps i : Nat) → Band → Except Fault Band
  | 0, _, band => .ok band
  | steps + 1, i, band => do
    rows quantity n k steps (i + 1) (← band.next quantity n k i)

end Band

/-- The Stirling number of the second kind. Next to the diagonal it is a binomial
coefficient and fails as that does. -/
def stirling (n k : Int) : Except Fault Int := do
  requireIndices n k
  if n < k then .ok 0
  else if k = 0 then .ok (if n = 0 then 1 else 0)
  else if k = n ∨ k = 1 then .ok 1
  else if k = n - 1 then binomial n 2
  else
    let band ← Band.rows (.stirling n k) n.toNat k.toNat (n.toNat - 1) 2 Band.first
    let result ← band.get k.toNat
    return result

end NumericActions
