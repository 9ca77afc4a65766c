/-!
# A cycle search for divisors

The map `y ↦ y * y + c` modulo `n` runs into a cycle, and it does so modulo a divisor
of `n` earlier than modulo `n`. Two values that agree modulo a divisor show it by the
greatest common divisor of their difference and `n`.

The search keeps a value `x` fixed while it advances `y`, doubling the distance each
round, and multiplies the differences of a batch before it takes one common divisor. When
a batch yields `n` itself, its steps are taken again one by one.

* `Rho.search?`: the search with one constant.
* `Rho.divisor?`: the search over the constants `1, 2, …` for a proper divisor.
-/

namespace NumericActions.Rho

/-- The number of differences that are multiplied before a common divisor is taken. -/
def batchSize : Nat := 128

def step (n c y : Nat) : Nat := (y * y + c) % n

def advance (n c : Nat) : (steps y : Nat) → Nat
  | 0, y => y
  | steps + 1, y => advance n c steps (step n c y)

def distance (x y : Nat) : Nat := if x < y then y - x else x - y

/-- So many steps from `y`, with the differences from `x` multiplied into `product`. -/
def batch (n c x : Nat) : (steps y product : Nat) → Nat × Nat
  | 0, y, product => (y, product)
  | steps + 1, y, product =>
    let y := step n c y
    batch n c x steps y (product * distance x y % n)

/-- The place of a search after a batch. -/
structure Place where
  /-- the value before the batch -/
  start : Nat
  y : Nat
  product : Nat
  /-- the common divisor of the product and the number -/
  divisor : Nat

/-- At most so many batches over a stretch of `left` steps, until a common divisor
appears. -/
def stretch (n c x : Nat) : (batches left : Nat) → Place → Place
  | 0, _, place => place
  | batches + 1, left, place =>
    if left = 0 ∨ place.divisor ≠ 1 then place
    else
      let (y, product) := batch n c x (min batchSize left) place.y place.product
      stretch n c x batches (left - batchSize) ⟨place.y, y, product, Nat.gcd product n⟩

/-- At most so many rounds, until a common divisor appears. A round fixes `x`, passes
over as many values as it will compare, and compares them. The result is the last
`x` and the place. -/
def rounds (n c : Nat) : (count length : Nat) → (x : Nat) → Place → Nat × Place
  | 0, _, x, place => (x, place)
  | count + 1, length, x, place =>
    if place.divisor ≠ 1 then (x, place)
    else
      let x := place.y
      let passed := advance n c length place.y
      let place := stretch n c x (length / batchSize + 1) length
        ⟨place.start, passed, place.product, place.divisor⟩
      rounds n c count (2 * length) x place

/-- At most so many single steps from `y`, until the difference from `x` has a common
divisor with the number. -/
def replay (n c x : Nat) : (steps y : Nat) → Nat
  | 0, _ => n
  | steps + 1, y =>
    let y := step n c y
    let divisor := Nat.gcd (distance x y) n
    if divisor ≠ 1 then divisor else replay n c x steps y

/-- The common divisor that the search with the constant `c` comes upon. The values
repeat within `n` steps, so the length of a round need not grow beyond the first power
of two that is greater. -/
def search? (n c : Nat) : Nat :=
  let (x, place) := rounds n c (n.log2 + 2) 1 2 ⟨2, 2, 1, 1⟩
  if place.divisor = n then replay n c x batchSize place.start else place.divisor

/-- A divisor of `n` other than one and `n`, from so many constants beginning with
`c`. -/
def divisorFrom? (n : Nat) : (constants c : Nat) → Option Nat
  | 0, _ => none
  | constants + 1, c =>
    let d := search? n c
    if 1 < d ∧ d < n ∧ n % d = 0 then some d else divisorFrom? n constants (c + 1)

def divisor? (n : Nat) : Option Nat := divisorFrom? n n 1

theorem divisorFrom?_proper {n constants c d : Nat}
    (h : divisorFrom? n constants c = some d) : 1 < d ∧ d < n ∧ n % d = 0 := by
  induction constants generalizing c with
  | zero => cases h
  | succ constants ih =>
    simp only [divisorFrom?] at h
    split at h
    · cases h
      assumption
    · exact ih h

theorem divisor?_proper {n d : Nat} (h : divisor? n = some d) : 1 < d ∧ d < n ∧ n % d = 0 :=
  divisorFrom?_proper h

end NumericActions.Rho
