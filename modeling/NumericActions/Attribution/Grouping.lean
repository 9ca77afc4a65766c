import NumericActions.Attribution.Report
import NumericActions.Grouping.Discipline

/-!
# Grouping for an action

The four ways of grouping numbers, with the name of the action whose arguments they are. The
name goes to the traversal of the arguments, which reports a foreign leaf with it, and to the
parameters. A parameter is looked at without a name; what is wrong with it is then reported
again, behind its index and with the name.

* `Source.collect`: a function on the items as they come, when a fault of the source is turned
  into another failure.
* `collectOnto_of_item`, `collectOnto_of_failed`, `collectOnto_of_ended`: its steps.
* `Attributed.pulled`: the report of a fault that a traversal delivers.
* `Attributed.elementwise` to `Attributed.parameterized`: the four ways.
-/

namespace NumericActions

namespace Source

variable {σ α β ε : Type} (source : Source σ α)

/-- The results of a function on the items as they come, behind those already there, the
last of them first. -/
def collectOnto (turned : Fault → ε) (f : α → Except ε β) (handle : Option σ) (done : List β) :
    Except ε (List β) :=
  match handle with
  | none => .ok done.reverse
  | some s =>
    match _h : source.pull s with
    | .item a rest =>
      match f a with
      | .ok b => collectOnto turned f (some rest) (b :: done)
      | .error e => .error e
    | .failed fault => .error (turned fault)
    | .ended => .ok done.reverse
termination_by source.handleWeight handle
decreasing_by exact Nat.succ_lt_succ (source.weight_lt _h)

def collect (turned : Fault → ε) (f : α → Except ε β) (handle : Option σ) :
    Except ε (List β) :=
  source.collectOnto turned f handle []

section

variable {source} {s rest : σ} {a : α} (turned : Fault → ε) (f : α → Except ε β) (done : List β)

theorem collectOnto_none : source.collectOnto turned f none done = .ok done.reverse := by
  rw [collectOnto]

theorem collectOnto_of_item (h : source.pull s = .item a rest) :
    source.collectOnto turned f (some s) done =
      match f a with
      | .ok b => source.collectOnto turned f (some rest) (b :: done)
      | .error e => .error e := by
  rw [collectOnto]
  split <;> simp_all

theorem collectOnto_of_failed {fault : Fault} (h : source.pull s = .failed fault) :
    source.collectOnto turned f (some s) done = .error (turned fault) := by
  rw [collectOnto]
  split <;> simp_all

theorem collectOnto_of_ended (h : source.pull s = .ended) :
    source.collectOnto turned f (some s) done = .ok done.reverse := by
  rw [collectOnto]
  split <;> simp_all

end

end Source

namespace Attributed

variable {α : Type} (action : Option String)

/-- The report of a fault that is met while the numbers of the arguments are asked for. The
traversal knows the name; a count that is too large is turned down by what knows no name. -/
def pulled (fault : Fault) : Report :=
  match fault with
  | .invalidTerm v => .named action .termType (Fault.invalidTerm v).text
  | other => .unnamed other

def elementwise (f : Number → Except Report α) (terms : List Value) : Except Report (List α) :=
  Cursor.source.collect (pulled action) f (Cursor.opened terms)

def windowed (w : Window) (f : List Number → Except Report α) (terms : List Value) :
    Except Report (List α) :=
  (Cursor.source.windowed w).collect (pulled action) f (some (.start w (Cursor.opened terms)))

def aggregate (f : List Number → Except Report α) (terms : List Value) : Except Report α := do
  f (← Cursor.source.collect (pulled action) .ok (Cursor.opened terms))

/-- Values that must be single numbers, the first of them having the given index. -/
def numbersFrom (index : Nat) : List Value → Except Report (List Number)
  | [] => .ok []
  | v :: vs => do
    match ensureNumber none v with
    | .error report =>
      .error (.named action .termType (s!"parameter #{index} " ++ report.message))
    | .ok n => return n :: (← numbersFrom (index + 1) vs)

def splitParameters (count : Int) (terms : List Value) : Except Report (List Number) :=
  numbersFrom action 0 (leading count terms)

def parameterized (layout : ParameterLayout) (f : List Number → Number → Except Report α)
    (terms : List Value) : Except Report (List α) := do
  let parameters ← splitParameters action layout.count terms
  if layout.skip < 0 ∨ advanceLimit < layout.skip then unnamed (.error (.misuse .skip))
  else
    let skipped := Cursor.source.read layout.skip.toNat (Cursor.opened terms)
    match skipped.stop with
    | .failed fault => .error (pulled action fault)
    | _ => Cursor.source.collect (pulled action) (f parameters) skipped.rest

end Attributed

end NumericActions
