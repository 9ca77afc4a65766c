import NumericActions.Term.Leaves
import NumericActions.Fault.Basic

/-!
# Feeds

A feed is all that is delivered one by one: the items in order, and then an end that is
normal or a fault. The first problem in that order is the outcome of a computation over a
feed: a failing item wins over the fault at the end.

* `Feed.ofTerms`: the numbers of terms, with a foreign leaf as the fault.
* `Feed.mapM`: a function on the items, and then the end.
* `Feed.mapM_eq_ok_iff`: all items succeed and the feed ends normally.
* `Feed.mapM_of_fault`: a feed that ends with a fault never succeeds.
-/

namespace NumericActions

structure Feed (α : Type) where
  items : List α
  fault : Option Fault

namespace Feed

variable {α β : Type}

def empty : Feed α := ⟨[], none⟩

def cons (a : α) (feed : Feed α) : Feed α := ⟨a :: feed.items, feed.fault⟩

/-- The numbers of terms; a foreign leaf is a fault at its place. -/
def ofLeaves (leaves : Leaves) : Feed Number :=
  ⟨leaves.numbers, leaves.foreign.map .invalidTerm⟩

def ofTerms (terms : List Value) : Feed Number := ofLeaves (Value.leavesOfAll terms)

def toList (feed : Feed α) : Except Fault (List α) :=
  match feed.fault with
  | none => .ok feed.items
  | some fault => .error fault

def mapM (f : α → Except Fault β) (feed : Feed α) : Except Fault (List β) := do
  let results ← feed.items.mapM f
  match feed.fault with
  | none => .ok results
  | some fault => .error fault

def drop (count : Nat) (feed : Feed α) : Feed α := ⟨feed.items.drop count, feed.fault⟩

theorem mapM_cons (f : α → Except Fault β) (a : α) (feed : Feed α) :
    (feed.cons a).mapM f = do return (← f a) :: (← feed.mapM f) := by
  unfold mapM cons
  rw [List.mapM_cons]
  cases f a with
  | error e => rfl
  | ok b =>
    simp only [bind, Except.bind, pure, Except.pure]
    cases feed.items.mapM f with
    | error e => rfl
    | ok bs => cases feed.fault <;> rfl

theorem mapM_ok (feed : Feed α) : feed.mapM .ok = feed.toList := by
  have h : feed.items.mapM (Except.ok : α → Except Fault α) = .ok feed.items := by
    induction feed.items with
    | nil => rfl
    | cons a items ih => rw [List.mapM_cons, ih]; rfl
  unfold mapM toList
  rw [h]
  rfl

theorem mapM_eq_ok_iff {f : α → Except Fault β} {feed : Feed α} {results : List β} :
    feed.mapM f = .ok results ↔ feed.items.mapM f = .ok results ∧ feed.fault = none := by
  unfold mapM
  cases h : feed.items.mapM f with
  | error e => simp [bind, Except.bind]
  | ok rs => cases feed.fault <;> simp [bind, Except.bind]

theorem mapM_of_fault {f : α → Except Fault β} {feed : Feed α} {fault : Fault}
    (h : feed.fault = some fault) (results : List β) : feed.mapM f ≠ .ok results := by
  intro hr
  rw [mapM_eq_ok_iff, h] at hr
  cases hr.2

end Feed

end NumericActions
