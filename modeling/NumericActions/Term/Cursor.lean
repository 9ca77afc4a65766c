import NumericActions.Term.Leaves
import NumericActions.Fault.Basic

/-!
# Cursors

A cursor walks the leaves of terms one at a time and can be left and taken up again. It
keeps the unread rests of the sequences it stands in, the innermost first, so the depth
of a term is bounded by memory alone.

* `Cursor.turn`: the smallest step, which reads one value or leaves one sequence.
* `Cursor.next`: turns up to the next leaf, and the cursor behind it.
* `Cursor.weight_lt_of_follows`: every turn makes the unread rests lighter.
* `Cursor.next_leaves`: a step takes the first leaf off the leaves that remain.
* `countLeaves`: the number of leaves, counted without keeping them.
-/

namespace NumericActions

/-- The unread rests of the open sequences, the innermost first. -/
structure Cursor where
  pending : List (List Value)

namespace Cursor

def start (terms : List Value) : Cursor := ⟨[terms]⟩

/-! ## Turns -/

/-- What one turn meets: nothing to hand out yet, a number, a foreign leaf, or the end. -/
inductive Turn where
  | onward (pending : List (List Value))
  | number (n : Number) (pending : List (List Value))
  | foreign (v : Value)
  | finished

/-- Reads one value of the innermost sequence. A sequence is opened in place, and one that
is read to its end is left. -/
def turn : List (List Value) → Turn
  | [] => .finished
  | [] :: rest => .onward rest
  | (v :: vs) :: rest =>
    match v.number? with
    | some n => .number n (vs :: rest)
    | none =>
      match v.items? with
      | some items => .onward (items :: vs :: rest)
      | none => .foreign v

/-- The rests that a turn leaves, when the traversal goes on behind it. -/
def Follows (now next : List (List Value)) : Prop :=
  turn now = .onward next ∨ ∃ n, turn now = .number n next

/-- A measure of what is unread. -/
def weight : List (List Value) → Nat
  | [] => 0
  | vs :: rest => 1 + Value.sizes vs + weight rest

theorem weight_lt_of_follows {now next : List (List Value)} (h : Follows now next) :
    weight next < weight now := by
  unfold Follows turn at h
  split at h
  · simp at h
  · obtain h | ⟨n, h⟩ := h <;> cases h
    simp [weight, Value.sizes]
  · rename_i v vs rest
    split at h
    · obtain h | ⟨n, h⟩ := h <;> cases h
      have := v.size_pos
      simp only [weight, Value.sizes]
      omega
    · split at h
      · rename_i items hi
        obtain h | ⟨n, h⟩ := h <;> cases h
        have := Value.sizes_lt_of_items hi
        simp only [weight, Value.sizes]
        omega
      · obtain h | ⟨n, h⟩ := h <;> cases h

/-! ## Steps -/

/-- What a step meets: a number, a foreign leaf, or the end. -/
inductive Step where
  | number (n : Number) (rest : Cursor)
  | foreign (v : Value)
  | finished

/-- Turns until there is something to hand out or nothing is left. -/
def advance (pending : List (List Value)) : Step :=
  match _h : turn pending with
  | .onward next => advance next
  | .number n next => .number n ⟨next⟩
  | .foreign v => .foreign v
  | .finished => .finished
termination_by weight pending
decreasing_by exact weight_lt_of_follows (.inl _h)

def next (c : Cursor) : Step := advance c.pending

def leaves (c : Cursor) : Leaves := Value.leavesOfAll c.pending.flatten

/-- The leaves that a step leaves to the next ones, with its own in front. -/
def Step.leaves : Step → Leaves
  | .number n rest => ⟨[n], none⟩ ++ rest.leaves
  | .foreign v => ⟨[], some v⟩
  | .finished => Leaves.empty

/-- The leaves of a turn and of what it leaves. -/
def Turn.leaves : Turn → Leaves
  | .onward next => Value.leavesOfAll next.flatten
  | .number n next => ⟨[n], none⟩ ++ Value.leavesOfAll next.flatten
  | .foreign v => ⟨[], some v⟩
  | .finished => Leaves.empty

theorem turn_leaves (pending : List (List Value)) :
    (turn pending).leaves = Value.leavesOfAll pending.flatten := by
  unfold turn
  split
  · rfl
  · rfl
  · rename_i v vs rest
    split
    · rename_i n hn
      cases v <;> simp [Value.number?] at hn
      subst hn
      simp [Turn.leaves, Value.leavesOfAll, Value.leaves]
    · rename_i hn
      split
      · rename_i items hi
        simp only [Turn.leaves, List.flatten_cons, List.cons_append, Value.leavesOfAll,
          Value.leavesOfAll_append, Value.leaves_of_items hi]
      · rename_i hi
        simp only [Turn.leaves, List.flatten_cons, List.cons_append, Value.leavesOfAll,
          Value.leaves_of_foreign hn hi]
        simp [Leaves.append_def, Leaves.append]

theorem advance_leaves (pending : List (List Value)) :
    (advance pending).leaves = Value.leavesOfAll pending.flatten := by
  fun_induction advance pending with
  | case1 pending next h ih => rw [ih, ← turn_leaves pending, h, Turn.leaves]
  | case2 pending n next h => rw [← turn_leaves pending, h, Turn.leaves, Step.leaves, leaves]
  | case3 pending v h => rw [← turn_leaves pending, h, Turn.leaves, Step.leaves]
  | case4 pending h => rw [← turn_leaves pending, h, Turn.leaves, Step.leaves]

theorem next_leaves (c : Cursor) : c.next.leaves = c.leaves := advance_leaves c.pending

theorem advance_weight {pending : List (List Value)} {n : Number} {c : Cursor}
    (h : advance pending = .number n c) : weight c.pending < weight pending := by
  fun_induction advance pending with
  | case1 pending next ht ih => exact Nat.lt_trans (ih h) (weight_lt_of_follows (.inl ht))
  | case2 pending m next ht =>
    cases h
    exact weight_lt_of_follows (.inr ⟨_, ht⟩)
  | case3 => cases h
  | case4 => cases h

/-! ## Counting -/

/-- The number of leaves that remain, added to those already counted. -/
def count (counted : Nat) : List (List Value) → Except Fault Nat
  | [] => .ok counted
  | [] :: rest => count counted rest
  | (v :: vs) :: rest =>
    match _h : v.items? with
    | some items => count counted (items :: vs :: rest)
    | none =>
      match v.number? with
      | some _ => count (counted + 1) (vs :: rest)
      | none => .error (.invalidTerm v)
termination_by pending => weight pending
decreasing_by
  · simp [weight, Value.sizes]
  · have := Value.sizes_lt_of_items _h
    simp [weight, Value.sizes]
    omega
  · have := v.size_pos
    simp only [weight, Value.sizes]
    omega

end Cursor

def countLeaves (terms : List Value) : Except Fault Nat := Cursor.count 0 [terms]

end NumericActions
