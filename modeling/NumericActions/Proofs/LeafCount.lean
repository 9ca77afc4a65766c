import NumericActions.Proofs.Traversal

/-!
# Counting leaves

Leaves are counted by a loop of its own, which asks for a sequence before it asks for a number.
No value is both, so each of its turns is a turn of a cursor, and it ends at the same leaf. What
it comes to depends on the leaves of its stack and on nothing else.

* `Cursor.count_eq_turn`: a turn of the count is a turn of the cursor.
* `Cursor.count_eq`: a count that has begun, by the leaves that remain.
* `countLeaves_append`, `countLeaves_enclosed`: the count of a concatenation and of a list in
  brackets.
* `countLeaves_agrees`: the count and the traversal agree, in success and in failure.
-/

namespace NumericActions

/-! ## Numbers of leaves -/

namespace Leaves

/-- The number of the leaves and of those before them; a foreign leaf is a fault. -/
def counted (before : Nat) (leaves : Leaves) : Except Fault Nat :=
  match leaves.foreign with
  | none => .ok (before + leaves.numbers.length)
  | some v => .error (.invalidTerm v)

theorem counted_append (before : Nat) (a b : Leaves) :
    (a ++ b).counted before = a.counted before >>= fun number => b.counted number := by
  obtain ⟨numbers, foreign⟩ := a
  cases foreign with
  | some v => rfl
  | none =>
    show (Leaves.mk (numbers ++ b.numbers) b.foreign).counted before =
      b.counted (before + numbers.length)
    unfold counted
    rw [List.length_append, Nat.add_assoc]

theorem counted_eq_bind (before : Nat) (leaves : Leaves) :
    leaves.counted before = do return before + (← leaves.counted 0) := by
  unfold counted
  cases leaves.foreign with
  | some v => rfl
  | none =>
    show Except.ok _ = Except.ok (before + (0 + leaves.numbers.length))
    rw [Nat.zero_add]

end Leaves

/-! ## The loop -/

namespace Cursor

/-- A turn of the count is a turn of the cursor, although the two ask in different orders what
a value is. -/
theorem count_eq_turn (before : Nat) (pending : List (List Value)) :
    count before pending =
      match turn pending with
      | .onward next => count before next
      | .number _ next => count (before + 1) next
      | .foreign v => .error (.invalidTerm v)
      | .finished => .ok before := by
  match pending with
  | [] => rw [count, turn]
  | [] :: rest => rw [count, turn]
  | (v :: vs) :: rest => cases v <;> rw [count, turn] <;> rfl

/-- A count that has begun is determined by the leaves of the stack. -/
theorem count_eq (before : Nat) (pending : List (List Value)) :
    count before pending = (Value.leavesOfAll pending.flatten).counted before := by
  rw [count_eq_turn, ← turn_leaves]
  cases h : turn pending with
  | onward next => exact count_eq before next
  | number n next =>
    rw [Turn.leaves, Leaves.counted_append]
    exact count_eq (before + 1) next
  | foreign v => rfl
  | finished => rfl
termination_by weight pending
decreasing_by
  · exact weight_lt_of_follows (.inl h)
  · exact weight_lt_of_follows (.inr ⟨n, h⟩)

end Cursor

theorem countLeaves_eq (terms : List Value) :
    countLeaves terms = (Value.leavesOfAll terms).counted 0 := by
  unfold countLeaves
  rw [Cursor.count_eq, List.flatten_singleton]

/-- The count is the number of what the traversal delivers, and fails as the traversal does. -/
theorem countLeaves_eq_length (terms : List Value) :
    countLeaves terms = (Cursor.source.toList (Cursor.opened terms)).map List.length := by
  rw [countLeaves_eq, Cursor.toList_opened]
  unfold Leaves.counted
  cases (Value.leavesOfAll terms).foreign with
  | some v => rfl
  | none =>
    show Except.ok _ = Except.ok _
    rw [Nat.zero_add]

/-! ## Concatenations and brackets -/

theorem countLeaves_append (terms others : List Value) :
    countLeaves (terms ++ others) = do return (← countLeaves terms) + (← countLeaves others) := by
  simp only [countLeaves_eq, Value.leavesOfAll_append, Leaves.counted_append]
  cases (Value.leavesOfAll terms).counted 0 with
  | error fault => rfl
  | ok number => exact Leaves.counted_eq_bind number _

/-- The two kinds of sequences. -/
inductive Bracket where
  | list
  | tuple
  deriving DecidableEq

def Bracket.around : Bracket → List Value → Value
  | .list, items => .list items
  | .tuple, items => .tuple items

/-- A value inside sequences of one item each, the outermost first. -/
def Value.enclosed (v : Value) : List Bracket → Value
  | [] => v
  | bracket :: brackets => bracket.around [v.enclosed brackets]

theorem Bracket.leaves_around (bracket : Bracket) (items : List Value) :
    (bracket.around items).leaves = Value.leavesOfAll items := by
  cases bracket <;> rfl

theorem Value.leavesOfAll_singleton (v : Value) : leavesOfAll [v] = v.leaves := by
  rw [leavesOfAll, leavesOfAll, Leaves.append_empty]

theorem Value.leaves_enclosed (v : Value) (brackets : List Bracket) :
    (v.enclosed brackets).leaves = v.leaves := by
  induction brackets with
  | nil => rfl
  | cons bracket brackets ih => rw [enclosed, Bracket.leaves_around, leavesOfAll_singleton, ih]

theorem countLeaves_enclosed (terms : List Value) (bracket : Bracket) (brackets : List Bracket) :
    countLeaves [(bracket.around terms).enclosed brackets] = countLeaves terms := by
  rw [countLeaves_eq, countLeaves_eq, Value.leavesOfAll_singleton, Value.leaves_enclosed,
    Bracket.leaves_around]

/-! ## Agreement -/

/-- The count and the traversal agree on all values. Without a foreign leaf both succeed, and the
count is the number of numbers that are delivered; otherwise both fail at the first foreign leaf
and with the same wording, in which no action is named. A concatenation has the sum of the counts,
and fails if one of its parts does, in their order. Brackets around a list do not count. -/
theorem countLeaves_agrees (terms others : List Value) (bracket : Bracket)
    (brackets : List Bracket) :
    (match (Value.leavesOfAll terms).foreign with
      | none => ∃ numbers,
          Fault.attributed none (Cursor.source.toList (Cursor.opened terms)) = .ok numbers ∧
          Fault.attributed none (countLeaves terms) = .ok numbers.length
      | some v =>
          Fault.attributed none (Cursor.source.toList (Cursor.opened terms)) =
            .error ⟨.invalidTerm v, none⟩ ∧
          Fault.attributed none (countLeaves terms) = .error ⟨.invalidTerm v, none⟩) ∧
    (∀ v, (Fault.invalidTerm v).kind = .termType ∧
      (⟨.invalidTerm v, none⟩ : Failure).message =
        "term must be a number or a sequence, got " ++ (v.typeName ++ ": " ++ v.literal)) ∧
    countLeaves (terms ++ others) =
      (do return (← countLeaves terms) + (← countLeaves others)) ∧
    countLeaves [(bracket.around terms).enclosed brackets] = countLeaves terms := by
  refine ⟨?_, fun v => ⟨rfl, rfl⟩, countLeaves_append terms others,
    countLeaves_enclosed terms bracket brackets⟩
  rw [countLeaves_eq_length, Cursor.toList_opened]
  cases (Value.leavesOfAll terms).foreign with
  | none => exact ⟨_, rfl, rfl⟩
  | some v => exact ⟨rfl, rfl⟩

end NumericActions
