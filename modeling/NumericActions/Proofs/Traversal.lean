import NumericActions.Grouping.Source

/-!
# The traversal of terms

A cursor keeps a stack of partly read sequences, but what it delivers is found by
recursion on the terms alone. The invariant of its loop is `Cursor.turn_leaves`: the
leaves of the whole stack, taken from the innermost rest outwards, are the leaves that have
not been delivered yet.

* `Cursor.wellFounded_follows`: no traversal takes infinitely many turns.
* `leavesOfAll_prunedAll`: a sequence without leaves is not seen, at any depth.
* `Cursor.readsLeaves`: a reading delivers the first numbers in front of the first foreign
  leaf, stops at its limit, at that leaf or at the end, and can be taken up again only when
  it has come to its limit.
* `Cursor.read_refines_recursion`: the stack of rests agrees with the recursion.
-/

namespace NumericActions

/-! ## Termination -/

theorem Cursor.wellFounded_follows :
    WellFounded fun next now : List (List Value) => Cursor.Follows now next :=
  Subrelation.wf (fun h => Cursor.weight_lt_of_follows h) (measure Cursor.weight).wf

/-! ## Sequences without leaves -/

namespace Value

mutual

/-- The value without the sequences in it that hold no leaf; nothing, if it is such a
sequence itself. -/
def pruned : Value → Option Value
  | .list items =>
    match prunedAll items with
    | [] => none
    | v :: vs => some (.list (v :: vs))
  | .tuple items =>
    match prunedAll items with
    | [] => none
    | v :: vs => some (.tuple (v :: vs))
  | v => some v

def prunedAll : List Value → List Value
  | [] => []
  | v :: vs =>
    match v.pruned with
    | none => prunedAll vs
    | some w => w :: prunedAll vs

end

/-- The leaves of a value that pruning may have removed. -/
def leavesOf? : Option Value → Leaves
  | none => Leaves.empty
  | some v => v.leaves

mutual

theorem leavesOf?_pruned : (v : Value) → leavesOf? v.pruned = v.leaves
  | .list items => by
    have h := leavesOfAll_prunedAll items
    rw [pruned, leaves]
    cases hp : prunedAll items with
    | nil => rw [← h, hp]; rfl
    | cons w ws => rw [← h, hp]; rfl
  | .tuple items => by
    have h := leavesOfAll_prunedAll items
    rw [pruned, leaves]
    cases hp : prunedAll items with
    | nil => rw [← h, hp]; rfl
    | cons w ws => rw [← h, hp]; rfl
  | .number _ => rfl
  | .bool _ => rfl
  | .null => rfl
  | .text _ => rfl
  | .bytes _ => rfl
  | .dict _ => rfl

theorem leavesOfAll_prunedAll : (vs : List Value) → leavesOfAll (prunedAll vs) = leavesOfAll vs
  | [] => rfl
  | v :: vs => by
    have hv := leavesOf?_pruned v
    have hvs := leavesOfAll_prunedAll vs
    rw [prunedAll, leavesOfAll, ← hv, ← hvs]
    cases v.pruned with
    | none => exact (Leaves.empty_append _).symm
    | some w => rfl

end

end Value

/-! ## Readings -/

namespace Cursor

/-- What a reading of so many numbers comes to, when `leaves` are the leaves of the terms
it has been opened on. -/
structure ReadsLeaves (leaves : Leaves) (count : Nat) (reading : Reading Cursor Number) :
    Prop where
  /-- The first numbers in front of the first foreign leaf are delivered. -/
  items : reading.items = leaves.numbers.take count
  /-- A foreign leaf is met only by a reading that asks for more numbers than lie in front
  of it. -/
  stop : reading.stop =
    if count ≤ leaves.numbers.length then .limit
    else leaves.foreign.elim .ended fun v => .failed (.invalidTerm v)
  /-- The next reading goes on where this one has stopped. -/
  resumed : ∀ more, (source.read more reading.rest).items =
    (leaves.numbers.drop count).take more
  /-- The source is closed by its end and by its failure, and by nothing else. -/
  closed : reading.rest = none ↔ leaves.numbers.length < count

theorem stopAt_ofLeaves (count : Nat) (leaves : Leaves) :
    (Feed.ofLeaves leaves).stopAt count =
      if count ≤ leaves.numbers.length then .limit
      else leaves.foreign.elim .ended fun v => .failed (.invalidTerm v) := by
  unfold Feed.stopAt Feed.ofLeaves
  cases leaves.foreign <;> rfl

theorem stopAt_ne_limit_iff {α : Type} (count : Nat) (feed : Feed α) :
    feed.stopAt count ≠ .limit ↔ feed.items.length < count := by
  unfold Feed.stopAt
  by_cases h : count ≤ feed.items.length
  · simp [h]
  · cases feed.fault <;> simp [h, Nat.lt_of_not_le h]

theorem readsLeaves (terms : List Value) (count : Nat) :
    ReadsLeaves (Value.leavesOfAll terms) count (source.read count (opened terms)) := by
  constructor
  · rw [source.items_read, feed_source]
    rfl
  · rw [source.stop_read, feed_source]
    exact stopAt_ofLeaves count _
  · intro more
    rw [source.items_read, source.feed_rest_read, feed_source]
    unfold Feed.behind
    split
    · rfl
    · rename_i h
      have hd : (Value.leavesOfAll terms).numbers.drop count = [] :=
        List.drop_of_length_le (Nat.le_of_not_le h)
      rw [hd]
      rfl
  · have hs := source.rest_readOnto_eq_none_iff count (start terms) []
    have ht := source.stop_read count (opened terms)
    rw [feed_source] at ht
    apply hs.trans
    show (source.read count (opened terms)).stop ≠ .limit ↔ _
    rw [ht]
    exact stopAt_ne_limit_iff count _

/-! ## Foreign leaves -/

/-- The failure at a foreign leaf shows the leaf, and the action when it has a name. -/
theorem message_invalidTerm (v : Value) (action : Option String) :
    (⟨.invalidTerm v, action⟩ : Failure).message =
      (action.filter fun name => !name.isEmpty).elim "" (· ++ ": ") ++
        ("term must be a number or a sequence, got " ++ (v.typeName ++ ": " ++ v.literal)) := by
  rw [Failure.message_of_namesAction rfl]
  rfl

/-! ## All numbers -/

/-- The numbers of terms as a whole, or the first foreign leaf. -/
theorem toList_opened (terms : List Value) :
    source.toList (opened terms) =
      match (Value.leavesOfAll terms).foreign with
      | none => .ok (Value.leavesOfAll terms).numbers
      | some v => .error (.invalidTerm v) := by
  rw [source.toList_eq, feed_source]
  unfold Feed.toList Feed.ofTerms Feed.ofLeaves
  cases (Value.leavesOfAll terms).foreign <;> rfl

/-- The explicit stack and the recursion on the terms agree: on every reading and every
resumption, on the failure with its kind and its message, and on the numbers as a whole.
Sequences without leaves do not show, a closed source stays closed, and the loop takes
finitely many turns. -/
theorem read_refines_recursion (terms : List Value) (count : Nat) (action : Option String) :
    ReadsLeaves (Value.leavesOfAll terms) count (source.read count (opened terms)) ∧
      ReadsLeaves (Value.leavesOfAll terms) count
        (source.read count (opened (Value.prunedAll terms))) ∧
      (∀ more, source.read more none = ⟨[], if more = 0 then .limit else .ended, none⟩) ∧
      (Fault.attributed action (source.toList (opened terms)) =
        match (Value.leavesOfAll terms).foreign with
        | none => .ok (Value.leavesOfAll terms).numbers
        | some v => .error ⟨.invalidTerm v, action⟩) ∧
      (∀ v, (Fault.invalidTerm v).kind = .termType ∧
        (⟨.invalidTerm v, action⟩ : Failure).message =
          (action.filter fun name => !name.isEmpty).elim "" (· ++ ": ") ++
            ("term must be a number or a sequence, got " ++
              (v.typeName ++ ": " ++ v.literal))) ∧
      WellFounded fun next now : List (List Value) => Follows now next := by
  refine ⟨readsLeaves terms count, ?_, source.read_none, ?_,
    fun v => ⟨rfl, message_invalidTerm v action⟩, wellFounded_follows⟩
  · rw [← Value.leavesOfAll_prunedAll terms]
    exact readsLeaves (Value.prunedAll terms) count
  · rw [toList_opened]
    cases (Value.leavesOfAll terms).foreign <;> rfl

end Cursor

end NumericActions
