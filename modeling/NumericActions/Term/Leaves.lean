import NumericActions.Value.Basic

/-!
# Leaves of terms

Terms are traversed depth first and from left to right. A leaf that is neither a number
nor a sequence ends the traversal, and nothing behind it is seen.

* `Leaves`: the numbers up to the first foreign leaf, and that leaf.
* `Value.leaves`, `Value.leavesOfAll`: the leaves of a value and of a list of values, by
  recursion on the values.
* `leavesOfAll_append`, `leavesOfAll_map_number`: the leaves of a concatenation and of numbers.
-/

namespace NumericActions

/-- The numbers met before the first foreign leaf, and that leaf if there is one. -/
structure Leaves where
  numbers : List Number
  foreign : Option Value

namespace Leaves

def empty : Leaves := ⟨[], none⟩

/-- What a traversal meets that goes on with a second part. A foreign leaf in the first
part hides the second. -/
def append (a b : Leaves) : Leaves :=
  match a.foreign with
  | some v => ⟨a.numbers, some v⟩
  | none => ⟨a.numbers ++ b.numbers, b.foreign⟩

instance : Append Leaves := ⟨append⟩

theorem append_def (a b : Leaves) : a ++ b = a.append b := rfl

@[simp] theorem empty_append (a : Leaves) : empty ++ a = a := by
  simp [append_def, append, empty]

@[simp] theorem append_empty (a : Leaves) : a ++ empty = a := by
  cases a with
  | mk numbers foreign => cases foreign <;> simp [append_def, append, empty]

theorem append_assoc (a b c : Leaves) : a ++ b ++ c = a ++ (b ++ c) := by
  cases a with
  | mk numbers foreign =>
    cases foreign with
    | some v => simp [append_def, append]
    | none =>
      cases b with
      | mk numbers' foreign' => cases foreign' <;> simp [append_def, append]

end Leaves

namespace Value

mutual

def leaves : Value → Leaves
  | .number n => ⟨[n], none⟩
  | .list items => leavesOfAll items
  | .tuple items => leavesOfAll items
  | v => ⟨[], some v⟩

def leavesOfAll : List Value → Leaves
  | [] => Leaves.empty
  | v :: vs => v.leaves ++ leavesOfAll vs

end

theorem leavesOfAll_append (vs ws : List Value) :
    leavesOfAll (vs ++ ws) = leavesOfAll vs ++ leavesOfAll ws := by
  induction vs with
  | nil => simp [leavesOfAll]
  | cons v vs ih => simp [leavesOfAll, ih, Leaves.append_assoc]

theorem leavesOfAll_map_number (numbers : List Number) :
    leavesOfAll (numbers.map .number) = ⟨numbers, none⟩ := by
  induction numbers with
  | nil => rfl
  | cons n numbers ih =>
    rw [List.map_cons, leavesOfAll, ih]
    rfl

theorem leaves_of_foreign {v : Value} (hn : v.number? = none) (hi : v.items? = none) :
    v.leaves = ⟨[], some v⟩ := by
  cases v <;> simp [number?, items?] at hn hi <;> rfl

theorem leaves_of_items {v : Value} {items : List Value} (h : v.items? = some items) :
    v.leaves = leavesOfAll items := by
  cases v <;> simp [items?] at h <;> subst h <;> rfl

end Value

end NumericActions
