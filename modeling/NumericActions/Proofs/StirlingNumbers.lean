import Mathlib.Combinatorics.Enumerative.Stirling
import NumericActions.Combinatorics.Stirling
import NumericActions.Proofs.BinomialCoefficients

/-!
# Stirling numbers of the second kind

`Nat.stirlingSecond` is the recurrence over the whole triangle. The band of columns on which
`S(n, k)` depends is closed under it: a number that is read outside the band is zero in the
triangle too. From a place in the band the way to `(n, k)` only goes down a column or down
the diagonal, and neither makes a number smaller, so no number in the band is greater than
`S(n, k)`.

* `Band.cell_exact`: what is read from an exact row of the band.
* `Band.rows_exact`: some rows are exact, or one of their numbers does not fit in 64 bits.
* `stirlingSecond_le`: no number in the band is greater than `S(n, k)`.
* `stirling_decides`: the number for every pair of arguments, or the fault of its domain.
-/

namespace NumericActions

open Nat (stirlingSecond)

/-! ## The triangle -/

theorem stirlingSecond_zero_of_pos {n : Nat} (h : 0 < n) : stirlingSecond n 0 = 0 := by
  obtain ⟨m, rfl⟩ := Nat.exists_eq_succ_of_ne_zero (Nat.ne_of_gt h)
  rfl

theorem stirlingSecond_succ_of_pos (n : Nat) {k : Nat} (h : 0 < k) :
    stirlingSecond (n + 1) k = k * stirlingSecond n k + stirlingSecond n (k - 1) := by
  obtain ⟨j, rfl⟩ := Nat.exists_eq_succ_of_ne_zero (Nat.ne_of_gt h)
  exact Nat.stirlingSecond_succ_succ n j

/-- The edges of the triangle. -/
theorem stirlingSecond_edge {n k : Nat} (hn : 0 < n) (h : k = n ∨ k = 1) :
    stirlingSecond n k = 1 := by
  rcases h with rfl | rfl
  · exact Nat.stirlingSecond_self k
  · obtain ⟨m, rfl⟩ := Nat.exists_eq_succ_of_ne_zero (Nat.ne_of_gt hn)
    exact Nat.stirlingSecond_one_right m

/-- Next to the diagonal one group has two members and the others have one. -/
theorem stirlingSecond_pairs {n k : Nat} (h : k + 1 = n) : stirlingSecond n k = n.choose 2 := by
  subst h
  exact Nat.stirlingSecond_succ_self_left k

/-- Down a column. -/
theorem stirlingSecond_le_column {i n j : Nat} (hj : 0 < j) (h : i ≤ n) :
    stirlingSecond i j ≤ stirlingSecond n j := by
  induction n, h using Nat.le_induction with
  | base => exact Nat.le_refl _
  | succ n h ih =>
    rw [stirlingSecond_succ_of_pos n hj]
    calc stirlingSecond i j ≤ stirlingSecond n j := ih
      _ ≤ j * stirlingSecond n j := Nat.le_mul_of_pos_left _ hj
      _ ≤ _ := Nat.le_add_right _ _

/-- Down the diagonal. -/
theorem stirlingSecond_le_diagonal (i j steps : Nat) :
    stirlingSecond i j ≤ stirlingSecond (i + steps) (j + steps) := by
  induction steps with
  | zero => exact Nat.le_refl _
  | succ steps ih =>
    rw [← Nat.add_assoc, ← Nat.add_assoc, Nat.stirlingSecond_succ_succ]
    exact Nat.le_trans ih (Nat.le_add_left _ _)

theorem stirlingSecond_le {n k i j : Nat} (hj : 0 < j) (hjk : j ≤ k) (h : i + (k - j) ≤ n) :
    stirlingSecond i j ≤ stirlingSecond n k := by
  have hdiagonal := stirlingSecond_le_diagonal i j (k - j)
  rw [Nat.add_sub_cancel' hjk] at hdiagonal
  exact Nat.le_trans hdiagonal (stirlingSecond_le_column (by omega) h)

/-! ## The band -/

namespace Band

theorem mem_columns {n k i j : Nat} :
    j ∈ columns n k i ↔ max 1 (i - (n - k)) ≤ j ∧ j ≤ min i k := by
  unfold columns
  dsimp only
  rw [List.mem_range'_1]
  omega

/-- Row `i` of the band as it stands in the triangle. -/
def exact (n k i : Nat) : Band :=
  ⟨max 1 (i - (n - k)), (columns n k i).map (stirlingSecond i)⟩

theorem first_eq_exact (n : Nat) {k : Nat} (hk : 0 < k) : first = exact n k 1 := by
  have hcolumns : columns n k 1 = [1] := by
    unfold columns
    dsimp only
    rw [show max 1 (1 - (n - k)) = 1 by omega, show min 1 k + 1 - 1 = 1 by omega]
    rfl
  unfold exact first
  rw [hcolumns, show max 1 (1 - (n - k)) = 1 by omega]
  rfl

theorem getElem?_exact {n k i j : Nat} (hlow : max 1 (i - (n - k)) ≤ j) (hhigh : j ≤ min i k) :
    (exact n k i).cells[j - (exact n k i).low]? = some (stirlingSecond i j) := by
  unfold exact columns
  dsimp only
  rw [List.getElem?_map, List.getElem?_range' (by omega), Option.map_some]
  congr 2
  omega

/-- A column that is not kept is zero in the triangle, as far as it can be asked for. -/
theorem cell_exact {n k i j : Nat} (hi : 0 < i) (hlow : i - (n - k) ≤ j) (hj : j ≤ k) :
    (exact n k i).cell j = stirlingSecond i j := by
  unfold cell
  by_cases hleft : j < (exact n k i).low
  · have hzero : j = 0 := by
      unfold exact at hleft
      dsimp only at hleft
      omega
    rw [if_pos hleft, hzero, stirlingSecond_zero_of_pos hi]
  · rw [if_neg hleft]
    have hleft : max 1 (i - (n - k)) ≤ j := Nat.le_of_not_lt hleft
    by_cases hright : j ≤ i
    · rw [getElem?_exact hleft (by omega), Option.getD_some]
    · have hend : (exact n k i).cells.length ≤ j - (exact n k i).low := by
        unfold exact columns
        dsimp only
        rw [List.length_map, List.length_range']
        omega
      rw [List.getElem?_eq_none hend, Option.getD_none,
        Nat.stirlingSecond_eq_zero_of_lt (Nat.lt_of_not_le hright)]

/-- The two numbers that the recurrence reads for a column of the next row. -/
theorem cells_exact {n k i j : Nat} (hi : 0 < i) (hj : j ∈ columns n k (i + 1)) :
    (exact n k i).cell j = stirlingSecond i j ∧
      (exact n k i).cell (j - 1) = stirlingSecond i (j - 1) := by
  obtain ⟨hlow, hhigh⟩ := mem_columns.mp hj
  exact ⟨cell_exact hi (by omega) (by omega), cell_exact hi (by omega) (by omega)⟩

theorem get_exact {n k : Nat} (hk : 0 < k) (hkn : k ≤ n) :
    (exact n k n).get k = .ok (stirlingSecond n k) := by
  have hlow : max 1 (n - (n - k)) ≤ k := by omega
  unfold get
  rw [if_pos (show (exact n k n).low ≤ k from hlow), getElem?_exact hlow (by omega)]

/-! ## Rows -/

/-- Every number of row `i` in the band fits in 64 bits. -/
def RowFits (n k i : Nat) : Prop := ∀ j ∈ columns n k i, (stirlingSecond i j : Int) ≤ int64Max

instance (n k i : Nat) : Decidable (RowFits n k i) := by unfold RowFits; infer_instance

theorem nextCell_exact (quantity : Quantity) {n k i j : Nat} (hi : 0 < i)
    (hj : j ∈ columns n k (i + 1)) :
    nextCell quantity (exact n k i) j =
      if (stirlingSecond (i + 1) j : Int) ≤ int64Max then .ok (stirlingSecond (i + 1) j)
      else .error (.domain (.overflow quantity)) := by
  have hmin : int64Min < 0 := by decide
  have hpos : 0 < j := by
    have := mem_columns.mp hj
    omega
  obtain ⟨hcell, hbefore⟩ := cells_exact hi hj
  unfold nextCell
  dsimp only
  rw [hcell, hbefore, ← stirlingSecond_succ_of_pos i hpos, Check.fitsInt64_int]
  by_cases hfits : (stirlingSecond (i + 1) j : Int) ≤ int64Max
  · rw [if_neg (by omega), if_pos hfits]
    rfl
  · rw [if_pos (by omega), if_neg hfits]
    rfl

/-- One step of the recurrence on a whole row. -/
theorem next_exact (quantity : Quantity) (n k : Nat) {i : Nat} (hi : 0 < i) :
    (exact n k i).next quantity n k (i + 1) =
      if RowFits n k (i + 1) then .ok (exact n k (i + 1))
      else .error (.domain (.overflow quantity)) := by
  have hcells := mapM_eq_ite fun j (hj : j ∈ columns n k (i + 1)) => nextCell_exact quantity hi hj
  unfold next
  rw [hcells]
  by_cases hfits : ∀ j ∈ columns n k (i + 1), (stirlingSecond (i + 1) j : Int) ≤ int64Max
  · rw [if_pos hfits, if_pos (show RowFits n k (i + 1) from hfits)]
    rfl
  · rw [if_neg hfits, if_neg (show ¬ RowFits n k (i + 1) from hfits)]
    rfl

/-- The rows below an exact one are exact, up to the first that does not fit. -/
theorem rows_exact (quantity : Quantity) (n k steps : Nat) {i : Nat} (hi : 0 < i) :
    (rows quantity n k steps (i + 1) (exact n k i) = .ok (exact n k (i + steps)) ∧
      ∀ r, i < r → r ≤ i + steps → RowFits n k r) ∨
    (rows quantity n k steps (i + 1) (exact n k i) = .error (.domain (.overflow quantity)) ∧
      ∃ r, i < r ∧ r ≤ i + steps ∧ ¬ RowFits n k r) := by
  induction steps generalizing i with
  | zero => exact .inl ⟨rfl, fun r hir hri => by omega⟩
  | succ steps ih =>
    unfold rows
    rw [next_exact quantity n k hi]
    by_cases hfits : RowFits n k (i + 1)
    · have hrest := ih (Nat.succ_pos i)
      rw [if_pos hfits]
      rw [show i + 1 + steps = i + (steps + 1) by omega] at hrest
      rcases hrest with ⟨hrows, hall⟩ | ⟨hrows, r, hir, hri, hnot⟩
      · refine .inl ⟨hrows, fun r hir hri => ?_⟩
        rcases Nat.eq_or_lt_of_le hir with rfl | hlt
        · exact hfits
        · exact hall r hlt hri
      · exact .inr ⟨hrows, r, by omega, hri, hnot⟩
    · rw [if_neg hfits]
      exact .inr ⟨rfl, i + 1, by omega, by omega, hfits⟩

/-- The rows of the band fit as long as the number they lead to does. -/
theorem rowFits {n k i : Nat} (hkn : k ≤ n) (hin : i ≤ n)
    (h : (stirlingSecond n k : Int) ≤ int64Max) : RowFits n k i := by
  intro j hj
  obtain ⟨hlow, hhigh⟩ := mem_columns.mp hj
  have hle : stirlingSecond i j ≤ stirlingSecond n k :=
    stirlingSecond_le (by omega) (by omega) (by omega)
  omega

/-- The rows that have been computed are exact, and the first that does not fit decides about
the number they lead to. -/
theorem rows_first (quantity : Quantity) {n k steps : Nat} (hk : 0 < k) (hkn : k ≤ n)
    (hsteps : steps < n) :
    (rows quantity n k steps 2 first = .ok (exact n k (steps + 1)) ∧
      ∀ r, 1 < r → r ≤ steps + 1 → RowFits n k r) ∨
    (rows quantity n k steps 2 first = .error (.domain (.overflow quantity)) ∧
      int64Max < stirlingSecond n k) := by
  rw [first_eq_exact n hk, Nat.add_comm steps 1]
  rcases rows_exact quantity n k steps Nat.one_pos with h | ⟨hrows, r, -, hr, hnot⟩
  · exact .inl h
  · refine .inr ⟨hrows, ?_⟩
    by_contra hfits
    exact hnot (rowFits hkn (by omega) (by omega))

/-- The last row decides whether the number fits. -/
theorem rows_first_last (quantity : Quantity) {n k : Nat} (hk : 0 < k) (hkn : k ≤ n) (hn : 1 < n) :
    rows quantity n k (n - 1) 2 first =
      if (stirlingSecond n k : Int) ≤ int64Max then .ok (exact n k n)
      else .error (.domain (.overflow quantity)) := by
  have hrows := rows_first quantity hk hkn (show n - 1 < n by omega)
  rw [Nat.sub_add_cancel (by omega)] at hrows
  rcases hrows with ⟨hrows, hall⟩ | ⟨hrows, hover⟩
  · have hlast := hall n hn (Nat.le_refl n) k (mem_columns.mpr ⟨by omega, by omega⟩)
    rw [hrows, if_pos hlast]
  · rw [hrows, if_neg (by omega)]

end Band

/-! ## The number -/

theorem stirling_eq {n k : Int} (h : AreIndices n k) :
    stirling n k =
      if (stirlingSecond n.toNat k.toNat : Int) ≤ int64Max then
        .ok (stirlingSecond n.toNat k.toNat)
      else if k = n - 1 then .error (.domain (.overflow (.binomial n 2)))
      else .error (.domain (.overflow (.stirling n k))) := by
  obtain ⟨hn, hk, -⟩ := id h
  unfold stirling
  rw [bind_of_eq_ok (requireIndices_of_areIndices h)]
  by_cases hlt : n < k
  · rw [if_pos hlt, Nat.stirlingSecond_eq_zero_of_lt (by omega), if_pos (by decide)]
    rfl
  rw [if_neg hlt]
  by_cases hzero : k = 0
  · subst hzero
    by_cases hn0 : n = 0
    · subst hn0
      rfl
    · rw [if_pos rfl, if_neg hn0, show (0 : Int).toNat = 0 from rfl,
        stirlingSecond_zero_of_pos (by omega), if_pos (by decide)]
      rfl
  rw [if_neg hzero]
  by_cases hedge : k = n ∨ k = 1
  · rw [if_pos hedge, stirlingSecond_edge (by omega) (by omega), if_pos (by decide)]
    rfl
  rw [if_neg hedge]
  by_cases hnear : k = n - 1
  · rw [if_pos hnear, binomial_eq ⟨hn, by decide, by decide⟩, stirlingSecond_pairs (by omega),
      if_pos hnear]
    rfl
  · rw [if_neg hnear, if_neg hnear, Band.rows_first_last _ (by omega) (by omega) (by omega)]
    by_cases hfits : (stirlingSecond n.toNat k.toNat : Int) ≤ int64Max
    · rw [if_pos hfits, if_pos hfits]
      show ((Band.exact n.toNat k.toNat n.toNat).get k.toNat >>= _) = _
      rw [Band.get_exact (by omega) (by omega)]
      rfl
    · rw [if_neg hfits, if_neg hfits]
      rfl

/-- The Stirling number of two arguments is computed exactly when it fits in 64 bits, and is a
fault of the domain otherwise; the direct answers at the edges are those of the recurrence. In
the band every number that is read from a row is the one in the triangle, and a row that does
not fit stands above a number that does not. -/
theorem stirling_decides (n k : Int) :
    (¬ AreIndices n k → ∃ cause, stirling n k = .error (.domain cause)) ∧
    (AreIndices n k →
      stirling n k =
        (if (stirlingSecond n.toNat k.toNat : Int) ≤ int64Max then
          .ok (stirlingSecond n.toNat k.toNat)
        else if k = n - 1 then .error (.domain (.overflow (.binomial n 2)))
        else .error (.domain (.overflow (.stirling n k)))) ∧
      (0 < k → k ≤ n → ∀ steps < n.toNat,
        (∀ band, Band.rows (.stirling n k) n.toNat k.toNat steps 2 Band.first = .ok band →
          ∀ j ∈ Band.columns n.toNat k.toNat (steps + 2),
            band.cell j = stirlingSecond (steps + 1) j ∧
              band.cell (j - 1) = stirlingSecond (steps + 1) (j - 1)) ∧
        ∀ fault, Band.rows (.stirling n k) n.toNat k.toNat steps 2 Band.first = .error fault →
          int64Max < stirlingSecond n.toNat k.toNat)) := by
  constructor
  · intro h
    obtain ⟨cause, hcause⟩ := requireIndices_of_not_areIndices h
    refine ⟨cause, ?_⟩
    unfold stirling
    rw [hcause]
    rfl
  · intro h
    refine ⟨stirling_eq h, fun hk hkn steps hsteps => ?_⟩
    rcases Band.rows_first (.stirling n k) (k := k.toNat) (by omega) (by omega) hsteps with
      ⟨hrows, -⟩ | ⟨hrows, hover⟩
    · rw [hrows]
      constructor
      · intro band hband j hj
        rw [← Except.ok.inj hband]
        exact Band.cells_exact (Nat.succ_pos steps) hj
      · intro fault hfault
        cases hfault
    · rw [hrows]
      constructor
      · intro band hband
        cases hband
      · exact fun _ _ => hover

theorem stirling_five_three :
    (∃ cause, stirling (-1) 3 = .error (.domain cause)) ∧ stirling 5 3 = .ok 25 := by
  have hnegative : ¬ AreIndices (-1) 3 := fun h => absurd h.1.1 (by decide)
  have hindices : AreIndices 5 3 := ⟨⟨by decide, by decide⟩, by decide, by decide⟩
  obtain ⟨hvalue, -⟩ := (stirling_decides 5 3).2 hindices
  refine ⟨(stirling_decides (-1) 3).1 hnegative, ?_⟩
  rw [hvalue, if_pos (by decide)]
  rfl

end NumericActions
