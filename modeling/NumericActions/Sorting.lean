/-!
# Sorting

A list is put in order by insertion, from its end to its front. Elements that are equal
in the order keep their places among each other.

* `sorted_perm`: sorting only rearranges.
* `pairwise_sorted`: the result is in order, for a total and transitive order.
* `sorted_eq_self`: a list that is in order is left as it is.
* `filter_sorted`: elements that are equal in the order keep their places among each other.
* `eq_of_filter_key_eq`: the order of keys and the parts with each key determine a list.
* `sorted_map`: sorting by a key.
-/

namespace NumericActions

variable {α : Type}

def insertSorted (le : α → α → Bool) (x : α) : List α → List α
  | [] => [x]
  | y :: ys => if le x y then x :: y :: ys else y :: insertSorted le x ys

def sorted (le : α → α → Bool) : List α → List α
  | [] => []
  | x :: xs => insertSorted le x (sorted le xs)

theorem insertSorted_perm (le : α → α → Bool) (x : α) (ys : List α) :
    (insertSorted le x ys).Perm (x :: ys) := by
  induction ys with
  | nil => exact .refl _
  | cons y ys ih =>
    unfold insertSorted
    split
    · exact .refl _
    · exact (ih.cons y).trans (.swap x y ys)

theorem sorted_perm (le : α → α → Bool) (xs : List α) : (sorted le xs).Perm xs := by
  induction xs with
  | nil => exact .refl _
  | cons x xs ih => exact (insertSorted_perm le x _).trans (ih.cons x)

theorem pairwise_insertSorted {le : α → α → Bool} (total : ∀ a b, le a b || le b a)
    (trans : ∀ a b c, le a b → le b c → le a c) (x : α) {ys : List α}
    (h : ys.Pairwise (le · ·)) : (insertSorted le x ys).Pairwise (le · ·) := by
  induction ys with
  | nil => simp [insertSorted]
  | cons y ys ih =>
    obtain ⟨hy, hys⟩ := List.pairwise_cons.mp h
    unfold insertSorted
    split
    · rename_i hxy
      refine List.pairwise_cons.mpr ⟨fun z hz => ?_, h⟩
      rcases List.mem_cons.mp hz with rfl | hz
      · exact hxy
      · exact trans _ _ _ hxy (hy z hz)
    · rename_i hxy
      refine List.pairwise_cons.mpr ⟨fun z hz => ?_, ih hys⟩
      rcases List.mem_cons.mp ((insertSorted_perm le x ys).mem_iff.mp hz) with rfl | hz
      · have := total z y
        simpa [hxy] using this
      · exact hy z hz

theorem pairwise_sorted {le : α → α → Bool} (total : ∀ a b, le a b || le b a)
    (trans : ∀ a b c, le a b → le b c → le a c) (xs : List α) :
    (sorted le xs).Pairwise (le · ·) := by
  induction xs with
  | nil => exact .nil
  | cons x xs ih => exact pairwise_insertSorted total trans x ih

theorem sorted_eq_self {le : α → α → Bool} {xs : List α} (h : xs.Pairwise (le · ·)) :
    sorted le xs = xs := by
  induction xs with
  | nil => rfl
  | cons x xs ih =>
    obtain ⟨hx, hxs⟩ := List.pairwise_cons.mp h
    rw [sorted, ih hxs]
    cases xs with
    | nil => rfl
    | cons y ys => simp [insertSorted, hx y (by simp)]

/-! ## Stability -/

theorem filter_insertSorted {le : α → α → Bool} {p : α → Bool} {x : α} {ys : List α}
    (h : ∀ y ∈ ys, p x → p y → le x y) :
    (insertSorted le x ys).filter p = (x :: ys).filter p := by
  induction ys with
  | nil => rfl
  | cons y ys ih =>
    obtain ⟨hy, hys⟩ := List.forall_mem_cons.mp h
    unfold insertSorted
    split
    · rfl
    · rename_i hxy
      -- an element that stays in front of `x` is not selected together with it
      have hnot : p x = true → p y = false := by
        intro hx
        cases hpy : p y with
        | false => rfl
        | true => exact absurd (hy hx hpy) hxy
      rw [List.filter_cons, ih hys]
      cases hx : p x with
      | false => simp [List.filter_cons, hx]
      | true => simp [hx, hnot hx]

theorem filter_sorted {le : α → α → Bool} {p : α → Bool} {xs : List α}
    (h : ∀ a ∈ xs, ∀ b ∈ xs, p a → p b → le a b) : (sorted le xs).filter p = xs.filter p := by
  induction xs with
  | nil => rfl
  | cons x xs ih =>
    have hx : ∀ y ∈ sorted le xs, p x → p y → le x y := fun y hy =>
      h x List.mem_cons_self y (List.mem_cons_of_mem x ((sorted_perm le xs).mem_iff.mp hy))
    have hxs := ih fun a ha b hb => h a (List.mem_cons_of_mem x ha) b (List.mem_cons_of_mem x hb)
    rw [sorted, filter_insertSorted hx, List.filter_cons, hxs, List.filter_cons]

/-! ## Parts with one key -/

section

variable {κ : Type} [DecidableEq κ] (key : α → κ) {xs ys : List α}

theorem mem_iff_of_filter_key_eq (h : ∀ k, xs.filter (key · = k) = ys.filter (key · = k))
    (z : α) : z ∈ xs ↔ z ∈ ys := by
  have hz : z ∈ xs.filter (key · = key z) ↔ z ∈ ys.filter (key · = key z) := by rw [h]
  simpa using hz

/-- A list in the order of its keys is determined by its parts with each key. -/
theorem eq_of_filter_key_eq (le : κ → κ → Prop) (refl : ∀ k, le k k)
    (antisymm : ∀ x ∈ xs, ∀ y ∈ ys, le (key x) (key y) → le (key y) (key x) → key x = key y)
    (hxs : xs.Pairwise fun a b => le (key a) (key b))
    (hys : ys.Pairwise fun a b => le (key a) (key b))
    (h : ∀ k, xs.filter (key · = k) = ys.filter (key · = k)) : xs = ys := by
  have hmem := mem_iff_of_filter_key_eq key h
  induction xs generalizing ys with
  | nil => exact (List.eq_nil_iff_forall_not_mem.mpr fun z hz => by simpa using (hmem z).mpr hz).symm
  | cons x xs ih =>
    cases ys with
    | nil => exact absurd ((hmem x).mp List.mem_cons_self) List.not_mem_nil
    | cons y ys =>
      obtain ⟨hx, hxs'⟩ := List.pairwise_cons.mp hxs
      obtain ⟨hy, hys'⟩ := List.pairwise_cons.mp hys
      -- each of the two heads has a place in the other list, so neither key is behind the other
      have hxy : le (key x) (key y) := by
        rcases List.mem_cons.mp ((hmem y).mpr List.mem_cons_self) with heq | hin
        · exact heq ▸ refl _
        · exact hx y hin
      have hyx : le (key y) (key x) := by
        rcases List.mem_cons.mp ((hmem x).mp List.mem_cons_self) with heq | hin
        · exact heq ▸ refl _
        · exact hy x hin
      have hkey := antisymm x List.mem_cons_self y List.mem_cons_self hxy hyx
      have hhead : x = y := by
        have hfirst := h (key x)
        simp only [List.filter_cons, hkey, decide_true, if_true] at hfirst
        exact (List.cons.inj hfirst).1
      subst hhead
      have htail : ∀ k, xs.filter (key · = k) = ys.filter (key · = k) := by
        intro k
        have hk := h k
        simp only [List.filter_cons] at hk
        split at hk
        · exact (List.cons.inj hk).2
        · exact hk
      have hrest := ih (fun a ha b hb => antisymm a (List.mem_cons_of_mem x ha) b
        (List.mem_cons_of_mem x hb)) hxs' hys' htail (mem_iff_of_filter_key_eq key htail)
      rw [hrest]

end

/-! ## Keys -/

variable {β : Type}

theorem insertSorted_map (le : β → β → Bool) (f : α → β) (x : α) (ys : List α) :
    insertSorted le (f x) (ys.map f) =
      (insertSorted (fun a b => le (f a) (f b)) x ys).map f := by
  induction ys with
  | nil => rfl
  | cons y ys ih =>
    rw [List.map_cons, insertSorted, insertSorted, ih]
    split <;> rfl

theorem sorted_map (le : β → β → Bool) (f : α → β) (xs : List α) :
    sorted le (xs.map f) = (sorted (fun a b => le (f a) (f b)) xs).map f := by
  induction xs with
  | nil => rfl
  | cons x xs ih => rw [List.map_cons, sorted, ih, insertSorted_map, sorted]

end NumericActions
