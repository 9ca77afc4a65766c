import Mathlib.Order.Nat
import NumericActions.Grouping.Window

/-!
# The indices of windows

Windows are cut off one after the other, but the place of each of them is known at once:
window `i` begins at the element `i * step`, whether windows overlap, touch or leave a gap.
A window is delivered exactly when its last element exists.

* `getElem?_windows`: the window with a given index.
* `length_windows`: the number of windows.
* `Windowing.delivers_windows`: the windows of terms, their number and their end. A size or
  a gap that cannot be counted is a fault as soon as it is reached, and no sooner.
-/

namespace NumericActions

/-! ## The windows of a list -/

/-- How many windows fit into so many elements. -/
def Window.countIn (w : Window) (length : Nat) : Nat :=
  if length < w.size then 0 else (length - w.size) / w.step + 1

theorem Window.lt_countIn_iff (w : Window) (length i : Nat) :
    i < w.countIn length ↔ i * w.step + w.size ≤ length := by
  unfold Window.countIn
  by_cases h : length < w.size
  · rw [if_pos h]
    constructor
    · intro hi
      exact absurd hi (Nat.not_lt_zero i)
    · intro hi
      omega
  · have hd : i ≤ (length - w.size) / w.step ↔ i * w.step ≤ length - w.size :=
      Nat.le_div_iff_mul_le w.step_pos
    rw [if_neg h, Nat.lt_succ_iff, hd]
    omega

/-- A window stands where its index says, and there is none behind the last that is full. -/
theorem getElem?_windows {α : Type} (w : Window) (items : List α) (i : Nat) :
    (windows w items)[i]? =
      if i * w.step + w.size ≤ items.length then
        some ((items.drop (i * w.step)).take w.size)
      else none := by
  fun_induction windows w items generalizing i with
  | case1 items h ih =>
    rw [List.length_take] at h
    cases i with
    | zero =>
      rw [if_pos (by omega), Nat.zero_mul]
      rfl
    | succ i =>
      have hs : (i + 1) * w.step = w.step + i * w.step := by
        rw [Nat.succ_mul, Nat.add_comm]
      have hl : i * w.step + w.size ≤ (items.drop w.step).length ↔
          (i + 1) * w.step + w.size ≤ items.length := by
        have := w.size_pos
        rw [List.length_drop, hs]
        omega
      rw [List.getElem?_cons_succ, ih i, List.drop_drop, ← hs]
      exact if_congr hl rfl rfl
  | case2 items h =>
    rw [List.length_take] at h
    rw [if_neg (by omega)]
    rfl

theorem length_windows {α : Type} (w : Window) (items : List α) :
    (windows w items).length = w.countIn items.length := by
  apply eq_of_forall_lt_iff
  intro i
  have hi := getElem?_windows w items i
  rw [w.lt_countIn_iff]
  by_cases h : i * w.step + w.size ≤ items.length
  · rw [if_pos h] at hi
    exact iff_of_true (List.getElem?_eq_some_iff.mp hi).1 h
  · rw [if_neg h] at hi
    exact iff_of_false (Nat.not_lt.mpr (List.getElem?_eq_none_iff.mp hi)) h

/-! ## The windows of terms -/

theorem Window.of?_self (w : Window) : Window.of? w.size w.step = .ok w := by
  have hs := w.size_pos
  have ht := w.step_pos
  unfold Window.of?
  rw [dif_pos (by omega), dif_pos (by omega)]
  rfl

/-- Every window that is full is delivered, in order and nothing else, and then the numbers
end as their leaves do. -/
structure DeliversWindows (w : Window) (leaves : Leaves) (feed : Feed (List Number)) : Prop where
  windows : ∀ i, feed.items[i]? =
    if i * w.step + w.size ≤ leaves.numbers.length then
      some ((leaves.numbers.drop (i * w.step)).take w.size)
    else none
  count : feed.items.length =
    if leaves.numbers.length < w.size then 0
    else (leaves.numbers.length - w.size) / w.step + 1
  /-- Also a foreign leaf in a gap or in a last window that is not full is met. -/
  fault : feed.fault = leaves.foreign.map .invalidTerm

theorem deliversWindows_windows (w : Window) (leaves : Leaves) :
    DeliversWindows w leaves
      ⟨NumericActions.windows w leaves.numbers, leaves.foreign.map .invalidTerm⟩ :=
  ⟨getElem?_windows w leaves.numbers, length_windows w leaves.numbers, rfl⟩

/-- The windows of a feed in the three cases of what can be counted. -/
theorem Feed.windowed_ofLeaves (w : Window) (leaves : Leaves) :
    if advanceLimit < w.size then
      (Feed.ofLeaves leaves).windowed w = ⟨[], some (.misuse .advance)⟩
    else if advanceLimit < w.step - w.size ∧ w.size ≤ leaves.numbers.length then
      (Feed.ofLeaves leaves).windowed w =
        ⟨[leaves.numbers.take w.size], some (.misuse .advance)⟩
    else DeliversWindows w leaves ((Feed.ofLeaves leaves).windowed w) := by
  unfold Feed.windowed Feed.ofLeaves
  by_cases hsize : advanceLimit < w.size
  · rw [if_pos hsize, if_pos hsize]
  · rw [if_neg hsize, if_neg hsize]
    by_cases hfull : w.size ≤ leaves.numbers.length
    · rw [windows_of_le hfull]
      by_cases hgap : advanceLimit < w.step - w.size
      · rw [if_pos ⟨hgap, hfull⟩]
        simp only [if_pos hgap]
      · rw [if_neg fun h => hgap h.1]
        simp only [if_neg hgap]
        rw [← windows_of_le hfull]
        exact deliversWindows_windows w leaves
    · have hshort : windows w leaves.numbers = [] := windows_of_lt (Nat.lt_of_not_le hfull)
      have h := deliversWindows_windows w leaves
      rw [if_neg fun h => hfull h.2, hshort]
      rwa [hshort] at h

/-- What a window over terms delivers, for every size and every step that are allowed. The
windows are read one by one and found by their indices, up to the counts that cannot be
asked for: a window that is too large is a fault at once, and a gap that is too large is a
fault behind the first window. -/
theorem Windowing.delivers_windows (w : Window) (terms : List Value) :
    let leaves := Value.leavesOfAll terms
    let source := Cursor.source.windowed w
    let start := some (Windowing.start w (Cursor.opened terms))
    let feed := source.feed start
    Window.of? w.size w.step = .ok w ∧
      (if advanceLimit < w.size then
        feed = ⟨[], some (.misuse .advance)⟩
      else if advanceLimit < w.step - w.size ∧ w.size ≤ leaves.numbers.length then
        feed = ⟨[leaves.numbers.take w.size], some (.misuse .advance)⟩
      else DeliversWindows w leaves feed) ∧
      ∀ count, (source.read count start).items = feed.items.take count ∧
        (source.read count start).stop = feed.stopAt count ∧
        source.feed (source.read count start).rest = feed.behind count := by
  intro leaves source start feed
  have hf : feed = (Feed.ofLeaves leaves).windowed w := by
    show (Cursor.source.windowed w).feed _ = _
    rw [Source.feed_windowed, Cursor.feed_source]
    rfl
  refine ⟨w.of?_self, ?_, fun count => ⟨source.items_read count start,
    source.stop_read count start, source.feed_rest_read count start⟩⟩
  rw [hf]
  exact Feed.windowed_ofLeaves w leaves

/-- A window of `2 ^ 63` elements is allowed, but over a single number it does not end
normally. -/
theorem Windowing.not_delivers_uncountable :
    ¬ DeliversWindows ⟨9223372036854775808, 1, by decide, by decide⟩
      (Value.leavesOfAll [.int 1])
      ((Cursor.source.windowed ⟨9223372036854775808, 1, by decide, by decide⟩).feed
        (some (.start _ (Cursor.opened [.int 1])))) := by
  intro h
  have hfault := h.fault
  rw [Source.feed_windowed, Feed.windowed, if_pos (by decide)] at hfault
  cases hfault

end NumericActions
