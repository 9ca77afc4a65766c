import NumericActions.Grouping.Source

/-!
# Windows

A window of fixed size moves over a source from left to right. Each window begins a fixed
step after the one before, so windows overlap, touch or leave a gap. A last window that
cannot be filled is dropped.

The numbers that two windows share are carried from one to the next, and a gap is read
only when the window behind it is asked for.

* `Window.of?`: the sizes and steps that are allowed.
* `Source.windowed`: the windows of a source, as a source.
* `windows`: the full windows of a list.
* `Feed.windowed`: the windows of a feed, which ends as the feed does.
* `Source.feed_windowed`: carrying and skipping come to the windows of the feed.
-/

namespace NumericActions

structure Window where
  size : Nat
  step : Nat
  size_pos : 0 < size
  step_pos : 0 < step

def Window.pairs : Window := ⟨2, 2, by decide, by decide⟩

/-- The window of a size and a step, both of which must be at least one. -/
def Window.of? (size step : Int) : Except Fault Window :=
  if hs : 1 ≤ size then
    if ht : 1 ≤ step then .ok ⟨size.toNat, step.toNat, by omega, by omega⟩
    else .error (.misuse (.windowStep step))
  else .error (.misuse (.windowSize size))

/-- The number of elements up to which a source can be advanced at once. -/
def advanceLimit : Nat := 9223372036854775807

/-! ## Windows of a source -/

namespace Source

variable {σ α : Type} (source : Source σ α)

/-- A reading whose limit must be a number that can be counted. -/
def slice (count : Nat) (handle : Option σ) : Reading σ α :=
  if advanceLimit < count then ⟨[], .failed (.misuse .advance), none⟩
  else source.read count handle

theorem slice_of_le {count : Nat} (h : count ≤ advanceLimit) (handle : Option σ) :
    source.slice count handle = source.read count handle :=
  if_neg (Nat.not_lt.mpr h)

theorem slice_of_lt {count : Nat} (h : advanceLimit < count) (handle : Option σ) :
    source.slice count handle = ⟨[], .failed (.misuse .advance), none⟩ :=
  if_pos h

theorem length_slice_le (count : Nat) (handle : Option σ) :
    (source.slice count handle).items.length ≤ count := by
  unfold slice
  split
  · exact Nat.zero_le _
  · rw [source.items_read]
    exact List.length_take_le _ _

theorem handleWeight_slice (count : Nat) (handle : Option σ) :
    source.handleWeight (source.slice count handle).rest ≤ source.handleWeight handle := by
  unfold slice
  split
  · exact Nat.zero_le _
  · exact source.handleWeight_readOnto count handle []

theorem handleWeight_slice_lt {count : Nat} {handle : Option σ} (hc : 0 < count)
    (h : (source.slice count handle).stop = .limit) :
    source.handleWeight (source.slice count handle).rest < source.handleWeight handle := by
  unfold slice at h ⊢
  split at h
  · cases h
  · rename_i hl
    rw [if_neg hl]
    exact source.handleWeight_read_lt hc h

end Source

/-- The state between two windows: the source behind the last window, what the next window
shares with it, and what is to be skipped before the next window is filled up. -/
structure Windowing (w : Window) (σ α : Type) where
  handle : Option σ
  carried : List α
  gap : Nat
  carried_lt : carried.length < w.size

namespace Windowing

variable {w : Window} {σ α : Type}

def start (w : Window) (handle : Option σ) : Windowing w σ α := ⟨handle, [], 0, w.size_pos⟩

def behind (window : List α) (h : window.length ≤ w.size) (handle : Option σ) :
    Windowing w σ α :=
  ⟨handle, window.drop w.step, w.step - w.size, by
    have := w.size_pos
    have := w.step_pos
    rw [List.length_drop]
    omega⟩

/-- How many elements the next window lacks. -/
def needed (s : Windowing w σ α) : Nat := w.size - s.carried.length

theorem needed_pos (s : Windowing w σ α) : 0 < s.needed := Nat.sub_pos_of_lt s.carried_lt

theorem length_filled_le (s : Windowing w σ α) (source : Source σ α) (handle : Option σ) :
    (s.carried ++ (source.slice s.needed handle).items).length ≤ w.size := by
  have hs := source.length_slice_le s.needed handle
  have hc := s.carried_lt
  have hn : s.needed = w.size - s.carried.length := rfl
  rw [List.length_append]
  omega

/-- The next window: the gap is skipped, and the carried elements are filled up. -/
def pull (source : Source σ α) (s : Windowing w σ α) : Pull (Windowing w σ α) (List α) :=
  let skipped := source.slice s.gap s.handle
  match skipped.stop with
  | .failed fault => .failed fault
  | _ =>
    let reading := source.slice s.needed skipped.rest
    match reading.stop with
    | .failed fault => .failed fault
    | .ended => .ended
    | .limit =>
      .item (s.carried ++ reading.items)
        (behind _ (s.length_filled_le source skipped.rest) reading.rest)

theorem handleWeight_of_pull {source : Source σ α} {s rest : Windowing w σ α}
    {window : List α} (h : s.pull source = .item window rest) :
    source.handleWeight rest.handle < source.handleWeight s.handle := by
  unfold pull at h
  dsimp only at h
  split at h
  · cases h
  · split at h
    · cases h
    · cases h
    · rename_i hr
      cases h
      exact Nat.lt_of_lt_of_le (source.handleWeight_slice_lt s.needed_pos hr)
        (source.handleWeight_slice s.gap s.handle)

end Windowing

def Source.windowed {σ α : Type} (source : Source σ α) (w : Window) :
    Source (Windowing w σ α) (List α) where
  pull := Windowing.pull source
  weight s := source.handleWeight s.handle
  weight_lt := Windowing.handleWeight_of_pull

/-! ## Windows of a list -/

def windows {α : Type} (w : Window) (items : List α) : List (List α) :=
  if _h : (items.take w.size).length = w.size then
    items.take w.size :: windows w (items.drop w.step)
  else []
termination_by items.length
decreasing_by
  have := w.size_pos
  have := w.step_pos
  simp only [List.length_take, List.length_drop] at *
  omega

theorem windows_of_lt {α : Type} {w : Window} {items : List α} (h : items.length < w.size) :
    windows w items = [] := by
  unfold windows
  rw [List.length_take]
  exact dif_neg (by omega)

theorem windows_of_le {α : Type} {w : Window} {items : List α} (h : w.size ≤ items.length) :
    windows w items = items.take w.size :: windows w (items.drop w.step) := by
  conv => lhs; unfold windows
  rw [List.length_take]
  exact dif_pos (by omega)

theorem length_of_mem_windows {α : Type} {w : Window} {items window : List α}
    (h : window ∈ windows w items) : window.length = w.size := by
  fun_induction windows w items with
  | case1 items hf ih =>
    rcases List.mem_cons.mp h with rfl | hr
    · exact hf
    · exact ih hr
  | case2 => simp at h

/-- The windows of a feed, one after the other. A window or a gap that cannot be counted
is a fault as soon as it is reached. -/
def Feed.windowed {α : Type} (w : Window) (feed : Feed α) : Feed (List α) :=
  if advanceLimit < w.size then ⟨[], some (.misuse .advance)⟩
  else
    match windows w feed.items with
    | [] => ⟨[], feed.fault⟩
    | first :: rest =>
      if advanceLimit < w.step - w.size then ⟨[first], some (.misuse .advance)⟩
      else ⟨first :: rest, feed.fault⟩

/-! ## Windows of a source and of its feed -/

/-- The elements behind the step of a window, taken from what the window holds and from
what follows it. -/
theorem drop_step {α : Type} (w : Window) {items : List α} (h : w.size ≤ items.length) :
    (items.take w.size).drop w.step ++ (items.drop w.size).drop (w.step - w.size) =
      items.drop w.step := by
  rcases Nat.le_total w.size w.step with hle | hle
  · have ht : (items.take w.size).drop w.step = [] :=
      List.drop_of_length_le (by rw [List.length_take]; omega)
    rw [ht, List.nil_append, List.drop_drop, Nat.add_sub_cancel' hle]
  · conv => rhs; rw [← List.take_append_drop w.size items]
    rw [List.drop_append_of_le_length (by rw [List.length_take]; omega),
      Nat.sub_eq_zero_of_le hle, List.drop_zero]

namespace Windowing

variable {w : Window} {σ α : Type} {source : Source σ α}

/-- What the next windows are taken from: the carried elements and what lies behind the
gap. -/
def unread (s : Windowing w σ α) (source : Source σ α) : List α :=
  s.carried ++ (source.feed s.handle).items.drop s.gap

/-- The counts that a state asks its source for can be counted. -/
def Countable (s : Windowing w σ α) : Prop := s.gap ≤ advanceLimit ∧ s.needed ≤ advanceLimit

theorem feed_of_gap {s : Windowing w σ α} (h : advanceLimit < s.gap) :
    (source.windowed w).feed (some s) = ⟨[], some (.misuse .advance)⟩ := by
  apply (source.windowed w).feed_of_failed
  show s.pull source = _
  unfold pull
  simp only [source.slice_of_lt h]

theorem feed_of_needed {s : Windowing w σ α} (hg : s.gap = 0) (h : advanceLimit < s.needed) :
    (source.windowed w).feed (some s) = ⟨[], some (.misuse .advance)⟩ := by
  apply (source.windowed w).feed_of_failed
  show s.pull source = _
  unfold pull
  simp only [source.slice_of_lt h, hg, source.slice_of_le (Nat.zero_le _)]
  rfl

/-- A window that cannot be filled is not delivered, and the windows end as the elements
do. -/
theorem feed_of_short {s : Windowing w σ α} (hs : s.Countable)
    (h : (s.unread source).length < w.size) :
    (source.windowed w).feed (some s) = ⟨[], (source.feed s.handle).fault⟩ := by
  have hn : s.needed = w.size - s.carried.length := rfl
  have hpos := s.needed_pos
  unfold unread at h
  rw [List.length_append, List.length_drop] at h
  have hpull : s.pull source =
      (source.feed s.handle).fault.elim .ended .failed := by
    unfold pull
    simp only [source.slice_of_le hs.1, source.slice_of_le hs.2, source.stop_read,
      source.feed_rest_read]
    generalize source.feed s.handle = feed at h
    obtain ⟨items, fault⟩ := feed
    unfold Feed.behind Feed.stopAt
    by_cases hg : s.gap ≤ items.length
    · have hshort : ¬ s.needed ≤ items.length - s.gap := by
        dsimp only at h
        omega
      cases fault <;> simp [hg, hshort, Feed.drop]
    · cases fault with
      | none => simp [hg, Feed.empty, Nat.ne_of_gt hpos]
      | some fault => simp [hg]
  cases hf : (source.feed s.handle).fault with
  | none =>
    rw [hf] at hpull
    exact (source.windowed w).feed_of_ended hpull
  | some fault =>
    rw [hf] at hpull
    exact (source.windowed w).feed_of_failed hpull

/-- A window that can be filled is delivered, and the state behind it has not read what
lies behind the step. -/
theorem pull_of_full {s : Windowing w σ α} (hs : s.Countable)
    (h : w.size ≤ (s.unread source).length) :
    ∃ rest : Windowing w σ α, s.pull source = .item ((s.unread source).take w.size) rest ∧
      rest.unread source = (s.unread source).drop w.step ∧
      (source.feed rest.handle).fault = (source.feed s.handle).fault ∧
      rest.gap = w.step - w.size := by
  have hn : s.needed = w.size - s.carried.length := rfl
  have hlt := s.carried_lt
  have hdrop := drop_step w h
  unfold unread at h hdrop ⊢
  rw [List.length_append, List.length_drop] at h
  have hg : s.gap ≤ (source.feed s.handle).items.length := by omega
  have hskip : (source.read s.gap s.handle).stop = .limit := by
    rw [source.stop_read, Feed.stopAt, if_pos hg]
  have hbehind : source.feed (source.read s.gap s.handle).rest =
      (source.feed s.handle).drop s.gap := by
    rw [source.feed_rest_read, Feed.behind, if_pos hg]
  have hl : s.needed ≤ ((source.feed s.handle).drop s.gap).items.length := by
    unfold Feed.drop
    rw [List.length_drop]
    omega
  have hstop : (source.read s.needed (source.read s.gap s.handle).rest).stop = .limit := by
    rw [source.stop_read, hbehind, Feed.stopAt, if_pos hl]
  have hwindow : s.carried ++ (source.read s.needed (source.read s.gap s.handle).rest).items =
      (s.carried ++ (source.feed s.handle).items.drop s.gap).take w.size := by
    rw [source.items_read, hbehind, List.take_append,
      List.take_of_length_le (Nat.le_of_lt hlt), ← hn]
    rfl
  have hrest : source.feed (source.read s.needed (source.read s.gap s.handle).rest).rest =
      ((source.feed s.handle).drop s.gap).drop s.needed := by
    rw [source.feed_rest_read, hbehind, Feed.behind, if_pos hl]
  refine ⟨behind _ (hwindow ▸ List.length_take_le _ _)
    (source.read s.needed (source.read s.gap s.handle).rest).rest, ?_, ?_, ?_, rfl⟩
  · unfold pull
    simp only [source.slice_of_le hs.1, source.slice_of_le hs.2, hskip, hstop]
    simp only [hwindow]
  · rw [← hdrop, List.drop_append, List.drop_of_length_le (Nat.le_of_lt hlt), List.nil_append,
      ← hn]
    simp only [behind, hrest, hwindow]
    rfl
  · simp only [behind, hrest]
    rfl

/-- Carrying and skipping come to the windows of what is unread, when everything can be
counted. -/
theorem feed_of_countable (hsize : w.size ≤ advanceLimit)
    (hgap : w.step - w.size ≤ advanceLimit) (s : Windowing w σ α) (hs : s.gap ≤ advanceLimit) :
    (source.windowed w).feed (some s) =
      ⟨windows w (s.unread source), (source.feed s.handle).fault⟩ := by
  have hc : s.Countable := ⟨hs, Nat.le_trans (Nat.sub_le _ _) hsize⟩
  by_cases h : (s.unread source).length < w.size
  · rw [feed_of_short hc h, windows_of_lt h]
  · obtain ⟨rest, hp, hu, hf, hr⟩ := pull_of_full hc (Nat.le_of_not_lt h)
    have ih := feed_of_countable hsize hgap rest (hr ▸ hgap)
    rw [(source.windowed w).feed_of_item hp, ih, windows_of_le (Nat.le_of_not_lt h), hu, hf]
    rfl
termination_by source.handleWeight s.handle
decreasing_by exact handleWeight_of_pull hp

end Windowing

theorem Source.feed_windowed {σ α : Type} (source : Source σ α) (w : Window)
    (handle : Option σ) :
    (source.windowed w).feed (some (.start w handle)) = (source.feed handle).windowed w := by
  have hu : (Windowing.start w handle).unread source = (source.feed handle).items := rfl
  unfold Feed.windowed
  by_cases hsize : advanceLimit < w.size
  · rw [if_pos hsize]
    exact Windowing.feed_of_needed rfl hsize
  · rw [if_neg hsize]
    have hs : (Windowing.start w handle : Windowing w σ α).Countable :=
      ⟨Nat.zero_le _, Nat.le_of_not_lt hsize⟩
    by_cases hgap : advanceLimit < w.step - w.size
    · by_cases h : (source.feed handle).items.length < w.size
      · rw [Windowing.feed_of_short hs h, windows_of_lt h]
        rfl
      · obtain ⟨rest, hp, -, -, hr⟩ := Windowing.pull_of_full hs (Nat.le_of_not_lt h)
        have hp : (source.windowed w).pull (.start w handle) = .item _ rest := hp
        rw [(source.windowed w).feed_of_item hp, Windowing.feed_of_gap (hr ▸ hgap),
          windows_of_le (Nat.le_of_not_lt h)]
        simp only [if_pos hgap]
        rfl
    · rw [Windowing.feed_of_countable (Nat.le_of_not_lt hsize) (Nat.le_of_not_lt hgap) _
        (Nat.zero_le _), hu]
      cases windows w (source.feed handle).items with
      | nil => rfl
      | cons first rest =>
        simp only [if_neg hgap]
        rfl

end NumericActions
