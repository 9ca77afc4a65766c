import NumericActions.Grouping.Feed
import NumericActions.Term.Cursor

/-!
# Sources

A source computes its items one at a time, each when it is asked for. Between two requests
it rests in a state. A handle on a source is such a state, or nothing once the source has
ended or failed; from then on it delivers nothing more.

* `Source.read`: at most so many items.
* `Source.mapM`: a function on the items as they come.
* `Source.feed`: all that a source delivers.
* `Cursor.source`: the numbers of terms, read by a cursor.
* `items_read`, `stop_read`, `feed_rest_read`: a reading is a part of the feed.
* `mapM_eq`, `mapM_behind`: a function on the items as they come is that function on the
  feed.
* `feed_source`: the feed of a cursor is found by recursion on the terms.
-/

namespace NumericActions

/-- What an open source answers to a request. -/
inductive Pull (σ α : Type) where
  | item (a : α) (rest : σ)
  | failed (fault : Fault)
  | ended

/-- A way to compute items from a state. Every item makes the state lighter, so a source
ends. -/
structure Source (σ α : Type) where
  pull : σ → Pull σ α
  weight : σ → Nat
  weight_lt : ∀ {s : σ} {a : α} {rest : σ}, pull s = .item a rest → weight rest < weight s

/-- Why a reading has stopped. -/
inductive Stop where
  | limit
  | ended
  | failed (fault : Fault)

/-- The items of a reading, why it has stopped, and the handle behind it. -/
structure Reading (σ α : Type) where
  items : List α
  stop : Stop
  rest : Option σ

namespace Source

variable {σ α β : Type} (source : Source σ α)

/-- The weight of a handle, which is least when the source is closed. -/
def handleWeight : Option σ → Nat
  | none => 0
  | some s => source.weight s + 1

/-! ## Requests -/

/-- At most so many items behind those already seen, the last of them first. The source is
not asked again when they have been read. -/
def readOnto : Nat → Option σ → List α → Reading σ α
  | 0, handle, seen => ⟨seen.reverse, .limit, handle⟩
  | _ + 1, none, seen => ⟨seen.reverse, .ended, none⟩
  | count + 1, some s, seen =>
    match source.pull s with
    | .item a rest => readOnto count (some rest) (a :: seen)
    | .failed fault => ⟨seen.reverse, .failed fault, none⟩
    | .ended => ⟨seen.reverse, .ended, none⟩

def read (count : Nat) (handle : Option σ) : Reading σ α := source.readOnto count handle []

/-- The results of a function on the items as they come, behind those already there, the
last of them first. An item whose result fails is the last that is asked for. -/
def mapOnto (f : α → Except Fault β) (handle : Option σ) (done : List β) :
    Except Fault (List β) :=
  match handle with
  | none => .ok done.reverse
  | some s =>
    match _h : source.pull s with
    | .item a rest =>
      match f a with
      | .ok b => mapOnto f (some rest) (b :: done)
      | .error fault => .error fault
    | .failed fault => .error fault
    | .ended => .ok done.reverse
termination_by source.handleWeight handle
decreasing_by exact Nat.succ_lt_succ (source.weight_lt _h)

def mapM (f : α → Except Fault β) (handle : Option σ) : Except Fault (List β) :=
  source.mapOnto f handle []

def toList (handle : Option σ) : Except Fault (List α) := source.mapM .ok handle

/-- All that a source delivers, and how it ends. -/
def feed (handle : Option σ) : Feed α :=
  match handle with
  | none => .empty
  | some s =>
    match _h : source.pull s with
    | .item a rest => (feed (some rest)).cons a
    | .failed fault => ⟨[], some fault⟩
    | .ended => .empty
termination_by source.handleWeight handle
decreasing_by exact Nat.succ_lt_succ (source.weight_lt _h)

/-! ## Readings and the feed -/

@[simp] theorem feed_none : source.feed none = .empty := by
  unfold feed
  rfl

theorem feed_of_item {s rest : σ} {a : α} (h : source.pull s = .item a rest) :
    source.feed (some s) = (source.feed (some rest)).cons a := by
  rw [feed]
  split <;> simp_all

theorem feed_of_failed {s : σ} {fault : Fault} (h : source.pull s = .failed fault) :
    source.feed (some s) = ⟨[], some fault⟩ := by
  rw [feed]
  split <;> simp_all

theorem feed_of_ended {s : σ} (h : source.pull s = .ended) :
    source.feed (some s) = .empty := by
  rw [feed]
  split <;> simp_all

end Source

/-- Where a reading of so many items of a feed stops. -/
def Feed.stopAt {α : Type} (count : Nat) (feed : Feed α) : Stop :=
  if count ≤ feed.items.length then .limit else feed.fault.elim .ended .failed

/-- What a reading of so many items leaves; the end is delivered once. -/
def Feed.behind {α : Type} (count : Nat) (feed : Feed α) : Feed α :=
  if count ≤ feed.items.length then feed.drop count else .empty

namespace Source

variable {σ α β : Type} (source : Source σ α)

theorem readOnto_eq (count : Nat) (handle : Option σ) (seen : List α) :
    (source.readOnto count handle seen).items =
        seen.reverse ++ (source.feed handle).items.take count ∧
      (source.readOnto count handle seen).stop = (source.feed handle).stopAt count ∧
      source.feed (source.readOnto count handle seen).rest =
        (source.feed handle).behind count := by
  fun_induction source.readOnto count handle seen with
  | case1 handle seen => simp [Feed.stopAt, Feed.behind, Feed.drop]
  | case2 count seen => simp [Feed.stopAt, Feed.behind, Feed.empty]
  | case3 count s seen a rest h ih =>
    obtain ⟨hi, hs, hf⟩ := ih
    rw [source.feed_of_item h]
    refine ⟨by simp [hi, Feed.cons], ?_, ?_⟩
    · simp [hs, Feed.stopAt, Feed.cons]
    · simp [hf, Feed.behind, Feed.cons, Feed.drop]
  | case4 count s seen fault h => simp [source.feed_of_failed h, Feed.stopAt, Feed.behind]
  | case5 count s seen h =>
    simp [source.feed_of_ended h, Feed.stopAt, Feed.behind, Feed.empty]

theorem items_read (count : Nat) (handle : Option σ) :
    (source.read count handle).items = (source.feed handle).items.take count := by
  have h := (source.readOnto_eq count handle []).1
  rwa [List.reverse_nil, List.nil_append] at h

theorem stop_read (count : Nat) (handle : Option σ) :
    (source.read count handle).stop = (source.feed handle).stopAt count :=
  (source.readOnto_eq count handle []).2.1

theorem feed_rest_read (count : Nat) (handle : Option σ) :
    source.feed (source.read count handle).rest = (source.feed handle).behind count :=
  (source.readOnto_eq count handle []).2.2

/-- A closed source delivers nothing more and never fails. -/
theorem read_none (count : Nat) :
    source.read count none = ⟨[], if count = 0 then .limit else .ended, none⟩ := by
  cases count <;> rfl

/-- A reading of an open source closes it exactly when it does not come to its limit. -/
theorem rest_readOnto_eq_none_iff (count : Nat) (s : σ) (seen : List α) :
    (source.readOnto count (some s) seen).rest = none ↔
      (source.readOnto count (some s) seen).stop ≠ .limit := by
  induction count generalizing s seen with
  | zero => simp [readOnto]
  | succ count ih =>
    unfold readOnto
    cases source.pull s with
    | item a rest => exact ih rest (a :: seen)
    | failed fault => simp
    | ended => simp

theorem handleWeight_readOnto (count : Nat) (handle : Option σ) (seen : List α) :
    source.handleWeight (source.readOnto count handle seen).rest ≤
      source.handleWeight handle := by
  fun_induction source.readOnto count handle seen with
  | case1 => exact Nat.le_refl _
  | case2 => exact Nat.le_refl _
  | case3 count s seen a rest h ih =>
    have := source.weight_lt h
    simp only [handleWeight] at ih ⊢
    omega
  | case4 => exact Nat.zero_le _
  | case5 => exact Nat.zero_le _

/-- A reading that comes to its limit behind at least one item has used up weight. -/
theorem handleWeight_read_lt {count : Nat} {handle : Option σ} (hc : 0 < count)
    (h : (source.read count handle).stop = .limit) :
    source.handleWeight (source.read count handle).rest < source.handleWeight handle := by
  obtain ⟨count, rfl⟩ := Nat.exists_eq_succ_of_ne_zero (Nat.ne_of_gt hc)
  unfold read at h ⊢
  cases handle with
  | none => simp [readOnto] at h
  | some s =>
    unfold readOnto at h ⊢
    cases hp : source.pull s with
    | item a rest =>
      have := source.weight_lt hp
      have := source.handleWeight_readOnto count (some rest) [a]
      simp only [handleWeight] at this ⊢
      omega
    | failed fault => simp [hp] at h
    | ended => simp [hp] at h

/-! ## Results and the feed -/

theorem mapOnto_eq (f : α → Except Fault β) (handle : Option σ) (done : List β) :
    source.mapOnto f handle done = do return done.reverse ++ (← (source.feed handle).mapM f) := by
  fun_induction source.mapOnto f handle done with
  | case1 done => simp [Feed.mapM, Feed.empty, bind, Except.bind, pure, Except.pure]
  | case2 done s a rest hp b hb ih =>
    rw [ih, source.feed_of_item hp, Feed.mapM_cons, hb]
    cases (source.feed (some rest)).mapM f <;>
      simp [bind, Except.bind, pure, Except.pure]
  | case3 done s a rest hp fault hb =>
    rw [source.feed_of_item hp, Feed.mapM_cons, hb]
    rfl
  | case4 done s fault hp =>
    rw [source.feed_of_failed hp]
    rfl
  | case5 done s hp =>
    rw [source.feed_of_ended hp]
    simp [Feed.mapM, Feed.empty, bind, Except.bind, pure, Except.pure]

theorem mapM_eq (f : α → Except Fault β) (handle : Option σ) :
    source.mapM f handle = (source.feed handle).mapM f := by
  unfold mapM
  rw [mapOnto_eq]
  cases (source.feed handle).mapM f <;> rfl

/-- A function on what is left behind a reading of the first items. -/
theorem mapM_behind (f : α → Except Fault β) (count : Nat) (handle : Option σ) :
    (match (source.read count handle).stop with
      | .failed fault => .error fault
      | _ => source.mapM f (source.read count handle).rest) =
      ((source.feed handle).drop count).mapM f := by
  rw [stop_read, mapM_eq, feed_rest_read]
  generalize source.feed handle = feed
  by_cases hc : count ≤ feed.items.length
  · rw [Feed.stopAt, Feed.behind, if_pos hc, if_pos hc]
  · have hd : feed.items.drop count = [] := List.drop_of_length_le (Nat.le_of_not_le hc)
    rw [Feed.stopAt, Feed.behind, if_neg hc, if_neg hc]
    unfold Feed.mapM Feed.drop
    rw [hd]
    cases feed.fault <;> rfl

theorem toList_eq (handle : Option σ) :
    source.toList handle = (source.feed handle).toList := by
  rw [toList, mapM_eq, Feed.mapM_ok]

end Source

/-! ## The numbers of terms -/

namespace Cursor

/-- The numbers that a cursor meets. A foreign leaf is a fault. -/
def source : Source Cursor Number where
  pull c :=
    match c.next with
    | .number n rest => .item n rest
    | .foreign v => .failed (.invalidTerm v)
    | .finished => .ended
  weight c := weight c.pending
  weight_lt := by
    intro c n rest h
    split at h <;> cases h
    rename_i hn
    exact advance_weight hn

def opened (terms : List Value) : Option Cursor := some (start terms)

theorem feed_source_some (c : Cursor) : source.feed (some c) = Feed.ofLeaves c.leaves := by
  rw [← next_leaves]
  cases hn : c.next with
  | number n rest =>
    have hp : source.pull c = .item n rest := by simp only [source, hn]
    rw [source.feed_of_item hp, feed_source_some rest]
    simp [Feed.cons, Feed.ofLeaves, Step.leaves, Leaves.append_def, Leaves.append]
  | foreign v =>
    have hp : source.pull c = .failed (.invalidTerm v) := by simp only [source, hn]
    rw [source.feed_of_failed hp]
    rfl
  | finished =>
    have hp : source.pull c = .ended := by simp only [source, hn]
    rw [source.feed_of_ended hp]
    rfl
termination_by weight c.pending
decreasing_by exact advance_weight hn

theorem feed_source (terms : List Value) : source.feed (opened terms) = Feed.ofTerms terms := by
  rw [opened, feed_source_some]
  simp [Feed.ofTerms, leaves, start]

end Cursor

end NumericActions
