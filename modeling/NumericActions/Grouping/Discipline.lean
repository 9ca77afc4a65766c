import NumericActions.Grouping.Window

/-!
# Grouping disciplines

The numbers of an argument list are handed to a function in one of four ways: one by
one, window by window, all at once, or one by one behind parameters taken from the front
of the list.

The numbers come from a source, so a function has been applied to all numbers in front of
a foreign leaf when that leaf is met.

* `elementwise`, `windowed`, `aggregate`, `parameterized`: the four ways.
* `numbers_or_first`, `numbersFrom_of_first`: the parameters up to the first that is no number.
* `elementwise_eq`, `windowed_eq`, `aggregate_eq`, `parameterized_eq`: each of them in terms
  of the leaves of the arguments.
-/

namespace NumericActions

variable {α : Type}

def elementwise (f : Number → Except Fault α) (terms : List Value) :
    Except Fault (List α) :=
  Cursor.source.mapM f (Cursor.opened terms)

def windowed (w : Window) (f : List Number → Except Fault α) (terms : List Value) :
    Except Fault (List α) :=
  (Cursor.source.windowed w).mapM f (some (.start w (Cursor.opened terms)))

def aggregate (f : List Number → Except Fault α) (terms : List Value) : Except Fault α := do
  f (← Cursor.source.toList (Cursor.opened terms))

/-! ## Parameters -/

/-- The first terms: a count below zero leaves out so many at the end. -/
def leading (count : Int) (terms : List Value) : List Value :=
  terms.take (if count < 0 then (terms.length + count).toNat else count.toNat)

def ensureNumber (v : Value) : Except Fault Number :=
  match v.number? with
  | some n => .ok n
  | none => .error (.notANumber v)

/-- Values that must be single numbers, the first of them having the given index. -/
def numbersFrom (index : Nat) : List Value → Except Fault (List Number)
  | [] => .ok []
  | v :: vs => do
    match v.number? with
    | none => .error (.invalidParameter index v)
    | some n => return n :: (← numbersFrom (index + 1) vs)

/-- The parameters in front of the data, which are not opened if they are sequences. -/
def splitParameters (count : Int) (terms : List Value) : Except Fault (List Number) :=
  numbersFrom 0 (leading count terms)

theorem numbersFrom_map_number (index : Nat) (numbers : List Number) :
    numbersFrom index (numbers.map .number) = .ok numbers := by
  induction numbers generalizing index with
  | nil => rfl
  | cons n numbers ih =>
    rw [List.map_cons, numbersFrom]
    dsimp only [Value.number?]
    rw [ih]
    rfl

/-- The first value that is no number is reported with its index. -/
theorem numbersFrom_of_first {v : Value} (hv : v.number? = none) (index : Nat)
    (before : List Number) (after : List Value) :
    numbersFrom index (before.map .number ++ v :: after) =
      .error (.invalidParameter (index + before.length) v) := by
  induction before generalizing index with
  | nil =>
    rw [List.map_nil, List.nil_append, numbersFrom, hv]
    rfl
  | cons n before ih =>
    rw [List.map_cons, List.cons_append, numbersFrom]
    dsimp only [Value.number?]
    rw [ih, List.length_cons, Nat.add_assoc, Nat.add_comm 1]
    rfl

/-- Values are all numbers, or there is a first one that is not. -/
theorem numbers_or_first (terms : List Value) :
    (∃ numbers : List Number, terms = numbers.map .number) ∨
      ∃ (before : List Number) (v : Value) (after : List Value),
        terms = before.map .number ++ v :: after ∧ v.number? = none := by
  induction terms with
  | nil => exact .inl ⟨[], rfl⟩
  | cons v terms ih =>
    by_cases hv : v.number? = none
    · exact .inr ⟨[], v, terms, rfl, hv⟩
    · obtain ⟨n, rfl⟩ : ∃ n, v = .number n := by
        cases v <;> simp [Value.number?] at hv ⊢
      rcases ih with ⟨numbers, rfl⟩ | ⟨before, w, after, rfl, hw⟩
      · exact .inl ⟨n :: numbers, rfl⟩
      · exact .inr ⟨n :: before, w, after, rfl, hw⟩

/-- How many parameters an argument list begins with, and how many of its numbers are
not data. -/
structure ParameterLayout where
  count : Int
  skip : Int

/-- The function applied to the parameters and each number of the data. The parameters
are looked at first. With fewer numbers to skip than parameters, the last parameters are
data too. -/
def parameterized (layout : ParameterLayout) (f : List Number → Number → Except Fault α)
    (terms : List Value) : Except Fault (List α) := do
  let parameters ← splitParameters layout.count terms
  if layout.skip < 0 ∨ advanceLimit < layout.skip then .error (.misuse .skip)
  else
    let skipped := Cursor.source.read layout.skip.toNat (Cursor.opened terms)
    match skipped.stop with
    | .failed fault => .error fault
    | _ => Cursor.source.mapM (f parameters) skipped.rest

/-! ## Dependence on the leaves -/

theorem elementwise_eq (f : Number → Except Fault α) (terms : List Value) :
    elementwise f terms = (Feed.ofTerms terms).mapM f := by
  rw [elementwise, Source.mapM_eq, Cursor.feed_source]

theorem windowed_eq (w : Window) (f : List Number → Except Fault α) (terms : List Value) :
    windowed w f terms = ((Feed.ofTerms terms).windowed w).mapM f := by
  rw [windowed, Source.mapM_eq, Source.feed_windowed, Cursor.feed_source]

theorem aggregate_eq (f : List Number → Except Fault α) (terms : List Value) :
    aggregate f terms = (Feed.ofTerms terms).toList >>= f := by
  rw [aggregate, Source.toList_eq, Cursor.feed_source]

theorem parameterized_eq (layout : ParameterLayout)
    (f : List Number → Number → Except Fault α) (terms : List Value) :
    parameterized layout f terms = splitParameters layout.count terms >>= fun parameters =>
      if layout.skip < 0 ∨ advanceLimit < layout.skip then .error (.misuse .skip)
      else ((Feed.ofTerms terms).drop layout.skip.toNat).mapM (f parameters) := by
  unfold parameterized
  apply bind_congr
  intro parameters
  split
  · rfl
  · rw [← Cursor.feed_source]
    exact Source.mapM_behind _ _ _ _

end NumericActions
