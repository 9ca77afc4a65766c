import NumericActions.Proofs.Outcome
import NumericActions.Proofs.Registration

/-!
# The first problem wins

An elementwise or windowed action meets the numbers of its arguments one after the other,
and so its units: single numbers, or pairs. What comes first decides: a unit whose result
fails, or a foreign leaf behind all full units.

* `windows_pairs`: adjacent pairs, by recursion on the list.
* `Feed.decides_mapM`: the outcome of a function on a feed.
* `Action.execute_decides`: the outcome of the elementwise and the windowed actions of a
  registry, for all arguments and every sink.
-/

namespace NumericActions

/-! ## Pairs -/

/-- The elements two by two; an odd last element is dropped. -/
def pairs {α : Type} : List α → List (List α)
  | a :: b :: rest => [a, b] :: pairs rest
  | [_] => []
  | [] => []

theorem windows_pairs {α : Type} (items : List α) : windows .pairs items = pairs items := by
  induction items using pairs.induct with
  | case1 a b rest ih =>
    rw [windows_of_le (Nat.le_add_left 2 rest.length), pairs, ← ih]
    rfl
  | case2 a => exact windows_of_lt (Nat.lt_succ_self 1)
  | case3 => exact windows_of_lt (Nat.zero_lt_succ 1)

theorem length_pairs {α : Type} (items : List α) : (pairs items).length = items.length / 2 := by
  induction items using pairs.induct with
  | case1 a b rest ih =>
    simp only [pairs, List.length_cons, ih]
    omega
  | case2 a => simp [pairs]
  | case3 => simp [pairs]

theorem Feed.windowed_pairs {α : Type} (feed : Feed α) :
    feed.windowed .pairs = ⟨pairs feed.items, feed.fault⟩ := by
  have hsize : ¬ advanceLimit < Window.pairs.size := by decide
  have hgap : ¬ advanceLimit < Window.pairs.step - Window.pairs.size := by decide
  unfold Feed.windowed
  rw [if_neg hsize, windows_pairs]
  cases pairs feed.items with
  | nil => rfl
  | cons first rest => simp only [if_neg hgap]

/-! ## Units in order -/

/-- What the results of a function on units come to, when a foreign leaf may follow. The
cases exclude each other, and one of them applies. -/
structure FirstProblemDecides {α β : Type} (f : α → Except Fault β) (units : List α)
    (foreign : Option Value) (outcome : Except Fault (List β)) : Prop where
  /-- The first unit that fails decides, whatever follows. -/
  unit : ∀ before u after fault, units = before ++ u :: after →
    (∀ v ∈ before, ∃ b, f v = .ok b) → f u = .error fault → outcome = .error fault
  /-- A foreign leaf behind units that all succeed decides. -/
  leaf : ∀ v, foreign = some v → (∀ u ∈ units, ∃ b, f u = .ok b) →
    outcome = .error (.invalidTerm v)
  /-- Without any problem there is one result for each unit, in their order. -/
  results : foreign = none → (∀ u ∈ units, ∃ b, f u = .ok b) →
    ∃ results, outcome = .ok results ∧ results.length = units.length ∧
      ∀ i (hi : i < units.length), ∃ b, results[i]? = some b ∧ f units[i] = .ok b

theorem Feed.decides_mapM {α β : Type} (f : α → Except Fault β) (units : List α)
    (foreign : Option Value) :
    FirstProblemDecides f units foreign
      ((⟨units, foreign.map .invalidTerm⟩ : Feed α).mapM f) := by
  constructor
  · intro before u after fault hu hb hf
    unfold Feed.mapM
    dsimp only
    rw [hu, mapM_of_first_error hb hf]
    rfl
  · intro v hv hok
    obtain ⟨results, hr, -⟩ := exists_mapM_ok hok
    unfold Feed.mapM
    dsimp only
    rw [hr, hv]
    rfl
  · intro hn hok
    obtain ⟨results, hr, hl, hi⟩ := exists_mapM_ok hok
    refine ⟨results, ?_, hl, hi⟩
    unfold Feed.mapM
    dsimp only
    rw [hr, hn]
    rfl

theorem elementwise_decides {α : Type} (f : Number → Except Fault α) (terms : List Value) :
    FirstProblemDecides f (Value.leavesOfAll terms).numbers (Value.leavesOfAll terms).foreign
      (elementwise f terms) := by
  rw [elementwise_eq]
  exact Feed.decides_mapM f _ _

theorem windowed_pairs_decides {α : Type} (f : List Number → Except Fault α)
    (terms : List Value) :
    FirstProblemDecides f (pairs (Value.leavesOfAll terms).numbers)
      (Value.leavesOfAll terms).foreign (windowed .pairs f terms) := by
  rw [windowed_eq, Feed.windowed_pairs]
  exact Feed.decides_mapM f _ _

/-! ## The actions of a registry -/

namespace Action

/-- The outcome and the sink are decided by the results. -/
theorem execute_eq (action : Action) (parallel : Bool) (arguments sink : List Value) :
    action.execute parallel arguments sink =
      match action.results arguments with
      | .ok results => (.ok (), sink ++ results)
      | .error fault => (.error ⟨fault, some action.name.text⟩, sink) := by
  unfold execute call Fault.attributed
  cases action.results arguments <;> rfl

theorem execute_eq_ok_iff {action : Action} {parallel : Bool} {arguments sink after : List Value} :
    action.execute parallel arguments sink = (.ok (), after) ↔
      ∃ results, action.results arguments = .ok results ∧ after = sink ++ results := by
  rw [execute_eq]
  cases action.results arguments <;> simp [eq_comm]

/-- The first problem in the order of the numbers wins: for all elementwise and all windowed
actions of a registry, all arguments and every sink. Too few arguments are a problem before
all others. -/
theorem execute_decides {library : Elementary} {scope : String} {registry : Registry}
    (h : Registry.ofCatalogue library scope = .ok registry) {action : Action}
    (ha : action ∈ registry.actions) (parallel : Bool) (arguments sink : List Value) :
    let leaves := Value.leavesOfAll arguments
    let outcome := action.results arguments
    (action.execute parallel arguments sink =
      match outcome with
      | .ok results => (.ok (), sink ++ results)
      | .error fault => (.error ⟨fault, some action.name.text⟩, sink)) ∧
    (arguments.length < action.minimalArguments →
      outcome = .error (.tooFewArguments action.minimalArguments arguments.length)) ∧
    (action.minimalArguments ≤ arguments.length →
      (∀ f, action.method = .elementwise f →
        FirstProblemDecides f leaves.numbers leaves.foreign outcome) ∧
      (∀ w f, action.method = .windowed w f →
        FirstProblemDecides f (pairs leaves.numbers) leaves.foreign outcome ∧
        (pairs leaves.numbers).length = leaves.numbers.length / 2)) := by
  intro leaves outcome
  refine ⟨action.execute_eq parallel arguments sink, results_of_length_lt, ?_⟩
  intro hlen
  have hout : outcome = action.method.evaluate arguments := results_of_le_length hlen
  rw [hout]
  constructor
  · intro f hm
    rw [hm]
    exact elementwise_decides f arguments
  · intro w f hm
    obtain ⟨entry, he, -, -, hmethod⟩ := Registry.mem_catalogue h ha
    have hw : w = .pairs := CatalogueEntry.window_of_windowed he (hmethod.symm.trans hm)
    rw [hm, hw]
    exact ⟨windowed_pairs_decides f arguments, length_pairs _⟩

/-- A negative number in front of a truth value is the problem that a factorial ends with. -/
theorem execute_factorial_negative :
    ∃ registry action, Registry.ofCatalogue Elementary.native "math" = .ok registry ∧
      action ∈ registry.actions ∧ action.name.text = "math/factorial" ∧
      action.execute false [.int 3, .list [.int (-1), .bool true]] [.null] =
        (.error ⟨.domain (.negative "n" (.int (-1))), some "math/factorial"⟩, [.null]) := by
  obtain ⟨registry, hr⟩ :
      ∃ registry, Registry.ofCatalogue Elementary.native "math" = .ok registry :=
    exists_eq_ok (by decide +kernel)
  obtain ⟨action, hs⟩ := exists_eq_ok
    (show ((CatalogueEntry.mk "factorial" "int(x)! in the 64-bit domain" 1
      (ofIntegers fun n => return .int (← factorial n))).action? "math").isOk by decide +kernel)
  have ha : action ∈ registry.actions :=
    (Registry.mem_actions_iff hr action).mpr ⟨_, by simp [catalogue, elementwiseEntries], hs⟩
  obtain ⟨hn, hm, -, hf⟩ := CatalogueEntry.action?_spec hs
  have hname : action.name.text = "math/factorial" := hn
  refine ⟨registry, action, hr, ha, hname, ?_⟩
  obtain ⟨he, -, hd⟩ := execute_decides hr ha false
    [.int 3, .list [.int (-1), .bool true]] [.null]
  have h3 : (Number.int 3).toInt64 = .ok 3 := by
    rw [Number.toInt64_int, if_neg (by decide)]
  have hn1 : (Number.int (-1)).toInt64 = .ok (-1) := by
    rw [Number.toInt64_int, if_neg (by decide)]
  have hout := ((hd (by rw [hm]; decide)).1 _ hf).unit [.int 3] (.int (-1)) []
    (.domain (.negative "n" (.int (-1)))) rfl
    (by simp [h3, factorial_eq, bind, Except.bind, pure, Except.pure, maxFactorialArgument])
    (by simp [hn1, factorial_eq, bind, Except.bind])
  rw [he, hout, hname]

end Action

end NumericActions
