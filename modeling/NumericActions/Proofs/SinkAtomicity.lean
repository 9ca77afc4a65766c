import NumericActions.Proofs.FirstProblem
import NumericActions.Registry.Session

/-!
# Executions on a shared sink

An execution puts all its results into the sink or nothing, and what it does depends neither
on what is in the sink nor on the hint. So the executions of a session do not influence each
other, and a failed one is as if it had not been asked for.

* `Method.exists_error_of_foreign`: a foreign leaf is met wherever it is.
* `Registry.Executes`, `Registry.executes`: what one execution comes to.
* `Registry.execute_cases`: one execution, on every sink and with either hint.
* `Session.executeAll_eq`: a run in terms of its executions on their own.
* `Session.executeAll_atomic`: the outcomes and the sink of a run, and its failed executions.
-/

namespace NumericActions

/-! ## One execution -/

theorem Feed.exists_error_of_fault {α β : Type} {feed : Feed α} (h : feed.fault ≠ none)
    (f : α → Except Fault β) : ∃ fault, feed.mapM f = .error fault := by
  obtain ⟨fault, hfault⟩ := Option.ne_none_iff_exists'.mp h
  cases hresults : feed.mapM f with
  | error other => exact ⟨other, rfl⟩
  | ok results => exact absurd hresults (mapM_of_fault hfault results)

/-- Windows come to an end only if what they are taken from does. -/
theorem Feed.fault_windowed_ne_none {α : Type} {feed : Feed α} (h : feed.fault ≠ none)
    (w : Window) : (feed.windowed w).fault ≠ none := by
  unfold windowed
  split
  · exact Option.some_ne_none _
  · split
    · exact h
    · split
      · exact Option.some_ne_none _
      · exact h

theorem Feed.fault_ofTerms_ne_none {terms : List Value}
    (h : (Value.leavesOfAll terms).foreign ≠ none) : (ofTerms terms).fault ≠ none := by
  simpa [ofTerms, ofLeaves] using h

/-- A foreign leaf is met by every way of grouping, behind the last full window and among the
numbers that are skipped as well. -/
theorem Method.exists_error_of_foreign (method : Method) {arguments : List Value}
    (h : (Value.leavesOfAll arguments).foreign ≠ none) :
    ∃ fault, method.evaluate arguments = .error fault := by
  have hfault := Feed.fault_ofTerms_ne_none h
  cases method with
  | elementwise f =>
    rw [evaluate, elementwise_eq]
    exact Feed.exists_error_of_fault hfault f
  | windowed w f =>
    rw [evaluate, windowed_eq]
    exact Feed.exists_error_of_fault (Feed.fault_windowed_ne_none hfault w) f
  | aggregate f =>
    obtain ⟨fault, hf⟩ := Option.ne_none_iff_exists'.mp hfault
    refine ⟨fault, ?_⟩
    rw [evaluate, aggregate_eq, Feed.toList, hf]
    rfl
  | parameterized layout f =>
    rw [evaluate, parameterized_eq]
    cases splitParameters layout.count arguments with
    | error fault => exact ⟨fault, rfl⟩
    | ok parameters =>
      have hdrop : ((Feed.ofTerms arguments).drop layout.skip.toNat).fault ≠ none := hfault
      simp only [bind, Except.bind]
      split
      · exact ⟨_, rfl⟩
      · exact Feed.exists_error_of_fault hdrop _

namespace Registry

/-- What one execution by a registry comes to, on every sink and with either hint. -/
structure Executes (registry : Registry) : Prop where
  unknown : ∀ call sink, registry.contains call.action = false →
    registry.execute call sink = (.error ⟨.unknownAction, some call.action⟩, sink)
  known : ∀ call sink, ∀ action ∈ registry.actions, action.name.text = call.action →
    registry.execute call sink = action.execute call.parallel call.arguments sink
  arity : ∀ call sink, ∀ action ∈ registry.actions, action.name.text = call.action →
    call.arguments.length < action.minimalArguments →
    registry.execute call sink =
      (.error ⟨.tooFewArguments action.minimalArguments call.arguments.length,
        some call.action⟩, sink)
  /-- With enough arguments the fault of the method is the fault of the execution. -/
  fault : ∀ call sink, ∀ action ∈ registry.actions, action.name.text = call.action →
    action.minimalArguments ≤ call.arguments.length →
    ∀ fault, action.method.evaluate call.arguments = .error fault →
      registry.execute call sink = (.error ⟨fault, some call.action⟩, sink)
  /-- What the method evaluates to is put behind what is in the sink, all of it. -/
  results : ∀ call sink, ∀ action ∈ registry.actions, action.name.text = call.action →
    action.minimalArguments ≤ call.arguments.length →
    ∀ results, action.method.evaluate call.arguments = .ok results →
      registry.execute call sink = (.ok (), sink ++ results)
  /-- A foreign leaf is a fault wherever it is. -/
  leaf : ∀ arguments, (Value.leavesOfAll arguments).foreign ≠ none →
    ∀ action ∈ registry.actions, ∃ fault, action.method.evaluate arguments = .error fault

theorem execute_of_mem {registry : Registry} {call : Invocation} {action : Action}
    (h : action ∈ registry.actions) (hname : action.name.text = call.action)
    (sink : List Value) :
    registry.execute call sink = action.execute call.parallel call.arguments sink := by
  unfold execute
  rw [← hname, get_of_mem h]

theorem executes (registry : Registry) : registry.Executes := by
  constructor
  · intro call sink hunknown
    unfold execute
    rw [get_of_not_contains hunknown]
  · intro call sink action h hname
    exact execute_of_mem h hname sink
  · intro call sink action h hname harity
    rw [execute_of_mem h hname, Action.execute_eq, Action.results_of_length_lt harity, hname]
  · intro call sink action h hname harity fault hfault
    rw [execute_of_mem h hname, Action.execute_eq, Action.results_of_le_length harity, hfault,
      hname]
  · intro call sink action h hname harity results hresults
    rw [execute_of_mem h hname, Action.execute_eq, Action.results_of_le_length harity, hresults]
  · intro arguments hforeign action h
    exact action.method.exists_error_of_foreign hforeign

/-- An execution fails on every sink and leaves it as it is, or it puts the same results at the
end of every sink. -/
theorem execute_cases (registry : Registry) (call : Invocation) :
    (∃ failure, ∀ parallel sink,
      registry.execute { call with parallel } sink = (.error failure, sink)) ∨
    ∃ results, ∀ parallel sink,
      registry.execute { call with parallel } sink = (.ok (), sink ++ results) := by
  unfold execute
  dsimp only
  cases registry.get call.action with
  | error failure => exact .inl ⟨failure, fun _ _ => rfl⟩
  | ok action =>
    dsimp only
    cases hcall : action.call call.arguments with
    | error failure => exact .inl ⟨failure, fun _ _ => Action.execute_of_error hcall _ _⟩
    | ok results => exact .inr ⟨results, fun _ _ => Action.execute_of_ok hcall _ _⟩

/-- What an execution comes to on its own, on an empty sink and without the hint. -/
def executeAlone (registry : Registry) (call : Invocation) : Except Failure Unit × List Value :=
  registry.execute { call with parallel := false } []

theorem execute_eq_executeAlone (registry : Registry) (call : Invocation) (sink : List Value) :
    registry.execute call sink =
      ((registry.executeAlone call).1, sink ++ (registry.executeAlone call).2) := by
  unfold executeAlone
  rcases registry.execute_cases call with ⟨failure, h⟩ | ⟨results, h⟩
  · have hcall : registry.execute call sink = (.error failure, sink) := h call.parallel sink
    rw [hcall, h, List.append_nil]
  · have hcall : registry.execute call sink = (.ok (), sink ++ results) := h call.parallel sink
    rw [hcall, h, List.nil_append]

theorem executeAlone_of_not_isOk {registry : Registry} {call : Invocation}
    (h : (registry.executeAlone call).1.isOk = false) : (registry.executeAlone call).2 = [] := by
  unfold executeAlone at h ⊢
  rcases registry.execute_cases call with ⟨failure, hcall⟩ | ⟨results, hcall⟩
  · rw [hcall]
  · rw [hcall] at h
    cases h

end Registry

namespace Session

/-! ## Runs -/

/-- A step of a run: the outcome is that of the execution on its own, and the sink grows by its
results. -/
theorem execute_eq (session : Session) (call : Invocation) :
    session.execute call =
      ((session.registry.executeAlone call).1,
        { session with sink := session.sink ++ (session.registry.executeAlone call).2 }) := by
  unfold execute
  rw [Registry.execute_eq_executeAlone]

theorem executeAll_eq (session : Session) (calls : List Invocation) :
    session.executeAll calls =
      (calls.map fun call => (session.registry.executeAlone call).1,
        { session with
          sink := session.sink ++ calls.flatMap fun call =>
            (session.registry.executeAlone call).2 }) := by
  induction calls generalizing session with
  | nil => simp [executeAll]
  | cons call calls ih =>
    unfold executeAll
    rw [execute_eq]
    dsimp only
    rw [ih]
    simp

/-- Only executions that succeed have results. -/
theorem flatMap_filter_isOk (registry : Registry) (calls : List Invocation) :
    (calls.filter fun call => (registry.executeAlone call).1.isOk).flatMap
        (fun call => (registry.executeAlone call).2) =
      calls.flatMap fun call => (registry.executeAlone call).2 := by
  induction calls with
  | nil => rfl
  | cons call calls ih =>
    rw [List.filter_cons, List.flatMap_cons, ← ih]
    split
    · rw [List.flatMap_cons]
    · rename_i h
      rw [Registry.executeAlone_of_not_isOk (Bool.eq_false_iff.mpr h), List.nil_append]

/-- The executions of a run on a shared sink. Each of them has the outcome that it has on its
own, on an empty sink and without the hint. The sink is what it was at the start and then, in
the order of the calls, the results of those that succeeded. A call that fails leaves the
session as it was, and without it all other outcomes and the final session are the same. Which
calls fail, and the results of the others, is what their methods evaluate to. -/
theorem executeAll_atomic (session : Session) (calls : List Invocation) :
    let alone := fun call : Invocation =>
      session.registry.execute { call with parallel := false } []
    (session.executeAll calls).1 = calls.map (fun call => (alone call).1) ∧
    (session.executeAll calls).2.registry = session.registry ∧
    (session.executeAll calls).2.sink = session.sink ++
      (calls.filter fun call => (alone call).1.isOk).flatMap (fun call => (alone call).2) ∧
    (∀ before call after, calls = before ++ call :: after → (alone call).1.isOk = false →
      (session.executeAll (before ++ [call])).2 = (session.executeAll before).2 ∧
      (session.executeAll (before ++ after)).2 = (session.executeAll calls).2 ∧
      (session.executeAll (before ++ after)).1 =
        (session.executeAll calls).1.eraseIdx before.length) ∧
    session.registry.Executes := by
  intro alone
  refine ⟨?_, ?_, ?_, ?_, session.registry.executes⟩
  · rw [executeAll_eq]
    rfl
  · rw [executeAll_eq]
  · rw [executeAll_eq]
    exact congrArg (session.sink ++ ·) (flatMap_filter_isOk session.registry calls).symm
  · rintro before call after rfl hfailed
    have hnone : (session.registry.executeAlone call).2 = [] :=
      Registry.executeAlone_of_not_isOk hfailed
    simp only [executeAll_eq]
    refine ⟨?_, ?_, ?_⟩
    · simp [hnone]
    · simp [hnone]
    · rw [List.map_append, List.map_append, List.map_cons,
        List.eraseIdx_append_of_length_le (by simp)]
      simp

/-- A factorial of a negative number between two others, with a truth value behind it. -/
theorem executeAll_failure_between :
    ∃ registry, Registry.ofCatalogue Elementary.native "math" = .ok registry ∧
      let three : Invocation := ⟨"math/factorial", [.int 3], false⟩
      let failing : Invocation := ⟨"math/factorial", [.int 4, .list [.int (-1), .bool true]], true⟩
      let five : Invocation := ⟨"math/factorial", [.list [.int 5]], true⟩
      let session : Session := ⟨registry, [.null]⟩
      session.executeAll [three, failing, five] =
        ([.ok (), .error ⟨.domain (.negative "n" (.int (-1))), some "math/factorial"⟩, .ok ()],
          ⟨registry, [.null, .int 6, .int 120]⟩) ∧
      session.executeAll [three, five] =
        ([.ok (), .ok ()], ⟨registry, [.null, .int 6, .int 120]⟩) := by
  obtain ⟨registry, hr⟩ :
      ∃ registry, Registry.ofCatalogue Elementary.native "math" = .ok registry :=
    exists_eq_ok (by decide +kernel)
  obtain ⟨action, hs⟩ := exists_eq_ok
    (show ((CatalogueEntry.mk "factorial" "int(x)! in the 64-bit domain" 1
      (ofIntegers fun n => return .int (← factorial n))).action? "math").isOk by decide +kernel)
  have ha : action ∈ registry.actions :=
    (Registry.mem_actions_iff hr action).mpr ⟨_, by simp [catalogue, elementwiseEntries], hs⟩
  obtain ⟨hn, hm, -, hf⟩ := CatalogueEntry.action?_spec hs
  have hname : action.name.text = "math/factorial" := hn
  have hint : ∀ n : Int, n.natAbs ≤ 5 → (Number.int n).toInt64 = .ok n := by
    intro n hn
    rw [Number.toInt64_int, if_neg]
    unfold int64Min int64Max
    omega
  have hterms3 : Feed.ofTerms [.int 3] = ⟨[.int 3], none⟩ := rfl
  have hterms4 : Feed.ofTerms [.int 4, .list [.int (-1), .bool true]] =
      ⟨[.int 4, .int (-1)], some (.invalidTerm (.bool true))⟩ := rfl
  have hterms5 : Feed.ofTerms [.list [.int 5]] = ⟨[.int 5], none⟩ := rfl
  have hevaluate : ∀ arguments, action.method.evaluate arguments =
      (Feed.ofTerms arguments).mapM fun x => do return .int (← factorial (← x.toInt64)) := by
    intro arguments
    rw [hf]
    exact elementwise_eq _ _
  refine ⟨registry, hr, ?_⟩
  intro three failing five session
  obtain ⟨houtcomes, hregistry, hsink, hfailed, hexecutes⟩ :=
    executeAll_atomic session [three, failing, five]
  have hthree : registry.execute { three with parallel := false } [] = (.ok (), [.int 6]) := by
    refine hexecutes.results _ [] action ha hname (by rw [hm]; decide) _ ?_
    rw [hevaluate, hterms3]
    simp [Feed.mapM, hint, factorial_eq, bind, Except.bind, pure, Except.pure,
      maxFactorialArgument, factorialProduct]
  have hfailing : registry.execute { failing with parallel := false } [] =
      (.error ⟨.domain (.negative "n" (.int (-1))), some "math/factorial"⟩, []) := by
    refine hexecutes.fault _ [] action ha hname (by rw [hm]; decide) _ ?_
    rw [hevaluate, hterms4]
    simp [Feed.mapM, hint, factorial_eq, bind, Except.bind, pure, Except.pure,
      maxFactorialArgument]
  have hfive : registry.execute { five with parallel := false } [] = (.ok (), [.int 120]) := by
    refine hexecutes.results _ [] action ha hname (by rw [hm]; decide) _ ?_
    rw [hevaluate, hterms5]
    simp [Feed.mapM, hint, factorial_eq, bind, Except.bind, pure, Except.pure,
      maxFactorialArgument, factorialProduct]
  obtain ⟨-, hwithout, houtcomes'⟩ := hfailed [three] failing [five] rfl (by
    show (registry.execute { failing with parallel := false } []).1.isOk = false
    rw [hfailing]
    rfl)
  have hfirst : (session.executeAll [three, failing, five]).1 =
      [.ok (), .error ⟨.domain (.negative "n" (.int (-1))), some "math/factorial"⟩, .ok ()] := by
    rw [houtcomes]
    simp only [List.map_cons, List.map_nil, session, hthree, hfailing, hfive]
  have hsecond : (session.executeAll [three, failing, five]).2 =
      ⟨registry, [.null, .int 6, .int 120]⟩ := by
    have hresults : (session.executeAll [three, failing, five]).2.sink =
        [.null, .int 6, .int 120] := by
      rw [hsink]
      simp [session, hthree, hfailing, hfive, Except.isOk, Except.toBool]
    calc (session.executeAll [three, failing, five]).2
        = ⟨(session.executeAll [three, failing, five]).2.registry,
            (session.executeAll [three, failing, five]).2.sink⟩ := rfl
      _ = ⟨registry, [.null, .int 6, .int 120]⟩ := by rw [hregistry, hresults]
  have herased := houtcomes'.trans (congrArg (·.eraseIdx 1) hfirst)
  exact ⟨Prod.ext hfirst hsecond, Prod.ext herased (hwithout.trans hsecond)⟩

end Session

end NumericActions
