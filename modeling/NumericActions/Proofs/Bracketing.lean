import NumericActions.Proofs.FirstProblem
import NumericActions.Proofs.GroupingFaults
import NumericActions.Proofs.Scopes

/-!
# Brackets

Sequences around numbers are opened, so an action cannot tell how its arguments are nested.
Only the number of arguments and the places of parameters are looked at before sequences are
opened.

* `Method.evaluate_congr`: a method on two lists with the same leaves and the same parameters.
* `CatalogueEntry.parameters_of_parameterized`: where the catalogue has parameters.
* `Action.execute_bracketing`: the actions of a registry on two lists with the same leaves.
-/

namespace NumericActions

/-! ## Methods -/

theorem parameterized_congr {α : Type} {a b : List Value} {layout : ParameterLayout}
    {f : List Number → Number → Except Fault α}
    (hleaves : Value.leavesOfAll a = Value.leavesOfAll b)
    (hparameters : leading layout.count a = leading layout.count b) :
    parameterized layout f a = parameterized layout f b := by
  have hsplit : splitParameters layout.count a = splitParameters layout.count b := by
    rw [splitParameters, splitParameters, hparameters]
  rw [parameterized_eq, parameterized_eq, hsplit, Feed.ofTerms, Feed.ofTerms, hleaves]

/-- A method sees the leaves of the arguments and the places of its parameters. -/
theorem Method.evaluate_congr {method : Method} {a b : List Value}
    (hleaves : Value.leavesOfAll a = Value.leavesOfAll b)
    (hparameters : ∀ layout f, method = .parameterized layout f →
      leading layout.count a = leading layout.count b) :
    method.evaluate a = method.evaluate b := by
  have hfeed : Feed.ofTerms a = Feed.ofTerms b := congrArg Feed.ofLeaves hleaves
  cases method with
  | elementwise f => rw [evaluate, evaluate, elementwise_eq, elementwise_eq, hfeed]
  | windowed window f => rw [evaluate, evaluate, windowed_eq, windowed_eq, hfeed]
  | aggregate f => rw [evaluate, evaluate, aggregate_eq, aggregate_eq, hfeed]
  | parameterized layout f => exact parameterized_congr hleaves (hparameters layout f rfl)

/-! ## The catalogue -/

/-- Two entries have parameters: three of them and one. -/
theorem CatalogueEntry.parameters_of_parameterized {library : Elementary} {entry : CatalogueEntry}
    (he : entry ∈ catalogue library) {layout : ParameterLayout}
    {f : List Binary64 → Except Fault Value} (hm : entry.method = .parameterized layout f) :
    entry.shortName = "sigmoid" ∧ layout.count = (3 : Nat) ∨
      entry.shortName = "pow" ∧ layout.count = (1 : Nat) := by
  rcases mem_catalogue_iff.mp he with h | h | h | h
  · obtain ⟨g, hg⟩ := method_of_mem_elementwise h
    rw [hg] at hm
    cases hm
  · obtain ⟨g, hg⟩ := method_of_mem_windowed h
    rw [hg] at hm
    cases hm
  · obtain ⟨g, hg⟩ := method_of_mem_aggregate h
    rw [hg] at hm
    cases hm
  · simp only [parameterizedEntries, List.mem_cons, List.not_mem_nil, or_false] at h
    rcases h with rfl | rfl
    · cases hm
      exact .inl ⟨rfl, rfl⟩
    · cases hm
      exact .inr ⟨rfl, rfl⟩

/-! ## Actions -/

namespace Action

/-- What an execution with a given outcome does to a sink. -/
def delivered (outcome : Except Failure (List Value)) (sink : List Value) :
    Except Failure Unit × List Value :=
  match outcome with
  | .ok results => (.ok (), sink ++ results)
  | .error failure => (.error failure, sink)

/-- Brackets do not matter to an action of a registry. On two lists that are long enough and have
the same leaves in the same order, ending in the same way, it has one outcome, with either hint
and on every sink, provided that a sigmoid finds the same in the first three places of both and a
power finds the same in the first place. -/
theorem execute_bracketing {library : Elementary} {scope : String} {registry : Registry}
    (h : Registry.ofCatalogue library scope = .ok registry) {action : Action}
    (ha : action ∈ registry.actions) {a b : List Value}
    (hlengthA : action.minimalArguments ≤ a.length) (hlengthB : action.minimalArguments ≤ b.length)
    (hleaves : Value.leavesOfAll a = Value.leavesOfAll b)
    (hsigmoid : action.name.text = qualify scope "sigmoid" → a.take 3 = b.take 3)
    (hpow : action.name.text = qualify scope "pow" → a.take 1 = b.take 1) :
    ∃ outcome, ∀ parallel sink,
      action.execute parallel a sink = delivered outcome sink ∧
      action.execute parallel b sink = delivered outcome sink := by
  obtain ⟨entry, he, hname, -, hmethod⟩ := Registry.mem_catalogue h ha
  have hparameters : ∀ layout f, action.method = .parameterized layout f →
      leading layout.count a = leading layout.count b := by
    intro layout f hm
    rcases CatalogueEntry.parameters_of_parameterized he (hmethod.symm.trans hm) with
      ⟨hshort, hcount⟩ | ⟨hshort, hcount⟩
    · rw [hcount, leading_natCast, leading_natCast]
      exact hsigmoid (hshort ▸ hname)
    · rw [hcount, leading_natCast, leading_natCast]
      exact hpow (hshort ▸ hname)
  have hresults : action.results a = action.results b := by
    rw [results_of_le_length hlengthA, results_of_le_length hlengthB]
    exact Method.evaluate_congr hleaves hparameters
  have hcall : action.call b = action.call a := by rw [call, call, hresults]
  refine ⟨action.call a, fun parallel sink => ⟨rfl, ?_⟩⟩
  unfold execute
  rw [hcall]
  rfl

/-- A sigmoid whose data are in a list with a tuple, and the same numbers without brackets but
behind an empty list. -/
theorem execute_bracketing_sigmoid :
    ∃ registry action, Registry.ofCatalogue Elementary.native "math" = .ok registry ∧
      action ∈ registry.actions ∧ action.name.text = "math/sigmoid" ∧
      ∃ outcome, ∀ parallel sink,
        action.execute parallel
          [.int 1, .int 2, .int 3, .list [.int 0, .tuple [.int 4]]] sink =
            delivered outcome sink ∧
        action.execute parallel
          [.int 1, .int 2, .int 3, .list [], .int 0, .list [.list [.int 4]]] sink =
            delivered outcome sink := by
  obtain ⟨registry, hr, -⟩ := Registry.exists_of_isScope Elementary.native
    (show IsScope "math" from .inr (by decide))
  have he : ⟨"sigmoid", "alpha / (beta + exp(-gamma * t)) for each t", 3,
      .parameterized sigmoidLayout (sigmoidOf Elementary.native)⟩ ∈
        catalogue Elementary.native :=
    mem_catalogue_iff.mpr (.inr (.inr (.inr List.mem_cons_self)))
  obtain ⟨action, ha, hname, hminimum, -⟩ := Registry.exists_mem_of_entry hr he
  refine ⟨registry, action, hr, ha, hname, execute_bracketing hr ha ?_ ?_ rfl ?_ ?_⟩
  · rw [hminimum]
    decide
  · rw [hminimum]
    decide
  · exact fun _ => rfl
  · exact fun _ => rfl

end Action

end NumericActions
