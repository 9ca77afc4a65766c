import NumericActions.Proofs.ActionFaults
import NumericActions.Proofs.ReductionDomains
import NumericActions.Proofs.Scopes

/-!
# Outcomes of the aggregates

An aggregate is applied to all numbers of its arguments at once, so a foreign leaf decides before
any number does. Then the numbers decide, outside the domain of the aggregate by a fault of the
domain and inside of it by a single result.

* `AggregateDecides`: what an aggregate comes to.
* `RefusesOutside.decides`: the functions that refuse the numbers outside their domain.
* `Action.execute_aggregate`: the aggregates of a registry.
-/

namespace NumericActions

/-! ## Functions of all numbers -/

/-- What the aggregate with a given name comes to on some leaves. -/
structure AggregateDecides (library : Elementary) (name : String) (leaves : Leaves)
    (outcome : Except Fault (List Value)) : Prop where
  /-- A foreign leaf decides, whatever stands in front of it. -/
  leaf : ∀ v, leaves.foreign = some v → outcome = .error (.invalidTerm v)
  /-- Without one there is a fault of the domain exactly for the numbers outside of it. -/
  domain : leaves.foreign = none → ∀ fault, outcome = .error fault ∧ fault.kind = .domain ↔
    ∃ cause, fault = .domain cause ∧ OutsideDomain name leaves.numbers cause
  /-- There is never more than one result, and never less without a fault. -/
  single : ∀ results, outcome = .ok results → ∃ v, results = [v]
  /-- The numbers inside the domain have a result, provided that a geometric mean does not
  overflow. -/
  succeeds : leaves.foreign = none → library.Lawful → leaves.numbers.length < 2 ^ 63 →
    (name = "geometricmean" → ¬ MeanOverflows library leaves.numbers) →
      (∀ cause, ¬ OutsideDomain name leaves.numbers cause) → ∃ v, outcome = .ok [v]

section

variable {f : List Number → Except Fault Value} {arguments : List Value}

theorem Method.evaluate_aggregate_of_foreign {v : Value}
    (h : (Value.leavesOfAll arguments).foreign = some v) :
    (Method.aggregate f).evaluate arguments = .error (.invalidTerm v) := by
  rw [evaluate, aggregate_of_foreign h]
  rfl

theorem Method.evaluate_aggregate_of_terms (h : (Value.leavesOfAll arguments).foreign = none) :
    (Method.aggregate f).evaluate arguments =
      f (Value.leavesOfAll arguments).numbers >>= fun v => pure [v] := by
  rw [evaluate, aggregate_of_terms h]

theorem Method.exists_eq_singleton {results : List Value}
    (h : (Method.aggregate f).evaluate arguments = .ok results) : ∃ v, results = [v] := by
  rw [evaluate] at h
  cases hv : NumericActions.aggregate f arguments with
  | error fault =>
    rw [hv] at h
    cases h
  | ok v =>
    rw [hv] at h
    cases h
    exact ⟨v, rfl⟩

/-- A function that refuses the numbers outside a domain fails in the domain for no others, and
in arithmetic only where that is possible. -/
theorem RefusesOutside.decides {library : Elementary} {name : String} (hf : RefusesOutside name f)
    (hends : (Value.leavesOfAll arguments).foreign = none → library.Lawful →
      (Value.leavesOfAll arguments).numbers.length < 2 ^ 63 →
      (name = "geometricmean" → ¬ MeanOverflows library (Value.leavesOfAll arguments).numbers) →
        Ends ((Method.aggregate f).evaluate arguments) Fault.IsDomain fun _ => True) :
    AggregateDecides library name (Value.leavesOfAll arguments)
      ((Method.aggregate f).evaluate arguments) := by
  have hdomain : (Value.leavesOfAll arguments).foreign = none → ∀ fault,
      (Method.aggregate f).evaluate arguments = .error fault ∧ fault.kind = .domain ↔
        ∃ cause, fault = .domain cause ∧
          OutsideDomain name (Value.leavesOfAll arguments).numbers cause := by
    intro hterms fault
    rw [Method.evaluate_aggregate_of_terms hterms]
    constructor
    · rintro ⟨hfault, hkind⟩
      rcases (ends_bind_pure (hf.ends _) _).error fault hfault with hnameless | houtside
      · exact absurd hkind (hnameless.kind_ne rfl)
      · exact houtside
    · rintro ⟨cause, rfl, houtside⟩
      rw [hf.refuses houtside]
      exact ⟨rfl, rfl⟩
  refine ⟨fun v => Method.evaluate_aggregate_of_foreign, hdomain,
    fun results => Method.exists_eq_singleton, ?_⟩
  intro hterms hl hlt hmean hinside
  cases hresults : (Method.aggregate f).evaluate arguments with
  | ok results =>
    obtain ⟨v, rfl⟩ := Method.exists_eq_singleton hresults
    exact ⟨v, rfl⟩
  | error fault =>
    have hkind := (hends hterms hl hlt hmean).error fault hresults
    obtain ⟨cause, -, houtside⟩ := (hdomain hterms fault).mp ⟨hresults, hkind⟩
    exact absurd houtside (hinside cause)

end

/-! ## The aggregates of a registry -/

theorem CatalogueEntry.mem_aggregate_of_method {library : Elementary} {entry : CatalogueEntry}
    (he : entry ∈ catalogue library) {f : List Number → Except Fault Value}
    (hm : entry.method = .aggregate f) : entry ∈ aggregateEntries library := by
  rcases mem_catalogue_iff.mp he with h | h | h | h
  · obtain ⟨g, hg⟩ := method_of_mem_elementwise h
    rw [hg] at hm
    cases hm
  · obtain ⟨g, hg⟩ := method_of_mem_windowed h
    rw [hg] at hm
    cases hm
  · exact h
  · obtain ⟨layout, g, hg⟩ := method_of_mem_parameterized h
    rw [hg] at hm
    cases hm

theorem CatalogueEntry.minimalArguments_of_aggregate {library : Elementary}
    {entry : CatalogueEntry} (h : entry ∈ aggregateEntries library) :
    entry.minimalArguments = 1 := by
  simp only [aggregateEntries, List.mem_cons, List.not_mem_nil, or_false] at h
  rcases h with rfl | rfl | rfl | rfl | rfl | rfl | rfl | rfl <;> rfl

theorem CatalogueEntry.evaluate_aggregate_decides {library : Elementary} {entry : CatalogueEntry}
    (h : entry ∈ aggregateEntries library) (arguments : List Value) :
    AggregateDecides library entry.shortName (Value.leavesOfAll arguments)
      (entry.method.evaluate arguments) := by
  obtain ⟨f, hmethod, hf⟩ := exists_refusesOutside h
  rw [hmethod]
  apply hf.decides
  intro hterms hl hlt hmean
  have hforeign : ∀ v, (Value.leavesOfAll arguments).foreign = some v →
      (Fault.invalidTerm v).IsDomain := by
    intro v hv
    rw [hterms] at hv
    cases hv
  rw [← hmethod]
  exact ends_evaluate_of_mem_aggregate (fun _ hdomain => hdomain) hforeign hl h hlt
    fun hname _ => hmean hname

namespace Action

/-- What decides the outcome of an aggregate of a registry, for all arguments with at least one
term among them and every sink: first a foreign leaf, then the domain of the numbers, and at last
their one result. -/
theorem execute_aggregate {library : Elementary} {scope : String} {registry : Registry}
    (h : Registry.ofCatalogue library scope = .ok registry) {action : Action}
    (ha : action ∈ registry.actions) {f : List Number → Except Fault Value}
    (hmethod : action.method = .aggregate f) {name : String}
    (hname : action.name.text = qualify scope name) (parallel : Bool) {arguments : List Value}
    (hne : arguments ≠ []) (sink : List Value) :
    (action.execute parallel arguments sink =
      match action.results arguments with
      | .ok results => (.ok (), sink ++ results)
      | .error fault => (.error ⟨fault, some action.name.text⟩, sink)) ∧
    AggregateDecides library name (Value.leavesOfAll arguments) (action.results arguments) := by
  refine ⟨action.execute_eq parallel arguments sink, ?_⟩
  obtain ⟨entry, he, hentry, hminimum, hm⟩ := Registry.mem_catalogue h ha
  obtain rfl : entry.shortName = name := qualify_inj (hentry.symm.trans hname)
  have haggregate := CatalogueEntry.mem_aggregate_of_method he (hm.symm.trans hmethod)
  have hlength : action.minimalArguments ≤ arguments.length := by
    rw [hminimum, CatalogueEntry.minimalArguments_of_aggregate haggregate]
    exact List.length_pos_of_ne_nil hne
  rw [results_of_le_length hlength, hm]
  exact CatalogueEntry.evaluate_aggregate_decides haggregate arguments

/-- Of a zero with a sign and an integer zero behind it the first is reported by a harmonic mean,
but a foreign leaf behind both is reported before them. -/
theorem execute_aggregate_zero : ∃ registry action,
    Registry.ofCatalogue Elementary.native "math" = .ok registry ∧ action ∈ registry.actions ∧
      action.name.text = "math/harmonicmean" ∧
      action.execute false [.int 1, .list [.float (.zero true), .int 0]] [.null] =
        (.error ⟨.domain (.zero "harmonic mean value" (.float (.zero true))),
          some "math/harmonicmean"⟩, [.null]) ∧
      action.execute false [.int 1, .list [.float (.zero true), .int 0], .bool true] [.null] =
        (.error ⟨.invalidTerm (.bool true), some "math/harmonicmean"⟩, [.null]) := by
  have he : ⟨"harmonicmean", "n / sum(1/x)", 1, ofReduction harmonicMean⟩ ∈
      catalogue Elementary.native := by simp [catalogue, aggregateEntries]
  obtain ⟨registry, action, hr, ha, hname, -, hmethod⟩ :=
    Registry.exists_action_of_entry isScope_math he
  have htext : action.name.text = "math/harmonicmean" := hname
  refine ⟨registry, action, hr, ha, htext, ?_, ?_⟩
  · obtain ⟨hexecute, hdecides⟩ := execute_aggregate hr ha hmethod hname false
      (show [.int 1, .list [.float (.zero true), .int 0]] ≠ [] from List.cons_ne_nil _ _) [.null]
    have hone : ∀ w ∈ [Number.int 1], ¬ w.EqualsZero := by
      simp [Number.EqualsZero]
    have houtside : OutsideDomain "harmonicmean" ([.int 1] ++ .float (.zero true) :: [.int 0])
        (.zero "harmonic mean value" (.float (.zero true))) :=
      .zero rfl hone (.inr ⟨true, rfl⟩)
    rw [hexecute, ((hdecides.domain rfl _).mpr ⟨_, rfl, houtside⟩).1, htext]
  · obtain ⟨hexecute, hdecides⟩ := execute_aggregate hr ha hmethod hname false
      (show [.int 1, .list [.float (.zero true), .int 0], .bool true] ≠ [] from
        List.cons_ne_nil _ _) [.null]
    rw [hexecute, hdecides.leaf _ rfl, htext]

end Action

end NumericActions
