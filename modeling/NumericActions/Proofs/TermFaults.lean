import NumericActions.Proofs.GroupingFaults
import NumericActions.Proofs.ReductionDomains
import NumericActions.Proofs.TermContract

/-!
# Faults of terms

On terms there is one way to fail with the fault of a term: a list stands where an action
takes a parameter. No function of numbers fails so, and no leaf of a term is foreign.

* `SparesTerms`: the computations that have no fault of terms.
* `sparesTerms_evaluate`: the methods without parameters, on terms.
* `CatalogueEntry.evaluate_termType_iff`, `Action.results_termType_iff`: the one way.
-/

namespace NumericActions

/-- A computation that does not fail with the fault of a term. -/
abbrev SparesTerms {α : Type} (x : Except Fault α) : Prop :=
  Ends x (fun fault => fault.kind ≠ .termType) fun _ => True

theorem Fault.IsDomain.ne_termType (fault : Fault) (h : fault.IsDomain) :
    fault.kind ≠ .termType := by
  rw [show fault.kind = .domain from h]
  decide

theorem Fault.OfReduction.ne_termType {name : String} {values : List Number} (fault : Fault)
    (h : fault.OfReduction name values) : fault.kind ≠ .termType := by
  rcases h with h | ⟨cause, rfl, -⟩
  · exact h.kind_ne rfl
  · exact Fault.IsDomain.ne_termType _ rfl

/-! ## Methods without parameters -/

/-- Without a foreign leaf only a parameter can be the wrong term. -/
theorem sparesTerms_evaluate {library : Elementary} {entry : CatalogueEntry}
    (h : entry ∈ elementwiseEntries library ∨ entry ∈ windowedEntries ∨
      entry ∈ aggregateEntries library) {arguments : List Value}
    (hleaves : (Value.leavesOfAll arguments).foreign = none) :
    SparesTerms (entry.method.evaluate arguments) := by
  have hforeign : ∀ v, (Value.leavesOfAll arguments).foreign = some v →
      (Fault.invalidTerm v).kind ≠ .termType := by
    intro v hv
    rw [hleaves] at hv
    cases hv
  rcases h with h | h | h
  · exact ends_evaluate_of_mem_elementwise Fault.IsDomain.ne_termType hforeign h
  · exact ends_evaluate_of_mem_windowed Fault.IsDomain.ne_termType hforeign h
  · obtain ⟨f, hmethod, hf⟩ := exists_refusesOutside h
    rw [hmethod]
    refine ends_bind_pure (ends_aggregate hforeign fun _ => ?_) _
    exact ends_weaken (hf.ends _) Fault.OfReduction.ne_termType

/-! ## Methods with parameters -/

theorem Value.IsTerm.number?_eq_none_iff {v : Value} (h : v.IsTerm) :
    v.number? = none ↔ ∃ items, v = .list items := by
  cases h with
  | number n => simp [number?]
  | list terms => simp [number?]

theorem exists_numbersFrom_error {terms : List Value} (h : ∃ v ∈ terms, v.number? = none)
    (index : Nat) : ∃ i v, numbersFrom index terms = .error (.invalidParameter i v) := by
  rcases numbers_or_first terms with ⟨numbers, rfl⟩ | ⟨before, v, after, rfl, hv⟩
  · obtain ⟨v, hmem, hv⟩ := h
    obtain ⟨n, -, rfl⟩ := List.mem_map.mp hmem
    cases hv
  · exact ⟨_, v, numbersFrom_of_first hv index before after⟩

/-- A method with parameters fails with the fault of a term exactly when one of the
parameters is a list. -/
theorem parameterized_termType_iff {layout : ParameterLayout} (count : Nat)
    (hcount : layout.count = count) {f : List Binary64 → Except Fault Value}
    {arguments : List Value} (hterms : ∀ v ∈ arguments, v.IsTerm)
    (hspares : (∀ v ∈ arguments.take count, v.number? ≠ none) →
      SparesTerms ((Method.parameterized layout f).evaluate arguments)) :
    (∃ fault, (Method.parameterized layout f).evaluate arguments = .error fault ∧
      fault.kind = .termType) ↔ ∃ items, .list items ∈ arguments.take count := by
  constructor
  · rintro ⟨fault, hfault, hkind⟩
    by_contra hnone
    refine (hspares fun v hv hn => hnone ?_).error fault hfault hkind
    obtain ⟨items, rfl⟩ :=
      (hterms v (List.mem_of_mem_take hv)).number?_eq_none_iff.mp hn
    exact ⟨items, hv⟩
  · rintro ⟨items, hitems⟩
    obtain ⟨i, v, hv⟩ := exists_numbersFrom_error ⟨_, hitems, rfl⟩ 0
    refine ⟨.invalidParameter i v, ?_, rfl⟩
    show parameterized _ _ _ = _
    unfold parameterized splitParameters
    rw [hcount, leading_natCast, hv]
    rfl

/-! ## The entries of the catalogue -/

theorem CatalogueEntry.mem_parameterized_of_name {library : Elementary} {entry : CatalogueEntry}
    (h : entry ∈ catalogue library) (hn : entry.shortName = "sigmoid" ∨ entry.shortName = "pow") :
    entry ∈ parameterizedEntries library := by
  rcases hn with hn | hn
  · rw [eq_of_shortName_eq h (mem_sigmoidEntry library) hn]
    exact List.mem_cons_self
  · rw [eq_of_shortName_eq h (mem_powerEntry library) hn]
    exact List.mem_cons_of_mem _ List.mem_cons_self

/-- Only the entries with parameters fail so, when a list is among the parameters. -/
theorem CatalogueEntry.evaluate_termType_iff {library : Elementary} {entry : CatalogueEntry}
    (h : entry ∈ catalogue library) {arguments : List Value}
    (hmin : entry.minimalArguments ≤ arguments.length) (hterms : ∀ v ∈ arguments, v.IsTerm) :
    (∃ fault, entry.method.evaluate arguments = .error fault ∧ fault.kind = .termType) ↔
      entry.shortName = "sigmoid" ∧ (∃ items, .list items ∈ arguments.take 3) ∨
        entry.shortName = "pow" ∧ ∃ items, .list items ∈ arguments.take 1 := by
  have hleaves : (Value.leavesOfAll arguments).foreign = none :=
    Value.foreign_leavesOfAll fun v hv => (hterms v hv).foreign_leaves
  have hforeign : ∀ v, (Value.leavesOfAll arguments).foreign = some v →
      (Fault.invalidTerm v).kind ≠ .termType := by
    intro v hv
    rw [hleaves] at hv
    cases hv
  by_cases hparameters : entry ∈ parameterizedEntries library
  · simp only [parameterizedEntries, List.mem_cons, List.not_mem_nil, or_false] at hparameters
    rcases hparameters with rfl | rfl
    · refine (parameterized_termType_iff 3 rfl hterms fun hnumbers => ?_).trans ?_
      · exact ends_evaluate_sigmoid hforeign library hmin
          fun i v hv hn => absurd hn (hnumbers v hv)
      · simp
    · refine (parameterized_termType_iff 1 rfl hterms fun hnumbers => ?_).trans ?_
      · exact ends_evaluate_power hforeign library (Nat.le_of_succ_le hmin)
          fun i v hv hn => absurd hn (hnumbers v hv)
      · simp
  · have hgroups : entry ∈ elementwiseEntries library ∨ entry ∈ windowedEntries ∨
        entry ∈ aggregateEntries library := by
      have := mem_catalogue_iff.mp h
      tauto
    have hspares := sparesTerms_evaluate hgroups hleaves
    constructor
    · rintro ⟨fault, hfault, hkind⟩
      exact absurd hkind (hspares.error fault hfault)
    · rintro (⟨hn, -⟩ | ⟨hn, -⟩)
      · exact absurd (mem_parameterized_of_name h (.inl hn)) hparameters
      · exact absurd (mem_parameterized_of_name h (.inr hn)) hparameters

/-- On terms an action of a registry fails with the fault of a term exactly when it has enough
arguments and takes a list for a parameter. -/
theorem Action.results_termType_iff {library : Elementary} {scope : String} {registry : Registry}
    (h : Registry.ofCatalogue library scope = .ok registry) {action : Action}
    (ha : action ∈ registry.actions) {arguments : List Value}
    (hterms : ∀ v ∈ arguments, v.IsTerm) :
    (∃ fault, action.results arguments = .error fault ∧ fault.kind = .termType) ↔
      action.minimalArguments ≤ arguments.length ∧
        (action.name.text = qualify scope "sigmoid" ∧ (∃ items, .list items ∈ arguments.take 3) ∨
          action.name.text = qualify scope "pow" ∧ ∃ items, .list items ∈ arguments.take 1) := by
  obtain ⟨entry, he, hname, hmin, hmethod⟩ := Registry.mem_catalogue h ha
  have hshort : ∀ name, action.name.text = qualify scope name ↔ entry.shortName = name := fun name =>
    ⟨fun hn => qualify_inj (hname.symm.trans hn), fun hn => hn ▸ hname⟩
  rw [hshort, hshort]
  by_cases hlen : arguments.length < action.minimalArguments
  · rw [results_of_length_lt hlen]
    constructor
    · rintro ⟨fault, hfault, hkind⟩
      cases hfault
      cases hkind
    · rintro ⟨hle, -⟩
      omega
  · have hle : action.minimalArguments ≤ arguments.length := Nat.le_of_not_lt hlen
    rw [results_of_le_length hle, hmethod,
      CatalogueEntry.evaluate_termType_iff he (hmin ▸ hle) hterms]
    exact ⟨fun hlist => ⟨hle, hlist⟩, fun hlist => hlist.2⟩

end NumericActions
