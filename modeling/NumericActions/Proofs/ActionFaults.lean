import NumericActions.Proofs.GroupingFaults
import NumericActions.Proofs.ReductionFaults

/-!
# Faults of the actions

An action ends with results, or it fails with too few arguments, a term of a wrong type or a
number outside its domain. No other fault leaves it, with the one exception of a geometric
mean whose mean logarithm overflows.

* `Fault.Foreseen`: the faults that an action may end with.
* `CatalogueEntry.ends_evaluate`: the entries of the catalogue.
* `Action.execute_foreseen`: the actions of a registry, with the exact exception.
-/

namespace NumericActions

/-- Too few arguments, a term of a wrong type, or a number outside the domain. -/
def Fault.Foreseen (fault : Fault) : Prop :=
  fault.kind = .arity ∨ fault.kind = .termType ∨ fault.kind = .domain

open Fault (Foreseen)

theorem Fault.foreseen_of_isDomain (fault : Fault) (h : fault.IsDomain) : fault.Foreseen :=
  .inr (.inr h)

theorem Fault.foreseen_invalidTerm (v : Value) : (Fault.invalidTerm v).Foreseen := .inr (.inl rfl)

/-! ## The entries of the catalogue -/

theorem ends_evaluate_of_mem_aggregate {Q : Fault → Prop}
    (hdomain : ∀ fault, fault.IsDomain → Q fault) {arguments : List Value}
    (hforeign : ∀ v, (Value.leavesOfAll arguments).foreign = some v → Q (.invalidTerm v))
    {library : Elementary} (hl : library.Lawful) {entry : CatalogueEntry}
    (h : entry ∈ aggregateEntries library)
    (hlt : (Value.leavesOfAll arguments).numbers.length < 2 ^ 63)
    (hmean : entry.shortName = "geometricmean" → (Value.leavesOfAll arguments).foreign = none →
      ¬ MeanOverflows library (Value.leavesOfAll arguments).numbers) :
    Ends (entry.method.evaluate arguments) Q fun _ => True := by
  have hreduction : ∀ {f : List Number → Except Fault Binary64},
      ((Value.leavesOfAll arguments).foreign = none →
        Ends (f (Value.leavesOfAll arguments).numbers) Fault.IsDomain fun _ => True) →
      Ends ((ofReduction f).evaluate arguments) Q fun _ => True := fun hf =>
    ends_ofReduction hforeign fun hleaves => ends_weaken (hf hleaves) hdomain
  have hposition : ∀ {f : List Number → Except Fault Nat},
      Ends (f (Value.leavesOfAll arguments).numbers) Fault.IsDomain (fun _ => True) →
      Ends ((ofPosition f).evaluate arguments) Q fun _ => True := fun hf =>
    ends_ofPosition hforeign (ends_weaken hf hdomain)
  simp only [aggregateEntries, List.mem_cons, List.not_mem_nil, or_false] at h
  rcases h with rfl | rfl | rfl | rfl | rfl | rfl | rfl | rfl
  · exact hreduction fun _ => ends_total hlt
  · exact hreduction fun _ => ends_average hlt
  · exact hreduction fun _ => ends_extreme _ _
  · exact hreduction fun _ => ends_extreme _ _
  · exact hreduction fun _ => ends_harmonicMean hlt
  · exact hreduction fun hleaves => ends_geometricMean hl hlt (hmean rfl hleaves)
  · exact hposition (ends_extremeIndex _ _)
  · exact hposition (ends_extremeIndex _ _)

/-- The entries of the catalogue fail as foreseen, the geometric mean up to its exception. -/
theorem CatalogueEntry.ends_evaluate {library : Elementary} (hl : library.Lawful)
    {entry : CatalogueEntry} (h : entry ∈ catalogue library) {arguments : List Value}
    (hmin : entry.minimalArguments ≤ arguments.length)
    (hlt : (Value.leavesOfAll arguments).numbers.length < 2 ^ 63)
    (hmean : entry.shortName = "geometricmean" → (Value.leavesOfAll arguments).foreign = none →
      ¬ MeanOverflows library (Value.leavesOfAll arguments).numbers) :
    Ends (entry.method.evaluate arguments) Foreseen fun _ => True := by
  have hforeign := fun v (_ : (Value.leavesOfAll arguments).foreign = some v) =>
    Fault.foreseen_invalidTerm v
  rcases mem_catalogue_iff.mp h with h | h | h | h
  · exact ends_evaluate_of_mem_elementwise Fault.foreseen_of_isDomain hforeign h
  · exact ends_evaluate_of_mem_windowed Fault.foreseen_of_isDomain hforeign h
  · exact ends_evaluate_of_mem_aggregate Fault.foreseen_of_isDomain hforeign hl h hlt hmean
  · simp only [parameterizedEntries, List.mem_cons, List.not_mem_nil, or_false] at h
    rcases h with rfl | rfl
    · exact ends_evaluate_sigmoid hforeign library hmin fun _ _ _ _ => .inr (.inl rfl)
    · exact ends_evaluate_power hforeign library (Nat.le_of_succ_le hmin)
        fun _ _ _ _ => .inr (.inl rfl)

/-! ## The exception -/

/-- Only one entry has the name of the geometric mean. -/
theorem CatalogueEntry.method_of_geometricmean {library : Elementary} {entry : CatalogueEntry}
    (h : entry ∈ catalogue library) (hn : entry.shortName = "geometricmean") :
    entry.method = ofReduction (geometricMean library) := by
  have hmem : ⟨"geometricmean", "exp(mean(ln x))", 1, ofReduction (geometricMean library)⟩ ∈
      catalogue library := by simp [catalogue, aggregateEntries]
  rw [eq_of_shortName_eq h hmem hn]

namespace Action

/-- The arguments of a geometric mean whose mean logarithm overflows. -/
structure Overflows (action : Action) (library : Elementary) (scope : String)
    (arguments : List Value) : Prop where
  name : action.name.text = qualify scope "geometricmean"
  enough : action.minimalArguments ≤ arguments.length
  terms : (Value.leavesOfAll arguments).foreign = none
  mean : MeanOverflows library (Value.leavesOfAll arguments).numbers

theorem results_of_overflows {library : Elementary} (hl : library.Lawful) {scope : String}
    {registry : Registry} (h : Registry.ofCatalogue library scope = .ok registry)
    {action : Action} (ha : action ∈ registry.actions) {arguments : List Value}
    (ho : action.Overflows library scope arguments) :
    action.results arguments = .error (.range .exponential) := by
  obtain ⟨entry, he, hname, -, hmethod⟩ := Registry.mem_catalogue h ha
  have hshort : entry.shortName = "geometricmean" := qualify_inj (hname.symm.trans ho.name)
  have haggregate : aggregate (fun values => return Value.float (← geometricMean library values))
      arguments = .error (.range .exponential) := by
    rw [aggregate_of_terms ho.terms, geometricMean_of_overflows hl ho.mean]
    rfl
  rw [results_of_le_length ho.enough, hmethod, CatalogueEntry.method_of_geometricmean he hshort]
  show (aggregate _ arguments >>= _) = _
  rw [haggregate]
  rfl

theorem ends_results {library : Elementary} (hl : library.Lawful) {scope : String}
    {registry : Registry} (h : Registry.ofCatalogue library scope = .ok registry)
    {action : Action} (ha : action ∈ registry.actions) {arguments : List Value}
    (hlt : (Value.leavesOfAll arguments).numbers.length < 2 ^ 63)
    (ho : ¬ action.Overflows library scope arguments) :
    Ends (action.results arguments) Foreseen fun _ => True := by
  obtain ⟨entry, he, hname, hmin, hmethod⟩ := Registry.mem_catalogue h ha
  by_cases hlen : arguments.length < action.minimalArguments
  · rw [results_of_length_lt hlen]
    exact ends_error (.inl rfl)
  · have hlen : action.minimalArguments ≤ arguments.length := Nat.le_of_not_lt hlen
    rw [results_of_le_length hlen, hmethod]
    apply CatalogueEntry.ends_evaluate hl he (hmin ▸ hlen) hlt
    intro hshort hterms hmean
    exact ho ⟨hshort ▸ hname, hlen, hterms, hmean⟩

/-- What leaves an action: for all actions of a registry, all arguments with fewer than
`2 ^ 63` numbers and every sink. A fault that is not foreseen leaves it exactly when the mean
logarithm of a geometric mean overflows. -/
theorem execute_foreseen {library : Elementary} (hl : library.Lawful) {scope : String}
    {registry : Registry} (h : Registry.ofCatalogue library scope = .ok registry)
    {action : Action} (ha : action ∈ registry.actions) (parallel : Bool)
    (arguments sink : List Value)
    (hlt : (Value.leavesOfAll arguments).numbers.length < 2 ^ 63) :
    (action.Overflows library scope arguments →
      action.execute parallel arguments sink =
        (.error ⟨.range .exponential, some action.name.text⟩, sink)) ∧
    (¬ action.Overflows library scope arguments →
      (∃ results, action.execute parallel arguments sink = (.ok (), sink ++ results)) ∨
      ∃ fault, action.execute parallel arguments sink =
        (.error ⟨fault, some action.name.text⟩, sink) ∧
          (fault.kind = .arity ∨ fault.kind = .termType ∨ fault.kind = .domain)) := by
  rw [execute_eq]
  constructor
  · intro ho
    rw [results_of_overflows hl h ha ho]
  · intro ho
    have hends := ends_results hl h ha hlt ho
    cases hr : action.results arguments with
    | ok results => exact .inl ⟨results, rfl⟩
    | error fault => exact .inr ⟨fault, rfl, hends.error fault hr⟩

end Action

/-! ## Copies of the greatest number -/

/-- A library that knows the greatest number and its logarithm, and where the exponential
leaves the range. -/
def Elementary.coarse : Elementary where
  __ := Elementary.native
  exp := coarseExp
  log := coarseLog
where
  coarseExp : Binary64 → Binary64
    | .nan => .nan
    | .infinity negative => if negative then .zero false else .infinity false
    | .finite negative m =>
      if greatestLogarithm.lt (.finite negative m) then .infinity false else .zero false
  coarseLog : Binary64 → Binary64
    | .nan => .nan
    | .infinity negative => if negative then .nan else .infinity false
    | .finite negative m =>
      if .finite negative m = greatest then greatestLogarithm
      else if negative then .nan
      else if m.units = 0 then .infinity true
      else .zero false

namespace Elementary

theorem isFinite_coarseLog {m : Magnitude} (hm : m.units ≠ 0) :
    (coarse.coarseLog (.finite false m)).isFinite = true := by
  unfold coarse.coarseLog
  dsimp only
  by_cases h : Binary64.finite false m = greatest
  · rw [if_pos h]
    decide +kernel
  · rw [if_neg h, if_neg hm]
    rfl

theorem isInfinite_coarseExp (negative : Bool) (m : Magnitude) :
    (coarse.coarseExp (.finite negative m)).isInfinite =
      greatestLogarithm.lt (.finite negative m) := by
  unfold coarse.coarseExp
  dsimp only
  cases greatestLogarithm.lt (.finite negative m) <;> rfl

theorem isNaN_coarseExp (x : Binary64) (h : (coarse.coarseExp x).isNaN = true) :
    x.isNaN = true := by
  unfold coarse.coarseExp at h
  cases x with
  | nan => rfl
  | infinity negative => cases negative <;> cases h
  | finite negative m =>
    dsimp only at h
    split at h <;> cases h

theorem exp_coarse : coarse.exp = coarse.coarseExp := rfl

theorem log_coarse : coarse.log = coarse.coarseLog := rfl

theorem coarse_lawful : coarse.Lawful := by
  constructor
  · intro m hm
    rw [log_coarse]
    exact isFinite_coarseLog hm
  · rfl
  · decide +kernel
  · rw [exp_coarse]
    exact isNaN_coarseExp
  · rw [exp_coarse]
    exact isInfinite_coarseExp

end Elementary

theorem leavesOfAll_replicate (count : Nat) (n : Number) :
    Value.leavesOfAll [.list (List.replicate count (.number n))] =
      ⟨List.replicate count n, none⟩ := by
  rw [Value.leavesOfAll, Value.leaves, ← List.map_replicate, Value.leavesOfAll_map_number,
    Value.leavesOfAll, Leaves.append_empty]

theorem exists_geometricmean :
    ∃ registry action, Registry.ofCatalogue Elementary.coarse "math" = .ok registry ∧
      action ∈ registry.actions ∧ action.name.text = "math/geometricmean" ∧
      action.minimalArguments = 1 := by
  obtain ⟨registry, hr⟩ :
      ∃ registry, Registry.ofCatalogue Elementary.coarse "math" = .ok registry :=
    exists_eq_ok (by decide +kernel)
  obtain ⟨action, hs⟩ := exists_eq_ok
    (show ((CatalogueEntry.mk "geometricmean" "exp(mean(ln x))" 1
      (ofReduction (geometricMean Elementary.coarse))).action? "math").isOk by decide +kernel)
  have ha : action ∈ registry.actions :=
    (Registry.mem_actions_iff hr action).mpr ⟨_, by simp [catalogue, aggregateEntries], hs⟩
  obtain ⟨hn, hm, -, -⟩ := CatalogueEntry.action?_spec hs
  exact ⟨registry, action, hr, ha, hn, hm⟩

def greatestCopies (count : Nat) : List Value :=
  [.list (List.replicate count (.number (.float greatest)))]

theorem leavesOfAll_greatestCopies (count : Nat) :
    Value.leavesOfAll (greatestCopies count) = ⟨List.replicate count (.float greatest), none⟩ :=
  leavesOfAll_replicate count (.float greatest)

theorem Action.overflows_greatestCopies {library : Elementary} (hl : library.Lawful)
    {action : Action} (hname : action.name.text = "math/geometricmean")
    (hmin : action.minimalArguments = 1) :
    action.Overflows library "math" (greatestCopies 47) := by
  have hmean := meanOverflows_copies hl
  refine ⟨hname, Nat.le_of_eq hmin, ?_, ?_⟩
  · rw [leavesOfAll_greatestCopies]
  · rwa [leavesOfAll_greatestCopies]

/-- At 47 copies of the greatest number an exponential out of range leaves the action. -/
theorem Action.execute_foreseen_copies :
    ∃ registry action, Registry.ofCatalogue Elementary.coarse "math" = .ok registry ∧
      action ∈ registry.actions ∧
      action.execute false (greatestCopies 47) [.null] =
        (.error ⟨.range .exponential, some action.name.text⟩, [.null]) := by
  obtain ⟨registry, action, hr, ha, hname, hmin⟩ := exists_geometricmean
  have hlength : (Value.leavesOfAll (greatestCopies 47)).numbers.length < 2 ^ 63 := by
    rw [leavesOfAll_greatestCopies, List.length_replicate]
    decide
  exact ⟨registry, action, hr, ha, (execute_foreseen Elementary.coarse_lawful hr ha false
    (greatestCopies 47) [.null] hlength).1
      (overflows_greatestCopies Elementary.coarse_lawful hname hmin)⟩

/-- So it is not true that every action succeeds or fails as foreseen, for any library that
keeps its promises. -/
theorem Action.not_execute_foreseen_always :
    ∃ (library : Elementary) (registry : Registry) (action : Action) (arguments : List Value),
      library.Lawful ∧ Registry.ofCatalogue library "math" = .ok registry ∧
      action ∈ registry.actions ∧ (Value.leavesOfAll arguments).numbers.length < 2 ^ 63 ∧
      ¬ ((∃ results, action.execute false arguments [] = (.ok (), results)) ∨
        ∃ fault, action.execute false arguments [] =
          (.error ⟨fault, some action.name.text⟩, []) ∧
            (fault.kind = .arity ∨ fault.kind = .termType ∨ fault.kind = .domain)) := by
  obtain ⟨registry, action, hr, ha, hname, hmin⟩ := exists_geometricmean
  have hl := Elementary.coarse_lawful
  refine ⟨Elementary.coarse, registry, action, greatestCopies 47, hl, hr, ha, ?_, ?_⟩
  · rw [leavesOfAll_greatestCopies, List.length_replicate]
    decide
  · rw [execute_eq, results_of_overflows hl hr ha (overflows_greatestCopies hl hname hmin)]
    rintro (⟨results, h⟩ | ⟨fault, h, hkind⟩)
    · cases h
    · cases h
      rcases hkind with h | h | h <;> cases h

end NumericActions
