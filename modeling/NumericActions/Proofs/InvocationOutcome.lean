import NumericActions.Proofs.InvocationContract
import NumericActions.Proofs.LeafCount
import NumericActions.Proofs.TermFaults
import NumericActions.Registry.Invocation

/-!
# Outcomes of stated invocations

A value that is to state an invocation is held against the contract, then its action is
looked up, and then the action runs. Each of the three can end the invocation, and what
passes the contract holds no leaf that a traversal rejects.

* `Registry.invokeValueBy_of_violation`, `Registry.invokeValueBy_of_invocation`: the two sides
  of the contract.
* `Registry.AnswersInvocation`, `Registry.invokeValue_decides`: the outcome for every value.
-/

namespace NumericActions

/-! ## Depth -/

theorem Value.depth_enclosed (v : Value) (brackets : List Bracket) :
    (v.enclosed brackets).depth = brackets.length + v.depth := by
  induction brackets with
  | nil => rw [enclosed, List.length_nil, Nat.zero_add]
  | cons bracket brackets ih =>
    have haround : (bracket.around [v.enclosed brackets]).depth =
        1 + (v.enclosed brackets).depth := by
      cases bracket <;> simp [Bracket.around, depth, depths]
    rw [enclosed, haround, ih, List.length_cons]
    omega

namespace Registry

/-! ## The two sides of the contract -/

section

variable {ε : Type} {V : Validator ε} {reach : Contract → Schema → Value → Prop} {value : Value}

theorem invokeValueBy_of_breakdown {breakdown : ε}
    (h : Contract.invocation.checkBy V value = .error breakdown) (registry : Registry) :
    registry.invokeValueBy V value = .error breakdown := by
  unfold invokeValueBy Invocation.readBy
  rw [h]
  rfl

theorem invokeValueBy_of_violation {violation : Violation}
    (h : Contract.invocation.checkBy V value = .ok (.error violation)) (registry : Registry) :
    registry.invokeValueBy V value = .ok (.error (.violation violation)) := by
  unfold invokeValueBy Invocation.readBy
  rw [h]
  rfl

theorem invokeValueBy_of_check (h : Contract.invocation.checkBy V value = .ok (.ok ()))
    (registry : Registry) :
    registry.invokeValueBy V value =
      .ok ((registry.invoke (Invocation.ofValue value)).mapError .failure) := by
  unfold invokeValueBy Invocation.readBy
  rw [h]
  rfl

/-- The invocation that is stated is run with the stated flag. -/
theorem invokeValueBy_of_invocation (hV : V.Lawful reach) {entries : List (String × Value)}
    (hreport : Contract.invocation.reportBy V (.dict entries) = .ok []) {name : String}
    {arguments : List Value} (hname : entries.lookup "action" = some (.text name))
    (harguments : entries.lookup "arguments" = some (.list arguments)) (registry : Registry) :
    ∃ parallel, registry.invokeValueBy V (.dict entries) =
      .ok ((registry.invoke ⟨name, arguments, parallel⟩).mapError .failure) := by
  have hread : Invocation.ofValue (.dict entries) =
      ⟨name, arguments, Invocation.flagOf entries "parallel"⟩ := by
    simp only [Invocation.ofValue, Invocation.ofEntries, Invocation.textOf, Invocation.itemsOf,
      hname, harguments]
  refine ⟨Invocation.flagOf entries "parallel", ?_⟩
  rw [invokeValueBy_of_check (Contract.checkBy_of_reportBy_nil hV hreport), hread]

end

/-! ## The outcome -/

/-- What an invocation of an action by name on terms comes to. -/
structure AnswersInvocation (registry : Registry) (scope name : String) (arguments : List Value)
    (outcome : Except Rejection (List Value)) : Prop where
  /-- No leaf of the arguments is one that a traversal rejects. -/
  leaves : (Value.leavesOfAll arguments).foreign = none
  /-- A name that is not registered is the fault that is reported. -/
  unknown : registry.contains name = false →
    outcome = .error (.failure ⟨.unknownAction, some name⟩)
  /-- The action of a registered name decides, with what it puts into an empty sink or with
  its failure, whatever the flag is. -/
  known : registry.contains name = true →
    ∃ action ∈ registry.actions, action.name.text = name ∧ ∀ parallel,
      outcome = match action.execute parallel arguments [] with
        | (.ok _, results) => .ok results
        | (.error failure, _) => .error (.failure failure)
  /-- The fault of a term is left for lists in the place of parameters. -/
  termType : (∃ failure, outcome = .error (.failure failure) ∧ failure.fault.kind = .termType) ↔
    ∃ action ∈ registry.actions, action.name.text = name ∧
      action.minimalArguments ≤ arguments.length ∧
      (name = qualify scope "sigmoid" ∧ (∃ items, .list items ∈ arguments.take 3) ∨
        name = qualify scope "pow" ∧ ∃ items, .list items ∈ arguments.take 1)

theorem invoke_of_not_contains {registry : Registry} {name : String}
    (h : registry.contains name = false) (arguments : List Value) (parallel : Bool) :
    registry.invoke ⟨name, arguments, parallel⟩ = .error ⟨.unknownAction, some name⟩ := by
  unfold invoke execute
  dsimp only
  rw [get_of_not_contains h]

theorem invoke_of_mem {registry : Registry} {action : Action} (h : action ∈ registry.actions)
    (arguments : List Value) (parallel : Bool) :
    registry.invoke ⟨action.name.text, arguments, parallel⟩ =
      match action.results arguments with
      | .ok results => .ok results
      | .error fault => .error ⟨fault, some action.name.text⟩ := by
  unfold invoke execute
  dsimp only
  rw [get_of_mem h]
  dsimp only
  rw [Action.execute_eq]
  cases action.results arguments <;> rfl

/-- An invocation of an action of the registry fails with the faults of the action. -/
theorem exists_failure_iff {registry : Registry} {action : Action} (h : action ∈ registry.actions)
    {arguments : List Value} {parallel : Bool} {kind : FaultKind} :
    (∃ failure, (registry.invoke ⟨action.name.text, arguments, parallel⟩).mapError .failure =
      .error (Rejection.failure failure) ∧ failure.fault.kind = kind) ↔
      ∃ fault, action.results arguments = .error fault ∧ fault.kind = kind := by
  rw [invoke_of_mem h]
  cases action.results arguments with
  | ok results =>
    constructor
    · rintro ⟨failure, hfailure, -⟩
      cases hfailure
    · rintro ⟨fault, hfault, -⟩
      cases hfault
  | error fault =>
    constructor
    · rintro ⟨failure, hfailure, hkind⟩
      cases hfailure
      exact ⟨fault, rfl, hkind⟩
    · rintro ⟨other, hother, hkind⟩
      cases hother
      exact ⟨_, rfl, hkind⟩

theorem answersInvocation {library : Elementary} {scope : String} {registry : Registry}
    (h : ofCatalogue library scope = .ok registry) {arguments : List Value}
    (hterms : ∀ v ∈ arguments, v.IsTerm) (name : String) (parallel : Bool) :
    registry.AnswersInvocation scope name arguments
      ((registry.invoke ⟨name, arguments, parallel⟩).mapError .failure) := by
  constructor
  · exact Value.foreign_leavesOfAll fun v hv => (hterms v hv).foreign_leaves
  · intro hunknown
    rw [invoke_of_not_contains hunknown]
    rfl
  · intro hknown
    obtain ⟨action, ha, rfl⟩ := exists_of_contains hknown
    refine ⟨action, ha, rfl, fun flag => ?_⟩
    rw [invoke_of_mem ha, Action.execute_eq]
    cases action.results arguments <;> rfl
  · cases hcontains : registry.contains name with
    | false =>
      constructor
      · rintro ⟨failure, hfailure, hkind⟩
        rw [invoke_of_not_contains hcontains] at hfailure
        cases hfailure
        cases hkind
      · rintro ⟨action, ha, rfl, -⟩
        exact absurd (List.mem_map_of_mem ha) (not_mem_of_not_contains hcontains)
    | true =>
      obtain ⟨action, ha, rfl⟩ := exists_of_contains hcontains
      rw [exists_failure_iff ha, Action.results_termType_iff h ha hterms]
      constructor
      · rintro ⟨hmin, hlist⟩
        exact ⟨action, ha, rfl, hmin, hlist⟩
      · rintro ⟨other, hother, hname, hmin, hlist⟩
        have heq : other = action := List.inj_on_of_nodup_map registry.nodup hother ha hname
        exact ⟨heq ▸ hmin, hlist⟩

/-- What a value comes to that is to state an invocation, for every registry of the catalogue and
by any validator. The report on it is complete within the reach of the validator. A value with a
report that is not empty is turned down with the first violation, by every registry alike, so
nothing that depends on an action happens. A value with an empty report is answered by the
registry. If the report is broken off, the first violation or the breakdown is what every
registry answers. -/
theorem invokeValue_decides {ε : Type} {V : Validator ε}
    {reach : Contract → Schema → Value → Prop} (hV : V.Lawful reach) {library : Elementary}
    {scope : String} {registry : Registry} (h : ofCatalogue library scope = .ok registry)
    (value : Value) :
    (reach .invocation Contract.invocation.schema value →
      ∃ texts, Contract.invocation.reportBy V value = .ok texts) ∧
    (∀ texts, Contract.invocation.reportBy V value = .ok texts → texts ≠ [] →
      ∃ violation, Contract.invocation.checkBy V value = .ok (.error violation) ∧
        V.path violation.steps ++ ": " ++ V.message violation ∈ texts ∧
        ∀ other : Registry, other.invokeValueBy V value = .ok (.error (.violation violation))) ∧
    (Contract.invocation.reportBy V value = .ok [] →
      ∃ entries name arguments outcome, value = .dict entries ∧
        entries.lookup "action" = some (.text name) ∧
        entries.lookup "arguments" = some (.list arguments) ∧
        registry.invokeValueBy V value = .ok outcome ∧
        registry.AnswersInvocation scope name arguments outcome) ∧
    ∀ breakdown, Contract.invocation.reportBy V value = .error breakdown →
      (∀ other : Registry, other.invokeValueBy V value = .error breakdown) ∨
      ∃ violation, (Contract.invocation.violations value).head? = some violation ∧
        Contract.invocation.checkBy V value = .ok (.error violation) ∧
        ∀ other : Registry, other.invokeValueBy V value = .ok (.error (.violation violation)) := by
  refine ⟨Contract.exists_report hV, fun texts hreport hne => ?_, fun hreport => ?_,
    fun breakdown hreport => ?_⟩
  · obtain ⟨violation, hcheck, htext⟩ := Contract.exists_of_reportBy hV hreport hne
    exact ⟨violation, hcheck, htext, invokeValueBy_of_violation hcheck⟩
  · have hvalue := Contract.violations_eq_nil_iff.mp
      ((Contract.eq_nil_iff_of_reportBy hV hreport).mp rfl)
    cases value with
    | dict entries =>
      have hentries : InvocationEntries entries := hvalue
      obtain ⟨name, hname, -⟩ := hentries.action
      obtain ⟨arguments, harguments, hterms⟩ := hentries.arguments
      obtain ⟨parallel, hinvoke⟩ :=
        invokeValueBy_of_invocation hV hreport hname harguments registry
      exact ⟨entries, name, arguments, _, rfl, hname, harguments, hinvoke,
        answersInvocation h hterms name parallel⟩
    | _ => cases hvalue
  · rcases Contract.checkBy_of_breakdown hV hreport with hcheck | ⟨violation, hfirst, hcheck⟩
    · exact .inl (invokeValueBy_of_breakdown hcheck)
    · exact .inr ⟨violation, hfirst, hcheck, invokeValueBy_of_violation hcheck⟩

/-- A value that states nothing, a name that is not registered, a list as the exponent of a power,
and a number in 5000 lists, which is beyond the reach of a validator, in one registry. -/
theorem invokeValue_four_ways :
    ∃ registry, ofCatalogue Elementary.native "math" = .ok registry ∧
      (∃ violation, registry.invokeValue .null = .error (.violation violation)) ∧
      registry.invokeValue (.dict [("action", .text "none"), ("arguments", .list [])]) =
        .error (.failure ⟨.unknownAction, some "none"⟩) ∧
      (∃ failure, registry.invokeValue (.dict [("action", .text "math/pow"),
          ("arguments", .list [.list [.int 2], .int 3])]) = .error (.failure failure) ∧
        failure.fault.kind = .termType) ∧
      registry.invokeValueBy (.upTo 150 "maximum recursion depth exceeded")
          (.dict [("action", .text "math/sum"),
            ("arguments", .list [(Value.int 2).enclosed (List.replicate 5000 .list)])]) =
        .error "maximum recursion depth exceeded" := by
  obtain ⟨registry, hr⟩ : ∃ registry, ofCatalogue Elementary.native "math" = .ok registry :=
    exists_eq_ok (by decide +kernel)
  obtain ⟨action, hs⟩ := exists_eq_ok
    (show ((CatalogueEntry.mk "pow" "t ** exponent for each t" 2
      (.parameterized powerLayout (powerOf Elementary.native))).action? "math").isOk by
        decide +kernel)
  have ha : action ∈ registry.actions :=
    (mem_actions_iff hr action).mpr ⟨_, by simp [catalogue, parameterizedEntries], hs⟩
  obtain ⟨hn, hm, -, -⟩ := CatalogueEntry.action?_spec hs
  have hname : action.name.text = "math/pow" := hn
  have hnone : registry.contains "none" = false := by
    have hall : ((ofCatalogue Elementary.native "math").map (·.contains "none")).toOption =
        some false := by decide +kernel
    rw [hr] at hall
    exact Option.some.inj hall
  refine ⟨registry, hr, ?_, ?_, ?_, ?_⟩
  · obtain ⟨-, hviolation, -, -⟩ := invokeValue_decides Validator.standard_lawful hr .null
    obtain ⟨violation, -, -, hother⟩ :=
      hviolation _ (Contract.reportBy_standard _ _) (by decide +kernel)
    have hinvoke := hother registry
    rw [invokeValueBy_standard] at hinvoke
    exact ⟨violation, Except.ok.inj hinvoke⟩
  · obtain ⟨-, -, hanswer, -⟩ := invokeValue_decides Validator.standard_lawful hr
      (.dict [("action", .text "none"), ("arguments", .list [])])
    obtain ⟨entries, name, arguments, outcome, hvalue, haction, harguments, hinvoke, hanswer⟩ :=
      hanswer (by decide +kernel)
    cases hvalue
    cases haction
    rw [invokeValueBy_standard] at hinvoke
    exact (Except.ok.inj hinvoke).trans (hanswer.unknown hnone)
  · obtain ⟨-, -, hanswer, -⟩ := invokeValue_decides Validator.standard_lawful hr
      (.dict [("action", .text "math/pow"), ("arguments", .list [.list [.int 2], .int 3])])
    obtain ⟨entries, name, arguments, outcome, hvalue, haction, harguments, hinvoke, hanswer⟩ :=
      hanswer (by decide +kernel)
    cases hvalue
    cases haction
    cases harguments
    obtain ⟨failure, hfailure, hkind⟩ := hanswer.termType.mpr
      ⟨action, ha, hname, by rw [hm]; decide, .inr ⟨by decide, [.int 2], by simp⟩⟩
    rw [invokeValueBy_standard] at hinvoke
    exact ⟨failure, (Except.ok.inj hinvoke).trans hfailure, hkind⟩
  · have hdepth : 150 < (Value.dict [("action", .text "math/sum"),
        ("arguments", .list [(Value.int 2).enclosed (List.replicate 5000 .list)])]).depth :=
      calc 150 < ((Value.int 2).enclosed (List.replicate 5000 .list)).depth := by
            rw [Value.depth_enclosed, List.length_replicate]
            omega
        _ < (Value.list [(Value.int 2).enclosed (List.replicate 5000 .list)]).depth :=
            Value.depth_lt_of_mem (List.mem_singleton_self _)
        _ < _ := Value.depth_lt_of_lookup (show List.lookup "arguments" _ = some _ from rfl)
    have hlawful := Validator.upTo_lawful 150 "maximum recursion depth exceeded"
    have herrors := fun root schema =>
      Validator.errors_upTo_of_lt hdepth root schema "maximum recursion depth exceeded"
    obtain ⟨-, -, -, hbreakdown⟩ := invokeValue_decides hlawful hr (.dict [("action",
      .text "math/sum"), ("arguments", .list [(Value.int 2).enclosed (List.replicate 5000 .list)])])
    have hreport := hbreakdown "maximum recursion depth exceeded" (by
      rw [Contract.reportBy, herrors]
      rfl)
    rcases hreport with hother | ⟨violation, -, hcheck, -⟩
    · exact hother registry
    · rw [Contract.checkBy, hlawful.validate, herrors] at hcheck
      cases hcheck

end Registry

end NumericActions
