import NumericActions.Proofs.LeafCount
import NumericActions.Proofs.ValidatorLaws

/-!
# Two notions of a term

The contract of terms says by a schema what a term is, and the traversal finds it out on the way.
They differ in tuples alone: the traversal opens them, and the contract knows no arrays but lists.
So what the contract admits is always traversed to its end, and a value without tuples that is
traversed to its end is admitted.

* `Value.isTerm_iff_tupleFree`: a term is a value without tuples and without foreign leaves.
* `Contract.violations_term`: the contract has no violation or one, which is that of the whole
  value.
* `Contract.report_term_agrees`: the contract, the traversal and the count of leaves.
-/

namespace NumericActions

/-! ## Values without tuples -/

namespace Value

/-- No tuple stands in the value or in its lists, at any depth. What a dict holds does not
matter. -/
inductive TupleFree : Value → Prop where
  | leaf {v : Value} (closed : v.items? = none) : TupleFree v
  | list {items : List Value} (free : ∀ v ∈ items, TupleFree v) : TupleFree (.list items)

theorem foreign_leavesOfAll_eq_none_iff {vs : List Value} :
    (leavesOfAll vs).foreign = none ↔ ∀ v ∈ vs, v.leaves.foreign = none := by
  refine ⟨fun h => ?_, foreign_leavesOfAll⟩
  induction vs with
  | nil => exact fun v hv => absurd hv List.not_mem_nil
  | cons w ws ih =>
    rw [leavesOfAll, Leaves.append_def, Leaves.append] at h
    cases hw : w.leaves.foreign with
    | some v =>
      rw [hw] at h
      cases h
    | none =>
      rw [hw] at h
      exact List.forall_mem_cons.mpr ⟨hw, ih h⟩

theorem IsTerm.tupleFree {v : Value} (h : v.IsTerm) : v.TupleFree := by
  induction h with
  | number n => exact .leaf rfl
  | list _ ih => exact .list ih

theorem TupleFree.isTerm {v : Value} (h : v.TupleFree) (hforeign : v.leaves.foreign = none) :
    v.IsTerm := by
  induction h with
  | @leaf v closed =>
    cases hn : v.number? with
    | none =>
      rw [leaves_of_foreign hn closed] at hforeign
      cases hforeign
    | some n =>
      cases v <;> cases hn
      exact .number n
  | list _ ih =>
    have hitems := foreign_leavesOfAll_eq_none_iff.mp hforeign
    exact .list fun v hv => ih v hv (hitems v hv)

theorem isTerm_iff_tupleFree {v : Value} :
    v.IsTerm ↔ v.TupleFree ∧ v.leaves.foreign = none :=
  ⟨fun h => ⟨h.tupleFree, h.foreign_leaves⟩, fun h => h.1.isTerm h.2⟩

end Value

/-! ## Traversals that come to their end -/

theorem Cursor.exists_toList_iff {terms : List Value} :
    (∃ numbers, source.toList (opened terms) = .ok numbers) ↔
      (Value.leavesOfAll terms).foreign = none := by
  rw [toList_opened]
  cases (Value.leavesOfAll terms).foreign <;> simp

theorem Cursor.exists_toList_singleton_iff {v : Value} :
    (∃ numbers, source.toList (opened [v]) = .ok numbers) ↔ v.leaves.foreign = none := by
  rw [exists_toList_iff, Value.leavesOfAll_singleton]

/-! ## The contract -/

namespace Contract

theorem violations_term (v : Value) : term.violations v = termViolations v := by
  have hreference : term.violations v =
      Schema.resolveIn [termDefinition] (v.depth + 1) "term" v ++ [] := rfl
  rw [hreference, List.append_nil, resolveIn_term (Nat.lt_succ_self _)]

/-- What the report on a value says about it as a term, by any validator. The report is complete
within the reach of the validator. If it is complete: a value without tuples obeys the contract
of terms exactly when its traversal comes to the end. Whatever obeys the contract is traversed to
the end and delivers as many numbers as are counted. A value that does not obey it has one
violation, at the place of the whole value, however many foreign leaves it has and wherever they
are. -/
theorem report_term_agrees {ε : Type} {V : Validator ε} {reach : Contract → Schema → Value → Prop}
    (h : V.Lawful reach) (v : Value) :
    (reach term term.schema v → ∃ texts, term.reportBy V v = .ok texts) ∧
    ∀ texts, term.reportBy V v = .ok texts →
      (v.TupleFree → (texts = [] ↔
        ∃ numbers, Cursor.source.toList (Cursor.opened [v]) = .ok numbers)) ∧
      (texts = [] → ∃ numbers,
        Cursor.source.toList (Cursor.opened [v]) = .ok numbers ∧
        countLeaves [v] = .ok numbers.length) ∧
      (texts ≠ [] → ∃ violation,
        V.errors term.schema term.schema v = ⟨[violation], none⟩ ∧
        violation.path = "$" ∧ violation.value = v ∧ violation.cause = .noneOf ∧
        texts = ["$: " ++ V.message violation]) := by
  refine ⟨exists_report h, fun texts hreport => ?_⟩
  obtain ⟨herrors, htexts⟩ := errors_of_reportBy h hreport
  have hterm : texts = [] ↔ v.IsTerm := by
    rw [eq_nil_iff_of_reportBy h hreport, violations_term, termViolations_eq_nil_iff]
  rw [hterm, Cursor.exists_toList_singleton_iff]
  refine ⟨fun hfree => ⟨Value.IsTerm.foreign_leaves, hfree.isTerm⟩, fun hv => ?_, fun hv => ?_⟩
  · obtain ⟨numbers, hnumbers⟩ := Cursor.exists_toList_singleton_iff.mpr hv.foreign_leaves
    refine ⟨numbers, hnumbers, ?_⟩
    rw [countLeaves_eq_length, hnumbers]
    rfl
  · rw [violations_term, termViolations, if_neg (hterm.not.mp hv)] at herrors htexts
    refine ⟨_, herrors, rfl, rfl, rfl, htexts.trans ?_⟩
    have hplain : ∀ step ∈ ([] : List PathStep), step.IsPlain :=
      fun step hstep => absurd hstep List.not_mem_nil
    exact congrArg (fun text => [text]) (text_eq h hplain)

/-- Two foreign leaves at different depths are one violation. -/
theorem report_term_agrees_nested :
    (∃ numbers,
      Cursor.source.toList (Cursor.opened [.list [.int 1, .list [.float .nan, .list []]]]) =
        .ok numbers ∧
      countLeaves [.list [.int 1, .list [.float .nan, .list []]]] = .ok numbers.length) ∧
    (Value.TupleFree (.list [.bool true, .list [.null]]) ∧
      ¬ ∃ numbers, Cursor.source.toList (Cursor.opened [.list [.bool true, .list [.null]]]) =
        .ok numbers) ∧
    term.report (.list [.bool true, .list [.null]]) =
      ["$: [True, [None]] is not valid under any of the given schemas"] := by
  have hadmitted : term.report (.list [.int 1, .list [.float .nan, .list []]]) = [] := by
    decide +kernel
  have hrejected : term.report (.list [.bool true, .list [.null]]) =
      ["$: [True, [None]] is not valid under any of the given schemas"] := by
    decide +kernel
  have hinner : Value.TupleFree (.list [.null]) :=
    .list (List.forall_mem_singleton.mpr (.leaf rfl))
  have hfree : Value.TupleFree (.list [.bool true, .list [.null]]) :=
    .list (List.forall_mem_cons.mpr ⟨.leaf rfl, List.forall_mem_singleton.mpr hinner⟩)
  obtain ⟨-, hterm⟩ := report_term_agrees Validator.standard_lawful
    (.list [.int 1, .list [.float .nan, .list []]])
  obtain ⟨-, hother⟩ := report_term_agrees Validator.standard_lawful
    (.list [.bool true, .list [.null]])
  refine ⟨(hterm _ (reportBy_standard _ _)).2.1 hadmitted, ⟨hfree, fun h => ?_⟩, hrejected⟩
  have hnil := ((hother _ (reportBy_standard _ _)).1 hfree).mpr h
  rw [hrejected] at hnil
  cases hnil

end Contract

end NumericActions
