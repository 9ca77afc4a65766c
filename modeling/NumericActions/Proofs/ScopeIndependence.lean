import NumericActions.Proofs.AttributedCatalogue
import NumericActions.Proofs.FirstProblem
import NumericActions.Proofs.Scopes
import NumericActions.Proofs.SinkAtomicity

/-!
# Scopes do not influence outcomes

The name of an action depends on the scope in which it is registered. The name is handed to
everything that runs for the action, and it comes back in reports only: once in front of the
words, and beside them. So the executions of one action in two scopes have the same results, or
they fail in the same way.

* `Attributed.Entry.execute_eq`: an execution under a name in terms of the one without.
* `Registry.reported_execute`: an execution by a registry is the one that hands the name on.
* `ExecutionsAgree`, `Registry.execute_scopes`: executions in two scopes.
-/

namespace NumericActions

/-! ## Executions under a name -/

namespace CatalogueEntry

/-- The results on a list of arguments, without a name. -/
def results (entry : CatalogueEntry) (arguments : List Value) : Except Fault (List Value) :=
  if arguments.length < entry.minimalArguments then
    .error (.tooFewArguments entry.minimalArguments arguments.length)
  else entry.method.evaluate arguments

end CatalogueEntry

namespace Attributed.Entry

variable {entry : Entry} {plain : CatalogueEntry}

theorem Matches.results (h : entry.Matches plain) (action : Option String)
    (arguments : List Value) :
    Attributes action (entry.results action arguments) (plain.results arguments) := by
  unfold Entry.results CatalogueEntry.results
  rw [h.minimalArguments]
  exact attributes_ite (attributes_raise rfl) (h.evaluate action arguments)

theorem execute_eq (h : entry.Matches plain) (name : String) (parallel : Bool)
    (arguments sink : List Value) :
    entry.execute name parallel arguments sink =
      match plain.results arguments with
      | .ok results => (.ok (), sink ++ results)
      | .error fault => (.error (fault.raised (some name)), sink) := by
  unfold execute
  rw [h.results (some name) arguments]
  cases plain.results arguments <;> rfl

end Attributed.Entry

namespace Registry

/-- The outcome of an execution as a host sees it, and the sink. -/
def reported (outcome : Except Failure Unit × List Value) : Except Report Unit × List Value :=
  (outcome.1.mapError Failure.report, outcome.2)

/-- A registry executes an action as the entry of the action does under its name. -/
theorem reported_execute {library : Elementary} {scope : String} {registry : Registry}
    (h : ofCatalogue library scope = .ok registry) {entry : Attributed.Entry}
    (he : entry ∈ Attributed.catalogue library) (parallel : Bool) (arguments sink : List Value) :
    reported (registry.execute ⟨qualify scope entry.shortName, arguments, parallel⟩ sink) =
      entry.execute (qualify scope entry.shortName) parallel arguments sink := by
  obtain ⟨plain, hplain, hmatches⟩ := Attributed.Entry.exists_matches he
  obtain ⟨action, ha, hname, hminimum, hmethod⟩ := exists_mem_of_entry h hplain
  have hresults : action.results arguments = plain.results arguments := by
    rw [Action.results, CatalogueEntry.results, hminimum, hmethod]
  rw [hmatches.shortName, ← hname, execute_of_mem ha rfl, Action.execute_eq, hresults,
    Attributed.Entry.execute_eq hmatches]
  cases plain.results arguments with
  | ok results => rfl
  | error fault =>
    show (Except.error (Failure.mk fault (some action.name.text)).report, sink) = _
    rw [Failure.report_eq]

end Registry

/-! ## Executions under two names -/

/-- Two reports that differ in nothing but the names: each shows its own name, once in front of
the words and beside them, or neither shows any name. -/
inductive Report.AgreeUpToName (nameA nameB : String) : Report → Report → Prop where
  | named {kind : FaultKind} (h : kind.namesAction = true) (text : String) :
    AgreeUpToName nameA nameB ⟨kind, nameA ++ ": " ++ text, some nameA⟩
      ⟨kind, nameB ++ ": " ++ text, some nameB⟩
  | unnamed {kind : FaultKind} (h : kind.namesAction = false) (text : String) :
    AgreeUpToName nameA nameB ⟨kind, text, none⟩ ⟨kind, text, none⟩

/-- Two executions that put the same results at the ends of their sinks, or that fail with reports
which differ in nothing but the names and leave the sinks as they are. -/
inductive ExecutionsAgree (nameA nameB : String) (sinkA sinkB : List Value) :
    Except Report Unit × List Value → Except Report Unit × List Value → Prop where
  | results (results : List Value) :
    ExecutionsAgree nameA nameB sinkA sinkB (.ok (), sinkA ++ results) (.ok (), sinkB ++ results)
  | failure {reportA reportB : Report} (h : Report.AgreeUpToName nameA nameB reportA reportB) :
    ExecutionsAgree nameA nameB sinkA sinkB (.error reportA, sinkA) (.error reportB, sinkB)

theorem Fault.raised_of_namesAction {fault : Fault} (h : fault.kind.namesAction = true)
    {name : String} (hname : name.isEmpty = false) :
    fault.raised (some name) = ⟨fault.kind, name ++ ": " ++ fault.text, some name⟩ := by
  rw [Fault.raised, if_pos h, Report.named, Report.worded, hname]
  rfl

theorem Fault.agreeUpToName_raised (fault : Fault) {nameA nameB : String}
    (hA : nameA.isEmpty = false) (hB : nameB.isEmpty = false) :
    Report.AgreeUpToName nameA nameB (fault.raised (some nameA)) (fault.raised (some nameB)) := by
  cases h : fault.kind.namesAction with
  | true =>
    rw [raised_of_namesAction h hA, raised_of_namesAction h hB]
    exact .named h fault.text
  | false =>
    have hnameless : fault.Nameless := h
    rw [hnameless.raised, hnameless.raised]
    exact .unnamed h fault.text

namespace Attributed.Entry

theorem executionsAgree {entry : Entry} {plain : CatalogueEntry} (h : entry.Matches plain)
    {nameA nameB : String} (hA : nameA.isEmpty = false) (hB : nameB.isEmpty = false)
    (parallelA parallelB : Bool) (arguments sinkA sinkB : List Value) :
    ExecutionsAgree nameA nameB sinkA sinkB (entry.execute nameA parallelA arguments sinkA)
      (entry.execute nameB parallelB arguments sinkB) := by
  rw [execute_eq h, execute_eq h]
  cases plain.results arguments with
  | ok results => exact .results results
  | error fault => exact .failure (fault.agreeUpToName_raised hA hB)

end Attributed.Entry

namespace Registry

theorem isEmpty_qualify {library : Elementary} {scope : String} {registry : Registry}
    (h : ofCatalogue library scope = .ok registry) {entry : CatalogueEntry}
    (he : entry ∈ catalogue library) : (qualify scope entry.shortName).isEmpty = false := by
  obtain ⟨action, -, hname, -, -⟩ := exists_mem_of_entry h he
  rw [← hname]
  exact action.name.isEmpty_text

/-- The executions of one action in two scopes, for all arguments, hints and sinks. An execution
by a registry is the one that hands the name of the action on to every check and every function,
and the two executions agree up to the names. All actions are meant: the entries that are given
names are those of the catalogue. -/
theorem execute_scopes {library : Elementary} {scopeA scopeB : String} {A B : Registry}
    (hA : ofCatalogue library scopeA = .ok A) (hB : ofCatalogue library scopeB = .ok B) :
    (Attributed.catalogue library).map (·.shortName) = (catalogue library).map (·.shortName) ∧
    ∀ entry ∈ Attributed.catalogue library, ∀ arguments parallelA parallelB sinkA sinkB,
      let nameA := qualify scopeA entry.shortName
      let nameB := qualify scopeB entry.shortName
      let outcomeA := reported (A.execute ⟨nameA, arguments, parallelA⟩ sinkA)
      let outcomeB := reported (B.execute ⟨nameB, arguments, parallelB⟩ sinkB)
      outcomeA = entry.execute nameA parallelA arguments sinkA ∧
      outcomeB = entry.execute nameB parallelB arguments sinkB ∧
      ExecutionsAgree nameA nameB sinkA sinkB outcomeA outcomeB := by
  refine ⟨rfl, ?_⟩
  intro entry he arguments parallelA parallelB sinkA sinkB
  dsimp only
  obtain ⟨plain, hplain, hmatches⟩ := Attributed.Entry.exists_matches he
  refine ⟨reported_execute hA he _ _ _, reported_execute hB he _ _ _, ?_⟩
  rw [reported_execute hA he, reported_execute hB he]
  refine Attributed.Entry.executionsAgree hmatches ?_ ?_ _ _ _ _ _
  · rw [hmatches.shortName]
    exact isEmpty_qualify hA hplain
  · rw [hmatches.shortName]
    exact isEmpty_qualify hB hplain

/-- A list in the place of the second parameter of a sigmoid, in a scope and in the empty one. -/
theorem execute_scopes_parameter :
    ∃ A B, ofCatalogue Elementary.native "math" = .ok A ∧
      ofCatalogue Elementary.native "" = .ok B ∧
      let arguments : List Value := [.int 1, .list [.int 2], .int 3]
      let outcomeA := reported (A.execute ⟨"math/sigmoid", arguments, false⟩ [])
      let outcomeB := reported (B.execute ⟨"sigmoid", arguments, true⟩ [.null])
      outcomeA = (.error ⟨.termType,
        "math/sigmoid: parameter #1 expected a number, got list: [2]", some "math/sigmoid"⟩, []) ∧
      outcomeB = (.error ⟨.termType,
        "sigmoid: parameter #1 expected a number, got list: [2]", some "sigmoid"⟩, [.null]) ∧
      ExecutionsAgree "math/sigmoid" "sigmoid" [] [.null] outcomeA outcomeB := by
  obtain ⟨A, hA, -⟩ := exists_of_isScope Elementary.native
    (show IsScope "math" from .inr (by decide))
  obtain ⟨B, hB, -⟩ := exists_of_isScope Elementary.native (show IsScope "" from .inl rfl)
  have he : (⟨"sigmoid", 3, .parameterized sigmoidLayout fun values =>
      Attributed.unnamed (sigmoidOf Elementary.native values)⟩ : Attributed.Entry) ∈
        Attributed.catalogue Elementary.native :=
    List.mem_append_right _ List.mem_cons_self
  obtain ⟨houtcomeA, houtcomeB, hagree⟩ := (execute_scopes hA hB).2 _ he
    [.int 1, .list [.int 2], .int 3] false true [] [.null]
  exact ⟨A, B, hA, hB, houtcomeA, houtcomeB, hagree⟩

end Registry

end NumericActions
