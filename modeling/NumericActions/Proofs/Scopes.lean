import NumericActions.Proofs.InvocationOutcome
import NumericActions.Proofs.SpecificationContract

/-!
# The catalogue in a scope

The catalogue can be registered in every scope that consists of segments, and in the empty
scope. A scope with another part is turned down with the first action. The short names are
segments of their own, so a scope adds its parts before them and does nothing else to them.

* `isName_qualify_iff`: the scopes in which a short name becomes a name.
* `Registry.exists_of_entries`: entries with different names can all be registered.
* `Registry.exists_of_isScope`, `Registry.ofCatalogue_of_not_isScope`: the two kinds of scopes.
* `Registry.get_eq_ok_iff`, `Registry.pairwise_names`: lookup, and the order of the names.
* `Registry.Offers`, `Registry.ofCatalogue_decides`: the outcome in every scope.
-/

namespace NumericActions

/-! ## Names in a scope -/

theorem segments_append_text (scope rest : List Char) :
    segments (scope ++ '/' :: rest) = segments scope ++ segments rest := by
  induction scope with
  | nil => simp [segments]
  | cons c cs ih =>
    rw [List.cons_append, segments, segments, ih]
    split
    · rfl
    · cases hs : segments cs with
      | nil => exact absurd hs (segments_ne_nil cs)
      | cons part parts => rfl

/-- A text that can stand before short names: the empty one, or a path of segments. -/
def IsScope (scope : String) : Prop :=
  scope = "" ∨ ∀ part ∈ segments scope.toList, isSegment part = true

theorem isScope_math : IsScope "math" := .inr (by decide)

theorem toList_qualify {scope : String} (hscope : scope ≠ "") (short : String) :
    (qualify scope short).toList = scope.toList ++ '/' :: short.toList := by
  have hempty : ¬ scope.isEmpty = true := fun h => hscope (String.isEmpty_iff.mp h)
  rw [qualify, if_neg hempty, String.toList_append, String.toList_append, List.append_assoc]
  rfl

theorem segments_qualify {scope short : String} (hscope : scope ≠ "")
    (hshort : isSegment short.toList = true) :
    segments (qualify scope short).toList = segments scope.toList ++ [short.toList] := by
  rw [toList_qualify hscope, segments_append_text,
    segments_of_not_mem (slash_notMem_of_isSegment hshort)]

theorem isName_qualify_iff {scope short : String} (h : isSegment short.toList = true) :
    IsName (qualify scope short) ↔ IsScope scope := by
  rw [isName_iff, IsScope]
  by_cases hscope : scope = ""
  · subst hscope
    show (∀ part ∈ segments short.toList, isSegment part = true) ↔ _
    rw [segments_of_not_mem (slash_notMem_of_isSegment h)]
    simp [h]
  · rw [segments_qualify hscope h]
    simp only [List.mem_append, List.mem_singleton, or_imp, forall_and, forall_eq, h, hscope,
      and_true, false_or]

/-- The parts of a scope come before the short name, so one of them is the first bad part. -/
theorem badSegment?_qualify {scope short : String} (hscope : ¬ IsScope scope)
    (hshort : isSegment short.toList = true) :
    badSegment? (qualify scope short).toList = badSegment? scope.toList := by
  have hne : scope ≠ "" := fun h => hscope (.inl h)
  have hbad : badSegment? scope.toList ≠ none := by
    rw [ne_eq, badSegment?_eq_none_iff]
    exact fun h => hscope (.inr h)
  obtain ⟨part, hpart⟩ := Option.ne_none_iff_exists'.mp hbad
  unfold badSegment? at hpart ⊢
  rw [segments_qualify hne hshort, List.find?_append, hpart, Option.some_or]

/-! ## The action of an entry -/

namespace CatalogueEntry

theorem isSegment_shortName {library : Elementary} {entry : CatalogueEntry}
    (h : entry ∈ catalogue library) : isSegment entry.shortName.toList = true := by
  have hall : ∀ name ∈ (catalogue Elementary.native).map (·.shortName),
      isSegment name.toList = true := by decide +kernel
  have hsame : (catalogue library).map (·.shortName) =
      (catalogue Elementary.native).map (·.shortName) := rfl
  exact hall entry.shortName (hsame ▸ List.mem_map_of_mem h)

theorem exists_action?_iff {scope : String} {entry : CatalogueEntry} :
    (∃ action, entry.action? scope = .ok action) ↔ IsName (qualify scope entry.shortName) := by
  rw [action?_eq, IsName]
  cases Field.name (.text (qualify scope entry.shortName)) <;> simp

theorem action?_of_not_isScope {scope : String} {entry : CatalogueEntry}
    (hscope : ¬ IsScope scope) (hshort : isSegment entry.shortName.toList = true) :
    ∃ segment, badSegment? scope.toList = some segment ∧
      entry.action? scope = .error [⟨"name",
        .badSegment (String.ofList segment) (qualify scope entry.shortName)⟩] := by
  have hne : (qualify scope entry.shortName).isEmpty = false := by
    refine Bool.eq_false_iff.mpr fun h => hscope (.inl ?_)
    by_contra hscope'
    have hlist := toList_qualify hscope' entry.shortName
    rw [String.isEmpty_iff.mp h] at hlist
    simp at hlist
  cases hbad : badSegment? scope.toList with
  | none => exact absurd (.inr (badSegment?_eq_none_iff.mp hbad)) hscope
  | some segment =>
    refine ⟨segment, rfl, ?_⟩
    have hname : Field.name (.text (qualify scope entry.shortName)) =
        .error (.badSegment (String.ofList segment) (qualify scope entry.shortName)) := by
      have hqualified := (badSegment?_qualify hscope hshort).trans hbad
      rw [Field.name_text, if_neg (by rw [hne]; exact Bool.false_ne_true)]
      unfold ActionName.of?
      split
      · rename_i h
        rw [hqualified] at h
        cases h
      · rename_i other h
        rw [hqualified] at h
        cases h
        rfl
    rw [action?_eq, hname]

end CatalogueEntry

namespace Registry

/-! ## Registration -/

theorem register_of_not_contains {registry : Registry} {action : Action}
    (h : registry.contains action.name.text = false) :
    ∃ registry', registry.register action = .ok registry' := by
  unfold register
  split
  · rename_i h'
    rw [h] at h'
    cases h'
  · exact ⟨_, rfl⟩

theorem contains_eq_false_iff {registry : Registry} {name : String} :
    registry.contains name = false ↔
      name ∉ registry.actions.map fun action => action.name.text := by
  simp [contains]

/-- One more entry, whose name is new. -/
theorem registerEntry_of_notMem {scope : String} {registry : Registry} {entry : CatalogueEntry}
    {action : Action} (ha : entry.action? scope = .ok action)
    (hnew : qualify scope entry.shortName ∉
      registry.actions.map fun action => action.name.text) :
    ∃ registry', registerEntry scope registry entry = .ok registry' ∧
      (registry'.actions.map fun action => action.name.text) =
        (registry.actions.map fun action => action.name.text) ++
          [qualify scope entry.shortName] := by
  have hname := (CatalogueEntry.action?_spec ha).1
  obtain ⟨registry', hr⟩ := register_of_not_contains
    (contains_eq_false_iff.mpr (hname ▸ hnew))
  refine ⟨registry', ?_, ?_⟩
  · unfold registerEntry
    rw [ha]
    show (registry.register action).mapError Rejection.ofFault = .ok registry'
    rw [hr]
    rfl
  · rw [actions_of_register hr, List.map_append, List.map_singleton, hname]

theorem exists_of_foldlM {scope : String} (entries : List CatalogueEntry) {start : Registry}
    (hvalid : ∀ entry ∈ entries, ∃ action, entry.action? scope = .ok action)
    (hnodup : ((start.actions.map fun action => action.name.text) ++
      entries.map fun entry => qualify scope entry.shortName).Nodup) :
    ∃ registry, entries.foldlM (registerEntry scope) start = .ok registry ∧
      (registry.actions.map fun action => action.name.text) =
        (start.actions.map fun action => action.name.text) ++
          entries.map fun entry => qualify scope entry.shortName := by
  induction entries generalizing start with
  | nil => exact ⟨start, rfl, (List.append_nil _).symm⟩
  | cons entry entries ih =>
    obtain ⟨action, ha⟩ := hvalid entry List.mem_cons_self
    rw [List.map_cons, List.append_cons] at hnodup ⊢
    have hnew : qualify scope entry.shortName ∉
        start.actions.map fun action => action.name.text := by
      have hfirst := (List.nodup_append'.mp hnodup).1
      exact fun hm => (List.nodup_append'.mp hfirst).2.2 hm (List.mem_singleton_self _)
    obtain ⟨next, hnext, hnames⟩ := registerEntry_of_notMem ha hnew
    rw [← hnames] at hnodup ⊢
    obtain ⟨registry, hregistry, hall⟩ :=
      ih (fun other ho => hvalid other (List.mem_cons_of_mem _ ho)) hnodup
    refine ⟨registry, ?_, hall⟩
    rw [List.foldlM_cons, hnext]
    exact hregistry

/-- Entries with different short names, all of which become names, can be registered. -/
theorem exists_of_entries {scope : String} {entries : List CatalogueEntry}
    (hvalid : ∀ entry ∈ entries, ∃ action, entry.action? scope = .ok action)
    (hnodup : (entries.map fun entry => entry.shortName).Nodup) :
    ∃ registry, ofEntries scope entries = .ok registry ∧
      (registry.actions.map fun action => action.name.text) =
        entries.map fun entry => qualify scope entry.shortName := by
  refine exists_of_foldlM entries hvalid ?_
  have hnames : (entries.map fun entry => qualify scope entry.shortName) =
      (entries.map fun entry => entry.shortName).map (qualify scope) := by
    rw [List.map_map]
    rfl
  rw [empty, List.map_nil, List.nil_append, hnames]
  exact hnodup.map fun a b h => qualify_inj h

theorem ofEntries_of_first_error {scope : String} {entry : CatalogueEntry}
    {errors : List FieldError} (h : entry.action? scope = .error errors)
    (entries : List CatalogueEntry) :
    ofEntries scope (entry :: entries) = .error (.specification errors) := by
  unfold ofEntries
  rw [List.foldlM_cons, registerEntry, h]
  rfl

/-! ## Lookup -/

theorem get_eq_ok_iff {registry : Registry} {name : String} {action : Action} :
    registry.get name = .ok action ↔ action ∈ registry.actions ∧ action.name.text = name := by
  constructor
  · intro h
    have hsome : registry.get? name = some action := by
      unfold get at h
      cases hfound : registry.get? name with
      | none =>
        rw [hfound] at h
        cases h
      | some found =>
        rw [hfound] at h
        cases h
        rfl
    unfold get? at hsome
    exact ⟨List.mem_of_find?_eq_some hsome, by simpa using List.find?_some hsome⟩
  · rintro ⟨hmem, rfl⟩
    exact get_of_mem hmem

/-! ## The order of the names -/

theorem nameLe_iff {a b : String} : nameLe a b = true ↔ a ≤ b := by
  rw [nameLe, Bool.not_eq_true', decide_eq_false_iff_not, String.not_lt]

theorem pairwise_names (registry : Registry) :
    (registry.manifest.map fun spec => spec.name.text).Pairwise (· < ·) := by
  have hnames : (registry.manifest.map fun spec => spec.name.text) =
      registry.ordered.map fun action => action.name.text := by
    rw [manifest, List.map_map]
    rfl
  have hperm : (registry.ordered.map fun action => action.name.text).Perm
      (registry.actions.map fun action => action.name.text) :=
    (sorted_perm _ registry.actions).map _
  have hle : (registry.ordered.map fun action => action.name.text).Pairwise (· ≤ ·) := by
    rw [List.pairwise_map]
    refine (pairwise_sorted ?_ ?_ registry.actions).imp fun h => nameLe_iff.mp h
    · intro a b
      rw [Bool.or_eq_true, nameLe_iff, nameLe_iff]
      exact String.le_total _ _
    · intro a b c
      rw [nameLe_iff, nameLe_iff, nameLe_iff]
      exact String.le_trans
  have hne := hperm.nodup_iff.mpr registry.nodup
  rw [hnames]
  exact (hle.and hne).imp fun h => lt_of_le_of_ne h.1 h.2

/-! ## The outcome in a scope -/

/-- What the registry of the catalogue in a scope offers. -/
structure Offers (registry : Registry) (library : Elementary) (scope : String) : Prop where
  size : registry.size = 37
  /-- There is one action for each entry, in the order of the catalogue, under a name of its
  own. -/
  names : (registry.actions.map fun action => action.name.text) =
    (catalogue library).map fun entry => qualify scope entry.shortName
  nodup : (registry.actions.map fun action => action.name.text).Nodup
  /-- The action of a name is that of the entry behind the name, with all that the entry
  states. -/
  get : ∀ name action, registry.get name = .ok action ↔
    ∃ entry ∈ catalogue library, name = qualify scope entry.shortName ∧
      action.name.text = name ∧ action.minimalArguments = entry.minimalArguments ∧
      action.description = entry.description ∧ action.method = entry.method
  /-- No other name has an action. -/
  unknown : ∀ name, (∀ entry ∈ catalogue library, name ≠ qualify scope entry.shortName) →
    registry.get name = .error ⟨.unknownAction, some name⟩
  /-- The pattern of the contract of invocations is found in every name, and a value that
  states the name and terms is answered by the action, if the validator can go through it. -/
  reachable : ∀ entry ∈ catalogue library, ∀ name, name = qualify scope entry.shortName →
    (∃ p, Contract.invocation.schema.patternsOf "action" = [p] ∧ p.occursIn name = true) ∧
    ∃ action, registry.get name = .ok action ∧
      ∀ arguments, (∀ v ∈ arguments, v.IsTerm) → ∀ parallel value,
        value = .dict [("action", .text name), ("arguments", .list arguments),
          ("parallel", .bool parallel)] →
        ∀ {ε : Type} (V : Validator ε) (reach : Contract → Schema → Value → Prop),
          V.Lawful reach → reach .invocation Contract.invocation.schema value →
          registry.invokeValueBy V value =
            .ok (match action.execute parallel arguments [] with
              | (.ok _, results) => .ok results
              | (.error failure, _) => .error (.failure failure))
  /-- The manifest has the specification of every action and nothing else, each in the place
  of its name, and all of them obey the contract of specifications. -/
  manifest : registry.manifest.Perm (registry.actions.map Action.spec) ∧
    (registry.manifest.map fun spec => spec.name.text).Pairwise (· < ·) ∧
    ∀ spec ∈ registry.manifest,
      ∀ {ε : Type} (V : Validator ε) (reach : Contract → Schema → Value → Prop),
        V.Lawful reach → reach .specification Contract.specification.schema spec.toValue →
        Contract.specification.reportBy V spec.toValue = .ok []

theorem invokeValueBy_of_mem {ε : Type} {V : Validator ε}
    {reach : Contract → Schema → Value → Prop} (hV : V.Lawful reach) {registry : Registry}
    {action : Action} (h : action ∈ registry.actions) {arguments : List Value}
    (hterms : ∀ v ∈ arguments, v.IsTerm) (parallel : Bool)
    (hreach : reach .invocation Contract.invocation.schema
      (.dict [("action", .text action.name.text), ("arguments", .list arguments),
        ("parallel", .bool parallel)])) :
    registry.invokeValueBy V (.dict [("action", .text action.name.text),
        ("arguments", .list arguments), ("parallel", .bool parallel)]) =
      .ok (match action.execute parallel arguments [] with
        | (.ok _, results) => .ok results
        | (.error failure, _) => .error (.failure failure)) := by
  have hentries : InvocationEntries [("action", .text action.name.text),
      ("arguments", .list arguments), ("parallel", .bool parallel)] := by
    refine ⟨?_, ⟨_, rfl, occursIn_namePattern.mpr (.inl action.name.isName)⟩, ⟨_, rfl, hterms⟩, ?_⟩
    · simp [invocationKeys]
    · intro v hv
      cases hv
      exact ⟨parallel, rfl⟩
  obtain ⟨texts, hreport⟩ := Contract.exists_report hV hreach
  obtain rfl := (Contract.eq_nil_iff_of_reportBy hV hreport).mpr
    (Contract.violations_dict_eq_nil_iff.mpr hentries)
  obtain ⟨flag, hinvoke⟩ := invokeValueBy_of_invocation hV hreport rfl rfl registry
  rw [hinvoke, invoke_of_mem h, Action.execute_eq]
  cases action.results arguments <;> rfl

section

variable {library : Elementary} {scope : String} {registry : Registry}

theorem get_catalogue_iff (h : ofCatalogue library scope = .ok registry) {name : String}
    {action : Action} :
    registry.get name = .ok action ↔
      ∃ entry ∈ catalogue library, name = qualify scope entry.shortName ∧
        action.name.text = name ∧ action.minimalArguments = entry.minimalArguments ∧
        action.description = entry.description ∧ action.method = entry.method := by
  rw [get_eq_ok_iff, mem_actions_iff h]
  constructor
  · rintro ⟨⟨entry, he, ha⟩, rfl⟩
    obtain ⟨hname, hminimum, hdescription, hmethod⟩ := CatalogueEntry.action?_spec ha
    exact ⟨entry, he, hname, rfl, hminimum, hdescription, hmethod⟩
  · rintro ⟨entry, he, hqualified, hname, hminimum, hdescription, hmethod⟩
    obtain ⟨other, hother⟩ := CatalogueEntry.exists_action?_iff.mpr
      (show IsName (qualify scope entry.shortName) from
        hqualified ▸ hname ▸ action.name.isName)
    -- an action has nothing but what the entry states
    obtain ⟨hname', hminimum', hdescription', hmethod'⟩ := CatalogueEntry.action?_spec hother
    have heq : action = other := by
      obtain ⟨⟨text, valid⟩, minimum, description, method⟩ := action
      obtain ⟨⟨text', valid'⟩, minimum', description', method'⟩ := other
      simp_all
    exact ⟨⟨entry, he, heq ▸ hother⟩, hname⟩

/-- Another scope is turned down for its first part that is not a segment. -/
theorem ofCatalogue_of_not_isScope (library : Elementary) (hscope : ¬ IsScope scope) :
    ∃ segment, badSegment? scope.toList = some segment ∧
      ofCatalogue library scope = .error (.specification
        [⟨"name", .badSegment (String.ofList segment) (qualify scope "abs")⟩]) := by
  obtain ⟨entry, entries, hcatalogue, hshort⟩ : ∃ entry entries,
      catalogue library = entry :: entries ∧ entry.shortName = "abs" := ⟨_, _, rfl, rfl⟩
  have hsegment : isSegment entry.shortName.toList = true :=
    CatalogueEntry.isSegment_shortName (hcatalogue ▸ List.mem_cons_self)
  obtain ⟨segment, hbad, haction⟩ := CatalogueEntry.action?_of_not_isScope hscope hsegment
  refine ⟨segment, hbad, ?_⟩
  unfold ofCatalogue
  rw [hcatalogue, ofEntries_of_first_error haction, hshort]

/-- In a scope of segments there is a registry, with one action for each entry. -/
theorem exists_of_isScope (library : Elementary) (hscope : IsScope scope) :
    ∃ registry, ofCatalogue library scope = .ok registry ∧
      (registry.actions.map fun action => action.name.text) =
        (catalogue library).map fun entry => qualify scope entry.shortName := by
  refine exists_of_entries ?_ (nodup_shortNames library)
  intro entry he
  exact CatalogueEntry.exists_action?_iff.mpr
    ((isName_qualify_iff (CatalogueEntry.isSegment_shortName he)).mpr hscope)

theorem isScope_of_eq_ok (h : ofCatalogue library scope = .ok registry) : IsScope scope := by
  by_contra hscope
  obtain ⟨segment, -, herror⟩ := ofCatalogue_of_not_isScope library hscope
  rw [h] at herror
  cases herror

theorem exists_mem_of_entry (h : ofCatalogue library scope = .ok registry)
    {entry : CatalogueEntry} (he : entry ∈ catalogue library) :
    ∃ action ∈ registry.actions, action.name.text = qualify scope entry.shortName ∧
      action.minimalArguments = entry.minimalArguments ∧ action.method = entry.method := by
  have hname : IsName (qualify scope entry.shortName) :=
    (isName_qualify_iff (CatalogueEntry.isSegment_shortName he)).mpr (isScope_of_eq_ok h)
  obtain ⟨action, ha⟩ := CatalogueEntry.exists_action?_iff.mpr hname
  obtain ⟨htext, hminimum, -, hmethod⟩ := CatalogueEntry.action?_spec ha
  exact ⟨action, (mem_actions_iff h action).mpr ⟨entry, he, ha⟩, htext, hminimum, hmethod⟩

/-- In every scope there is a registry with an action for a given entry. -/
theorem exists_action_of_entry {scope : String} (hscope : IsScope scope) {library : Elementary}
    {entry : CatalogueEntry} (he : entry ∈ catalogue library) :
    ∃ registry action, ofCatalogue library scope = .ok registry ∧ action ∈ registry.actions ∧
      action.name.text = qualify scope entry.shortName ∧
      action.minimalArguments = entry.minimalArguments ∧ action.method = entry.method := by
  obtain ⟨registry, hr, -⟩ := exists_of_isScope library hscope
  obtain ⟨action, ha, hname, hminimum, hmethod⟩ := exists_mem_of_entry hr he
  exact ⟨registry, action, hr, ha, hname, hminimum, hmethod⟩

theorem offers (h : ofCatalogue library scope = .ok registry)
    (hnames : (registry.actions.map fun action => action.name.text) =
      (catalogue library).map fun entry => qualify scope entry.shortName) :
    registry.Offers library scope := by
  have hlength : registry.actions.length = (catalogue library).length := by
    simpa using congrArg List.length hnames
  constructor
  · exact hlength.trans (length_catalogue library)
  · exact hnames
  · exact registry.nodup
  · exact fun name action => get_catalogue_iff h
  · intro name hname
    refine get_of_not_contains (contains_eq_false_iff.mpr ?_)
    rw [hnames, List.mem_map]
    rintro ⟨entry, he, hqualified⟩
    exact hname entry he hqualified.symm
  · rintro entry he name rfl
    obtain ⟨action, ha, hname, -, -⟩ := exists_mem_of_entry h he
    rw [← hname]
    refine ⟨⟨Contract.namePattern, rfl, occursIn_namePattern.mpr (.inl action.name.isName)⟩,
      action, get_of_mem ha, ?_⟩
    rintro arguments hterms parallel value rfl ε V reach hV hreach
    exact invokeValueBy_of_mem hV ha hterms parallel hreach
  · exact ⟨(sorted_perm _ registry.actions).map _, pairwise_names registry,
      fun spec _ _ _ _ hV hreach => Contract.reportBy_toValue hV spec hreach⟩

/-- In every scope the catalogue either becomes a registry that offers all of it, or it is turned
down with its first entry, for the first part of the scope that is not a segment. It is never
turned down for a name that is registered already. -/
theorem ofCatalogue_decides (library : Elementary) (scope : String) :
    ((∃ registry, ofCatalogue library scope = .ok registry) ↔ IsScope scope) ∧
    (∀ registry, ofCatalogue library scope = .ok registry → registry.Offers library scope) ∧
    ∀ rejection, ofCatalogue library scope = .error rejection →
      ∃ segment, badSegment? scope.toList = some segment ∧
        rejection = .specification
          [⟨"name", .badSegment (String.ofList segment) (qualify scope "abs")⟩] := by
  by_cases hscope : IsScope scope
  · obtain ⟨registry, hregistry, hnames⟩ := exists_of_isScope library hscope
    rw [hregistry]
    refine ⟨⟨fun _ => hscope, fun _ => ⟨registry, rfl⟩⟩, ?_, ?_⟩
    · intro other hother
      cases hother
      exact offers hregistry hnames
    · intro rejection h
      cases h
  · obtain ⟨segment, hbad, herror⟩ := ofCatalogue_of_not_isScope library hscope
    rw [herror]
    refine ⟨⟨?_, fun h => absurd h hscope⟩, ?_, ?_⟩
    · rintro ⟨registry, h⟩
      cases h
    · intro registry h
      cases h
    · intro rejection h
      cases h
      exact ⟨segment, hbad, rfl⟩

end

end Registry

end NumericActions
