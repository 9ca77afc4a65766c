import Mathlib.Data.List.Nodup
import NumericActions.Registry.Basic

/-!
# The registry of the catalogue

A registry is filled entry by entry, and nothing else comes into it: its actions are the
actions of the entries, with their methods and least numbers of arguments unchanged.

* `CatalogueEntry.action?_eq`, `CatalogueEntry.action?_spec`: what an entry becomes in a scope.
* `mem_catalogue_iff`: the four groups of entries, each with its way of grouping numbers.
* `CatalogueEntry.eq_of_shortName_eq`: no two entries have the same name.
* `Registry.mem_actions_iff`: the actions of the registry of entries.
* `Registry.get_of_mem`, `Registry.get_of_not_contains`: the lookup of a name.
* `Registry.mem_catalogue`: an action of the catalogue's registry has an entry.
-/

namespace NumericActions

/-! ## The action of an entry -/

def statedFields (name : String) (minimum : Nat) (d : Discipline) (description : String) :
    List (String × Value) :=
  [("name", .text name), ("minimal_arguments", .int minimum), ("discipline", .text d.name),
   ("description", .text description)]

/-- Only the name can be wrong in them. -/
theorem ActionSpec.ofFields?_stated (name : String) (minimum : Nat) (d : Discipline)
    (description : String) :
    ActionSpec.ofFields? (statedFields name minimum d description) =
      match Field.name (.text name) with
      | .ok n => .ok ⟨n, minimum, d, description⟩
      | .error cause => .error [⟨"name", cause⟩] := by
  have hname : Field.find (.error .missing) Coercion.lax.name
      (statedFields name minimum d description) "name" =
      (Field.name (.text name)).mapError fun cause => ⟨"name", cause⟩ := rfl
  have hminimum : Field.find (.error .missing) Coercion.lax.natural
      (statedFields name minimum d description) "minimal_arguments" = .ok minimum := by
    have h : ¬ (minimum : Int) < 0 := by omega
    have hn : Coercion.lax.natural (.int minimum) = .ok minimum := by
      simp only [Coercion.natural, Coercion.lax_keepsPlain.integer, bind, Except.bind, if_neg h,
        Int.toNat_natCast]
    show (Coercion.lax.natural (.int minimum)).mapError _ = _
    rw [hn]
    rfl
  have hdiscipline : Field.find (.error .missing) Coercion.lax.discipline
      (statedFields name minimum d description) "discipline" = .ok d := by
    show (Coercion.lax.discipline (.text d.name)).mapError _ = _
    rw [Coercion.lax_keepsPlain.discipline]
    rfl
  have hdescription : Field.find (.ok "") Coercion.lax.text
      (statedFields name minimum d description) "description" = .ok description := rfl
  unfold ActionSpec.ofFields? ActionSpec.read?
  rw [hname, hminimum, hdiscipline, hdescription]
  cases Field.name (.text name) <;> rfl

theorem Field.text_of_name {name : String} {n : ActionName}
    (h : Field.name (.text name) = .ok n) : n.text = name := by
  rw [Field.name_text] at h
  split at h
  · cases h
  · unfold ActionName.of? at h
    split at h
    · cases h
      rfl
    · cases h

/-- An entry becomes an action with all that it states, under a name that must be one. -/
theorem CatalogueEntry.action?_eq (scope : String) (entry : CatalogueEntry) :
    entry.action? scope =
      match Field.name (.text (qualify scope entry.shortName)) with
      | .ok name => .ok ⟨name, entry.minimalArguments, entry.description, entry.method⟩
      | .error cause => .error [⟨"name", cause⟩] := by
  have hfields := ActionSpec.ofFields?_stated (qualify scope entry.shortName)
    entry.minimalArguments entry.method.discipline entry.description
  unfold statedFields at hfields
  unfold action? Action.of?
  rw [hfields]
  cases Field.name (.text (qualify scope entry.shortName)) <;> rfl

theorem CatalogueEntry.action?_spec {scope : String} {entry : CatalogueEntry} {action : Action}
    (h : entry.action? scope = .ok action) :
    action.name.text = qualify scope entry.shortName ∧
      action.minimalArguments = entry.minimalArguments ∧
      action.description = entry.description ∧ action.method = entry.method := by
  rw [action?_eq] at h
  cases hn : Field.name (.text (qualify scope entry.shortName)) with
  | error cause =>
    rw [hn] at h
    cases h
  | ok n =>
    rw [hn] at h
    cases h
    exact ⟨Field.text_of_name hn, rfl, rfl, rfl⟩

/-! ## The groups of entries -/

theorem mem_catalogue_iff {library : Elementary} {entry : CatalogueEntry} :
    entry ∈ catalogue library ↔ entry ∈ elementwiseEntries library ∨ entry ∈ windowedEntries ∨
      entry ∈ aggregateEntries library ∨ entry ∈ parameterizedEntries library := by
  simp only [catalogue, List.mem_append, or_assoc]

theorem method_of_mem_elementwise {library : Elementary} {entry : CatalogueEntry}
    (h : entry ∈ elementwiseEntries library) : ∃ f, entry.method = .elementwise f := by
  rcases List.mem_append.mp h with h | h
  · obtain ⟨f, -, rfl⟩ := List.mem_map.mp h
    exact ⟨_, rfl⟩
  · simp only [List.mem_cons, List.not_mem_nil, or_false] at h
    rcases h with rfl | rfl | rfl | rfl | rfl <;> exact ⟨_, rfl⟩

theorem method_of_mem_windowed {entry : CatalogueEntry} (h : entry ∈ windowedEntries) :
    ∃ f, entry.method = .windowed .pairs f := by
  simp only [windowedEntries, List.mem_cons, List.not_mem_nil, or_false] at h
  rcases h with rfl | rfl | rfl <;> exact ⟨_, rfl⟩

theorem method_of_mem_aggregate {library : Elementary} {entry : CatalogueEntry}
    (h : entry ∈ aggregateEntries library) : ∃ f, entry.method = .aggregate f := by
  simp only [aggregateEntries, List.mem_cons, List.not_mem_nil, or_false] at h
  rcases h with rfl | rfl | rfl | rfl | rfl | rfl | rfl | rfl <;> exact ⟨_, rfl⟩

theorem method_of_mem_parameterized {library : Elementary} {entry : CatalogueEntry}
    (h : entry ∈ parameterizedEntries library) :
    ∃ layout f, entry.method = .parameterized layout f := by
  simp only [parameterizedEntries, List.mem_cons, List.not_mem_nil, or_false] at h
  rcases h with rfl | rfl <;> exact ⟨_, _, rfl⟩

def sigmoidEntry (library : Elementary) : CatalogueEntry :=
  ⟨"sigmoid", "alpha / (beta + exp(-gamma * t)) for each t", 3,
    .parameterized sigmoidLayout (sigmoidOf library)⟩

def powerEntry (library : Elementary) : CatalogueEntry :=
  ⟨"pow", "t ** exponent for each t", 2, .parameterized powerLayout (powerOf library)⟩

theorem mem_sigmoidEntry (library : Elementary) : sigmoidEntry library ∈ catalogue library :=
  mem_catalogue_iff.mpr (.inr (.inr (.inr List.mem_cons_self)))

theorem mem_powerEntry (library : Elementary) : powerEntry library ∈ catalogue library :=
  mem_catalogue_iff.mpr (.inr (.inr (.inr (List.mem_cons_of_mem _ List.mem_cons_self))))

/-- All windows of the catalogue are adjacent pairs. -/
theorem CatalogueEntry.window_of_windowed {library : Elementary} {entry : CatalogueEntry}
    (he : entry ∈ catalogue library) {w : Window} {f : List Number → Except Fault Value}
    (hm : entry.method = .windowed w f) : w = .pairs := by
  rcases mem_catalogue_iff.mp he with h | h | h | h
  · obtain ⟨g, hg⟩ := method_of_mem_elementwise h
    rw [hg] at hm
    cases hm
  · obtain ⟨g, hg⟩ := method_of_mem_windowed h
    rw [hg] at hm
    cases hm
    rfl
  · obtain ⟨g, hg⟩ := method_of_mem_aggregate h
    rw [hg] at hm
    cases hm
  · obtain ⟨layout, g, hg⟩ := method_of_mem_parameterized h
    rw [hg] at hm
    cases hm

/-! ## The names of entries -/

theorem qualify_inj {scope a b : String} (h : qualify scope a = qualify scope b) : a = b := by
  unfold qualify at h
  split at h
  · exact h
  · exact (String.append_right_inj _).mp h

/-- The names do not depend on the library. -/
theorem nodup_shortNames (library : Elementary) :
    ((catalogue library).map (·.shortName)).Nodup := by
  have h : (catalogue library).map (·.shortName) =
      (catalogue Elementary.native).map (·.shortName) := rfl
  rw [h]
  decide +kernel

/-- An entry is determined by its name. -/
theorem CatalogueEntry.eq_of_shortName_eq {library : Elementary} {a b : CatalogueEntry}
    (ha : a ∈ catalogue library) (hb : b ∈ catalogue library) (h : a.shortName = b.shortName) :
    a = b :=
  List.inj_on_of_nodup_map (nodup_shortNames library) ha hb h

/-! ## The actions of a registry -/

namespace Registry

theorem actions_of_registerEntry {scope : String} {registry registry' : Registry}
    {entry : CatalogueEntry} (h : registerEntry scope registry entry = .ok registry') :
    ∃ action, entry.action? scope = .ok action ∧
      registry'.actions = registry.actions ++ [action] := by
  unfold registerEntry at h
  cases ha : entry.action? scope with
  | error errors =>
    rw [ha] at h
    cases h
  | ok action =>
    rw [ha] at h
    have h : (registry.register action).mapError Rejection.ofFault = .ok registry' := h
    refine ⟨action, rfl, actions_of_register ?_⟩
    cases hr : registry.register action with
    | error fault =>
      rw [hr] at h
      cases h
    | ok registered =>
      rw [hr] at h
      cases h
      rfl

theorem mem_actions_of_foldlM {scope : String} (entries : List CatalogueEntry)
    {start registry : Registry} (h : entries.foldlM (registerEntry scope) start = .ok registry)
    (action : Action) :
    action ∈ registry.actions ↔
      action ∈ start.actions ∨ ∃ entry ∈ entries, entry.action? scope = .ok action := by
  induction entries generalizing start with
  | nil =>
    cases h
    simp
  | cons entry entries ih =>
    rw [List.foldlM_cons] at h
    cases hs : registerEntry scope start entry with
    | error rejection =>
      rw [hs] at h
      cases h
    | ok next =>
      rw [hs] at h
      obtain ⟨added, ha, hactions⟩ := actions_of_registerEntry hs
      have hadded : (entry.action? scope = .ok action) ↔ action = added := by
        rw [ha, Except.ok.injEq, eq_comm]
      rw [ih h, hactions, List.mem_append, List.mem_singleton, or_assoc]
      simp only [List.mem_cons, exists_eq_or_imp, hadded]

theorem mem_actions_iff {scope : String} {entries : List CatalogueEntry} {registry : Registry}
    (h : ofEntries scope entries = .ok registry) (action : Action) :
    action ∈ registry.actions ↔ ∃ entry ∈ entries, entry.action? scope = .ok action := by
  rw [mem_actions_of_foldlM entries h]
  simp [empty]

/-- Every action of the catalogue's registry has the name, the least number of arguments
and the method of an entry. -/
theorem mem_catalogue {library : Elementary} {scope : String} {registry : Registry}
    (h : ofCatalogue library scope = .ok registry) {action : Action}
    (ha : action ∈ registry.actions) :
    ∃ entry ∈ catalogue library, action.name.text = qualify scope entry.shortName ∧
      action.minimalArguments = entry.minimalArguments ∧ action.method = entry.method := by
  obtain ⟨entry, he, hs⟩ := (mem_actions_iff h action).mp ha
  obtain ⟨hn, hm, -, hf⟩ := CatalogueEntry.action?_spec hs
  exact ⟨entry, he, hn, hm, hf⟩

/-! ## Lookup -/

theorem get?_of_mem {registry : Registry} {action : Action} (h : action ∈ registry.actions) :
    registry.get? action.name.text = some action := by
  have hsome : (registry.get? action.name.text).isSome := by
    rw [get?, List.find?_isSome]
    exact ⟨action, h, decide_eq_true rfl⟩
  obtain ⟨found, hfound⟩ := Option.isSome_iff_exists.mp hsome
  have hname : found.name.text = action.name.text := by simpa using List.find?_some hfound
  have heq : found = action :=
    List.inj_on_of_nodup_map registry.nodup (List.mem_of_find?_eq_some hfound) h hname
  rw [hfound, heq]

theorem get_of_mem {registry : Registry} {action : Action} (h : action ∈ registry.actions) :
    registry.get action.name.text = .ok action := by
  rw [get, get?_of_mem h]

theorem get_of_not_contains {registry : Registry} {name : String}
    (h : registry.contains name = false) :
    registry.get name = .error ⟨.unknownAction, some name⟩ := by
  have hnone : registry.get? name = none := by
    rw [← Option.not_isSome_iff_eq_none, get?_isSome, h]
    decide
  rw [get, hnone]

theorem exists_of_contains {registry : Registry} {name : String}
    (h : registry.contains name = true) : ∃ action ∈ registry.actions, action.name.text = name := by
  simpa [contains] using h

end Registry

end NumericActions
