import NumericActions.Proofs.Scopes

/-!
# Runs of registrations

A registry keeps the first action of every name. A later action of the name is turned down and
changes nothing, so behind any sequence of registrations the registry is the list of the accepted
actions, and all that can be read from it comes from that list.

* `Registry.attempt_cases`: one registration, accepted or turned down.
* `Registry.actions_registerAll`: a run adds the actions that it accepts, in their order.
* `Registry.get?_registerAll`: behind a run a name has the action that it had before, or else the
  first one of the run.
* `Registry.KeepsFirst`, `Registry.registerAll_keepsFirst`: the outcomes of a run from the empty
  registry, and what can be read from the registry behind it.
-/

namespace NumericActions

namespace Registry

/-! ## Runs -/

/-- A registration with its outcome and the registry behind it, which is the one before it if the
action is turned down. -/
def attempt (registry : Registry) (action : Action) : Except Fault Unit × Registry :=
  match registry.register action with
  | .ok registry => (.ok (), registry)
  | .error fault => (.error fault, registry)

/-- The outcomes of a sequence of registrations and the registry behind it. -/
def registerAll (registry : Registry) : List Action → List (Except Fault Unit) × Registry
  | [] => ([], registry)
  | action :: rest =>
    let (outcome, registry) := registry.attempt action
    let (outcomes, registry) := registry.registerAll rest
    (outcome :: outcomes, registry)

/-- The actions whose registration has succeeded, in their order. -/
def accepted (calls : List Action) (outcomes : List (Except Fault Unit)) : List Action :=
  ((calls.zip outcomes).filter fun call => call.2.isOk).map Prod.fst

/-! ## One registration -/

/-- A registration is turned down with the name that is taken, or its action is the last one of
the registry behind it. -/
theorem attempt_cases (registry : Registry) (action : Action) :
    (registry.contains action.name.text = true ∧
      registry.attempt action =
        (.error (.misuse (.duplicateAction action.name.text)), registry)) ∨
    (registry.contains action.name.text = false ∧ ∃ next,
      registry.attempt action = (.ok (), next) ∧ next.actions = registry.actions ++ [action]) := by
  unfold attempt
  cases hcontains : registry.contains action.name.text with
  | true => exact .inl ⟨rfl, by rw [register_of_contains hcontains]⟩
  | false =>
    obtain ⟨next, hnext⟩ := register_of_not_contains hcontains
    exact .inr ⟨rfl, next, by rw [hnext], actions_of_register hnext⟩

theorem get?_of_actions_eq {registry next : Registry} {action : Action}
    (h : next.actions = registry.actions ++ [action]) (name : String) :
    next.get? name =
      (registry.get? name).or (if action.name.text = name then some action else none) := by
  rw [get?, h, List.find?_append, get?]
  by_cases hname : action.name.text = name <;> simp [hname]

/-! ## Sequences of registrations -/

theorem length_registerAll (registry : Registry) (calls : List Action) :
    (registry.registerAll calls).1.length = calls.length := by
  induction calls generalizing registry with
  | nil => rfl
  | cons action calls ih => exact congrArg Nat.succ (ih _)

theorem registerAll_append (registry : Registry) (before after : List Action) :
    registry.registerAll (before ++ after) =
      ((registry.registerAll before).1 ++ ((registry.registerAll before).2.registerAll after).1,
        ((registry.registerAll before).2.registerAll after).2) := by
  induction before generalizing registry with
  | nil => rfl
  | cons action before ih =>
    rw [List.cons_append, registerAll, registerAll]
    dsimp only
    rw [ih]
    rfl

/-- A run adds the actions that it accepts. -/
theorem actions_registerAll (registry : Registry) (calls : List Action) :
    (registry.registerAll calls).2.actions =
      registry.actions ++ accepted calls (registry.registerAll calls).1 := by
  induction calls generalizing registry with
  | nil => exact (List.append_nil _).symm
  | cons action calls ih =>
    rw [registerAll]
    dsimp only
    rw [ih]
    rcases registry.attempt_cases action with ⟨-, hattempt⟩ | ⟨-, next, hattempt, hactions⟩
    · rw [hattempt]
      rfl
    · rw [hattempt, hactions, List.append_assoc]
      rfl

/-- Behind a run the action of a name is the one that it had before, or else the first one of the
run. -/
theorem get?_registerAll (registry : Registry) (calls : List Action) (name : String) :
    (registry.registerAll calls).2.get? name =
      (registry.get? name).or (calls.find? fun action => action.name.text = name) := by
  induction calls generalizing registry with
  | nil => exact (Option.or_none).symm
  | cons action calls ih =>
    rw [registerAll]
    dsimp only
    rw [ih, List.find?_cons]
    rcases registry.attempt_cases action with ⟨htaken, hattempt⟩ | ⟨-, next, hattempt, hactions⟩
    · rw [hattempt]
      by_cases hname : action.name.text = name
      · -- the name has an action, so the run is not asked for one
        rw [← get?_isSome, hname] at htaken
        obtain ⟨found, hfound⟩ := Option.isSome_iff_exists.mp htaken
        rw [hfound, Option.some_or, Option.some_or]
      · rw [decide_eq_false hname]
    · rw [hattempt, get?_of_actions_eq hactions, Option.or_assoc]
      by_cases hname : action.name.text = name
      · rw [if_pos hname, decide_eq_true hname, Option.some_or]
      · rw [if_neg hname, decide_eq_false hname, Option.none_or]

/-! ## Views -/

theorem names_eq (registry : Registry) :
    registry.names = registry.manifest.map fun spec => spec.name.text := by
  rw [names, manifest, List.map_map]
  rfl

theorem names_perm (registry : Registry) :
    registry.names.Perm (registry.actions.map fun action => action.name.text) :=
  (sorted_perm _ registry.actions).map _

/-- The manifest has the specification of the action of every name, in the order of the names. -/
theorem forall₂_manifest (registry : Registry) :
    List.Forall₂ (fun name spec => ∃ action, registry.get name = .ok action ∧ spec = action.spec)
      registry.names registry.manifest := by
  unfold names manifest
  rw [List.forall₂_map_left_iff, List.forall₂_map_right_iff, List.forall₂_same]
  intro action ha
  exact ⟨action, get_of_mem ((sorted_perm _ registry.actions).mem_iff.mp ha), rfl⟩

/-! ## Runs from the empty registry -/

/-- What can be told of a run from the empty registry: its outcomes, and what is read from the
registry behind it. -/
structure KeepsFirst (calls : List Action) (outcomes : List (Except Fault Unit))
    (registry : Registry) : Prop where
  length : outcomes.length = calls.length
  /-- An action is turned down if an action of the same name has been accepted before it. The
  registry is then the same as before, with everything that is read from it. -/
  duplicate : ∀ before action after, calls = before ++ action :: after →
    (∃ other ∈ accepted before (outcomes.take before.length),
      other.name.text = action.name.text) →
    outcomes[before.length]? = some (.error (.misuse (.duplicateAction action.name.text))) ∧
      (empty.registerAll (before ++ [action])).2 = (empty.registerAll before).2
  /-- Every other action is accepted. -/
  fresh : ∀ before action after, calls = before ++ action :: after →
    (∀ other ∈ accepted before (outcomes.take before.length),
      other.name.text ≠ action.name.text) →
    outcomes[before.length]? = some (.ok ())
  /-- The action of a name is the first one of the run that has the name. -/
  get : ∀ name, registry.get name =
    match calls.find? fun action => action.name.text = name with
    | some action => .ok action
    | none => .error ⟨.unknownAction, some name⟩
  contains : ∀ name, registry.contains name = true ↔ ∃ action ∈ calls, action.name.text = name
  /-- The registry lists the accepted actions in their order, each of them once. -/
  actions : registry.actions = accepted calls outcomes
  nodup : (registry.actions.map fun action => action.name.text).Nodup
  size : registry.size = (accepted calls outcomes).length
  /-- The names of these actions, in ascending order, and their specifications in the same
  order. -/
  names : registry.names.Perm ((accepted calls outcomes).map fun action => action.name.text)
  ascending : registry.names.Pairwise (· < ·)
  manifest : List.Forall₂ (fun name spec => ∃ action, registry.get name = .ok action ∧
    spec = action.spec) registry.names registry.manifest

theorem contains_registerAll_iff {calls : List Action} {name : String} :
    (empty.registerAll calls).2.contains name = true ↔
      ∃ other ∈ accepted calls (empty.registerAll calls).1, other.name.text = name := by
  rw [contains, actions_registerAll]
  simp [empty]

/-- The outcomes of the calls in front of another one, and the outcome of that one. -/
theorem outcomes_registerAll (before after : List Action) (action : Action) :
    (empty.registerAll (before ++ action :: after)).1.take before.length =
        (empty.registerAll before).1 ∧
      (empty.registerAll (before ++ action :: after)).1[before.length]? =
        some ((empty.registerAll before).2.attempt action).1 := by
  rw [registerAll_append]
  dsimp only
  rw [← length_registerAll empty before, List.take_left, List.getElem?_append_right (Nat.le_refl _),
    Nat.sub_self]
  exact ⟨rfl, rfl⟩

/-- The first action of every name is kept, in every run from the empty registry. -/
theorem registerAll_keepsFirst (calls : List Action) :
    KeepsFirst calls (empty.registerAll calls).1 (empty.registerAll calls).2 := by
  have hget? : ∀ name, (empty.registerAll calls).2.get? name =
      calls.find? fun action => action.name.text = name := by
    intro name
    rw [get?_registerAll]
    exact Option.none_or
  have hactions := actions_registerAll empty calls
  rw [show empty.actions = [] from rfl, List.nil_append] at hactions
  constructor
  case length => exact length_registerAll empty calls
  case duplicate =>
    rintro before action after rfl htaken
    obtain ⟨htake, hat⟩ := outcomes_registerAll before after action
    rw [htake, ← contains_registerAll_iff] at htaken
    rcases (empty.registerAll before).2.attempt_cases action with ⟨-, hattempt⟩ | ⟨hfree, -⟩
    · rw [hat, hattempt, registerAll_append, registerAll, hattempt]
      exact ⟨rfl, rfl⟩
    · exact absurd htaken (Bool.eq_false_iff.mp hfree)
  case fresh =>
    rintro before action after rfl hfree
    obtain ⟨htake, hat⟩ := outcomes_registerAll before after action
    rw [htake] at hfree
    rcases (empty.registerAll before).2.attempt_cases action with
      ⟨htaken, -⟩ | ⟨-, next, hattempt, -⟩
    · obtain ⟨other, hother, hname⟩ := contains_registerAll_iff.mp htaken
      exact absurd hname (hfree other hother)
    · rw [hat, hattempt]
  case get =>
    intro name
    rw [← hget? name]
    rfl
  case contains =>
    intro name
    rw [← get?_isSome, hget?, List.find?_isSome]
    simp
  case actions => exact hactions
  case nodup => exact (empty.registerAll calls).2.nodup
  case size => rw [Registry.size, hactions]
  case names =>
    rw [← hactions]
    exact names_perm _
  case ascending =>
    rw [names_eq]
    exact pairwise_names _
  case manifest => exact forall₂_manifest _

end Registry

end NumericActions
