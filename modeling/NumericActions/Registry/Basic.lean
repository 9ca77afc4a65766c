import NumericActions.Action.Catalogue
import NumericActions.Contract.Validator

/-!
# Registries

A registry holds actions by their names, in the order in which they were registered. No
two actions of a registry have the same name.

* `Registry.register`: one more action, whose name must be new.
* `Registry.get?`, `Registry.get`: the action of a name.
* `Registry.names`, `Registry.manifest`: the names and the specifications in ascending
  order of the names.
* `Registry.ofEntries`: the registry of catalogue entries in a scope.
-/

namespace NumericActions

/-! ## Rejections -/

/-- Why a request to a registry is turned down. -/
inductive Rejection where
  | failure (failure : Failure)
  /-- values that do not specify an action -/
  | specification (errors : List FieldError)
  /-- a value that does not obey a contract -/
  | violation (violation : Violation)
  | unknownContract (name : String)

def Rejection.ofFault (fault : Fault) : Rejection := .failure ⟨fault, none⟩

/-! ## Registries -/

structure Registry where
  actions : List Action
  nodup : (actions.map fun action => action.name.text).Nodup

namespace Registry

def empty : Registry := ⟨[], .nil⟩

def size (registry : Registry) : Nat := registry.actions.length

def get? (registry : Registry) (name : String) : Option Action :=
  registry.actions.find? fun action => action.name.text = name

def contains (registry : Registry) (name : String) : Bool :=
  registry.actions.any fun action => action.name.text = name

/-- The action of a name. A name without one is a fault that is attributed to it. -/
def get (registry : Registry) (name : String) : Except Failure Action :=
  match registry.get? name with
  | some action => .ok action
  | none => .error ⟨.unknownAction, some name⟩

theorem not_mem_of_not_contains {registry : Registry} {name : String}
    (h : registry.contains name = false) :
    name ∉ registry.actions.map fun action => action.name.text := by
  intro hm
  obtain ⟨action, ha, rfl⟩ := List.mem_map.mp hm
  simp only [contains, List.any_eq_false, decide_eq_true_eq] at h
  exact h action ha rfl

def register (registry : Registry) (action : Action) : Except Fault Registry :=
  match h : registry.contains action.name.text with
  | true => .error (.misuse (.duplicateAction action.name.text))
  | false =>
    .ok ⟨registry.actions ++ [action], by
      rw [List.map_append, List.nodup_append]
      refine ⟨registry.nodup, by simp, ?_⟩
      intro a ha b hb
      rw [List.map_singleton, List.mem_singleton] at hb
      subst hb
      exact fun he => not_mem_of_not_contains h (he ▸ ha)⟩

theorem register_of_contains {registry : Registry} {action : Action}
    (h : registry.contains action.name.text = true) :
    registry.register action = .error (.misuse (.duplicateAction action.name.text)) := by
  unfold register
  split
  · rfl
  · rename_i h'
    rw [h] at h'
    cases h'

theorem actions_of_register {registry registry' : Registry} {action : Action}
    (h : registry.register action = .ok registry') :
    registry'.actions = registry.actions ++ [action] := by
  unfold register at h
  split at h
  · cases h
  · cases h
    rfl

theorem get?_isSome {registry : Registry} {name : String} :
    (registry.get? name).isSome = registry.contains name := by
  rw [Bool.eq_iff_iff]
  simp [get?, contains, List.find?_isSome]

/-! ## Views -/

def nameLe (a b : String) : Bool := !decide (b < a)

def ordered (registry : Registry) : List Action :=
  sorted (fun a b => nameLe a.name.text b.name.text) registry.actions

def names (registry : Registry) : List String :=
  registry.ordered.map fun action => action.name.text

def manifest (registry : Registry) : List ActionSpec := registry.ordered.map Action.spec

/-! ## Construction -/

def registerEntry (scope : String) (registry : Registry) (entry : CatalogueEntry) :
    Except Rejection Registry := do
  let action ← (entry.action? scope).mapError .specification
  (registry.register action).mapError .ofFault

def ofEntries (scope : String) (entries : List CatalogueEntry) : Except Rejection Registry :=
  entries.foldlM (registerEntry scope) empty

def ofCatalogue (library : Elementary) (scope : String) : Except Rejection Registry :=
  ofEntries scope (catalogue library)

end Registry

end NumericActions
