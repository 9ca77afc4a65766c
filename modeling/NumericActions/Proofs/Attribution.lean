import NumericActions.Attribution.Catalogue
import NumericActions.Proofs.ReductionFaults

/-!
# Names do not influence values

A computation that runs for an action does what the same computation does without a name, and
its reports are the faults of that computation, each with the name in front if it belongs to an
action. This holds of every check, and it is handed on from the parts of a computation to the
whole. So it holds of all functions of integers and of all reductions.

* `Fault.raised`: the report of a fault under a name.
* `Attributes`: a computation for an action and the same without a name.
* `attributes_bind`, `attributes_mapM`, `attributes_unnamed`: from the parts to the whole.
* `attributes_stirling`, `attributes_harmonicMean` and others: the functions.
-/

namespace NumericActions

/-! ## Reports of faults -/

def Fault.raised (action : Option String) (fault : Fault) : Report :=
  if fault.kind.namesAction then .named action fault.kind fault.text else .unnamed fault

theorem Failure.report_eq (fault : Fault) (action : Option String) :
    (Failure.mk fault action).report = fault.raised action := by
  unfold Failure.report Failure.message Fault.raised Report.named Report.worded Report.unnamed
  cases fault.kind.namesAction with
  | false => cases action <;> rfl
  | true =>
    cases action with
    | none => rfl
    | some name => cases h : name.isEmpty <;> simp [h]

theorem Fault.Nameless.raised {fault : Fault} (h : fault.Nameless) (action : Option String) :
    fault.raised action = .unnamed fault :=
  if_neg (Bool.eq_false_iff.mp h)

/-! ## Computations with and without a name -/

/-- The first computation is the second one with its faults reported under a name. -/
def Attributes {α : Type} (action : Option String) (x : Except Report α) (y : Except Fault α) :
    Prop :=
  x = y.mapError (Fault.raised action)

section Parts

variable {α β : Type} {action : Option String}

theorem attributes_ok (a : α) : Attributes action (.ok a) (.ok a) := rfl

theorem attributes_pure (a : α) : Attributes action (pure a) (pure a) := rfl

theorem attributes_raise {fault : Fault} (h : fault.kind.namesAction = true) :
    Attributes action (Attributed.raise action fault : Except Report α) (.error fault) := by
  show Except.error _ = Except.error (fault.raised action)
  rw [Fault.raised, if_pos h]

theorem attributes_unnamed {y : Except Fault α} (h : Ends y Fault.Nameless fun _ => True) :
    Attributes action (Attributed.unnamed y) y := by
  cases y with
  | ok a => rfl
  | error fault => exact congrArg Except.error ((h.error fault rfl).raised action).symm

theorem attributes_bind {x : Except Report α} {y : Except Fault α} {f : α → Except Report β}
    {g : α → Except Fault β} (h : Attributes action x y) (hf : ∀ a, Attributes action (f a) (g a)) :
    Attributes action (x >>= f) (y >>= g) := by
  rw [Attributes] at h
  subst h
  cases y with
  | ok a => exact hf a
  | error fault => rfl

theorem attributes_bind_pure {x : Except Report α} {y : Except Fault α}
    (h : Attributes action x y) (f : α → β) :
    Attributes action (x >>= fun a => pure (f a)) (y >>= fun a => pure (f a)) :=
  attributes_bind h fun a => attributes_pure (f a)

theorem attributes_mapM {f : α → Except Report β} {g : α → Except Fault β} (xs : List α)
    (h : ∀ x, Attributes action (f x) (g x)) : Attributes action (xs.mapM f) (xs.mapM g) := by
  induction xs with
  | nil => exact attributes_pure []
  | cons x xs ih =>
    rw [List.mapM_cons, List.mapM_cons]
    apply attributes_bind (h x)
    intro y
    exact attributes_bind_pure ih (y :: ·)

theorem attributes_forM {f : α → Except Report PUnit} {g : α → Except Fault PUnit} (xs : List α)
    (h : ∀ x, Attributes action (f x) (g x)) : Attributes action (xs.forM f) (xs.forM g) := by
  induction xs with
  | nil => exact attributes_pure _
  | cons x xs ih => exact attributes_bind (h x) fun _ => ih

theorem attributes_ite {p : Prop} [Decidable p] {x x' : Except Report α} {y y' : Except Fault α}
    (h : Attributes action x y) (h' : Attributes action x' y') :
    Attributes action (if p then x else x') (if p then y else y') := by
  split
  · exact h
  · exact h'

end Parts

/-! ## Checks -/

section Checks

variable (action : Option String)

theorem attributes_requireInt64 (name : String) (n : Number) :
    Attributes action (Attributed.requireInt64 action name n) (Check.requireInt64 name n) :=
  attributes_ite (attributes_raise rfl) (attributes_ok ())

theorem attributes_fitsInt64 (quantity : Quantity) (n : Number) :
    Attributes action (Attributed.fitsInt64 action quantity n) (Check.fitsInt64 quantity n) :=
  attributes_ite (attributes_raise rfl) (attributes_ok ())

theorem attributes_requireNonNegative (name : String) (n : Number) :
    Attributes action (Attributed.requireNonNegative action name n)
      (Check.requireNonNegative name n) :=
  attributes_ite (attributes_raise rfl) (attributes_ok ())

theorem attributes_requirePositive (name : String) (n : Number) :
    Attributes action (Attributed.requirePositive action name n) (Check.requirePositive name n) :=
  attributes_ite (attributes_ok ()) (attributes_raise rfl)

theorem attributes_requireNonZero (name : String) (n : Number) :
    Attributes action (Attributed.requireNonZero action name n) (Check.requireNonZero name n) :=
  attributes_ite (attributes_raise rfl) (attributes_ok ())

theorem attributes_requireNonEmpty {β : Type} (values : List β) :
    Attributes action (Attributed.requireNonEmpty action values) (Check.requireNonEmpty values) :=
  attributes_ite (attributes_raise rfl) (attributes_ok ())

theorem attributes_toInt64 (n : Number) :
    Attributes action (Attributed.toInt64 action n) n.toInt64 := by
  have hnarrow : ∀ i, Attributes action (Attributed.toInt64.narrow action n i)
      (Number.toInt64.narrow n i) := fun i =>
    attributes_ite (attributes_raise rfl) (attributes_ok i)
  cases n with
  | int i => exact hnarrow i
  | float x =>
    cases x with
    | finite negative m => exact hnarrow _
    | infinity negative => exact attributes_raise rfl
    | nan => exact attributes_raise rfl

/-! ## Combinatorics -/

theorem attributes_factorial (n : Int) :
    Attributes action (Attributed.factorial action n) (factorial n) := by
  apply attributes_bind (attributes_requireNonNegative action "n" _)
  intro _
  exact attributes_ite (attributes_raise rfl) (attributes_ok _)

theorem attributes_requireIndices (n k : Int) :
    Attributes action (Attributed.requireIndices action n k) (requireIndices n k) := by
  apply attributes_bind (attributes_requireInt64 action "n" _)
  intro _
  apply attributes_bind (attributes_requireInt64 action "k" _)
  intro _
  apply attributes_bind (attributes_requireNonNegative action "n" _)
  intro _
  exact attributes_requireNonNegative action "k" _

theorem attributes_binomialSteps (quantity : Quantity) (n steps done result : Nat) :
    Attributes action (Attributed.binomialSteps action quantity n steps done result)
      (binomialSteps quantity n steps done result) := by
  induction steps generalizing done result with
  | zero => exact attributes_ok result
  | succ steps ih =>
    apply attributes_bind (attributes_fitsInt64 action quantity _)
    intro _
    exact ih _ _

theorem attributes_binomial (n k : Int) :
    Attributes action (Attributed.binomial action n k) (binomial n k) := by
  apply attributes_bind (attributes_requireIndices action n k)
  intro _
  apply attributes_ite (attributes_ok 0)
  exact attributes_bind_pure (attributes_binomialSteps action _ _ _ _ _) _

theorem attributes_nextBand (quantity : Quantity) (n k i : Nat) (band : Band) :
    Attributes action (Attributed.nextBand action quantity n k i band)
      (band.next quantity n k i) := by
  apply attributes_bind_pure (attributes_mapM _ ?_)
  intro j
  exact attributes_bind_pure (attributes_fitsInt64 action quantity _) _

theorem attributes_bandRows (quantity : Quantity) (n k steps i : Nat) (band : Band) :
    Attributes action (Attributed.bandRows action quantity n k steps i band)
      (Band.rows quantity n k steps i band) := by
  induction steps generalizing i band with
  | zero => exact attributes_ok band
  | succ steps ih =>
    apply attributes_bind (attributes_nextBand action quantity n k i band)
    intro next
    exact ih _ next

theorem nameless_get (band : Band) (j : Nat) :
    Ends (band.get j) Fault.Nameless fun _ => True := by
  unfold Band.get
  split
  · split
    · exact ends_ok trivial
    · exact ends_error rfl
  · exact ends_error rfl

/-- The binomial coefficient next to the diagonal is computed for the same action. -/
theorem attributes_stirling (n k : Int) :
    Attributes action (Attributed.stirling action n k) (stirling n k) := by
  apply attributes_bind (attributes_requireIndices action n k)
  intro _
  apply attributes_ite (attributes_ok 0)
  apply attributes_ite (attributes_ok _)
  apply attributes_ite (attributes_ok 1)
  apply attributes_ite (attributes_binomial action n 2)
  apply attributes_bind (attributes_bandRows action _ _ _ _ _ _)
  intro band
  exact attributes_bind_pure (attributes_unnamed (nameless_get band _)) _

/-! ## Primes -/

theorem attributes_isPrime (n : Int) :
    Attributes action (Attributed.isPrime action n) (isPrime n) :=
  attributes_bind_pure (attributes_requireInt64 action "n" _) _

theorem attributes_nextPrime (n : Int) :
    Attributes action (Attributed.nextPrime action n) (nextPrime n) := by
  apply attributes_bind (attributes_requireInt64 action "n" _)
  intro _
  apply attributes_bind (attributes_requireNonNegative action "n" _)
  intro _
  apply attributes_ite (attributes_ok 2)
  cases searchPrime (if n.toNat % 2 = 1 then n.toNat else n.toNat + 1) with
  | some p => exact attributes_ok _
  | none => exact attributes_raise rfl

theorem attributes_primeFactors (n : Int) :
    Attributes action (Attributed.primeFactors action n) (primeFactors n) := by
  apply attributes_bind (attributes_requireInt64 action "n" _)
  intro _
  exact attributes_bind_pure (attributes_requireNonNegative action "n" _) _

end Checks

/-! ## Arithmetic without a name -/

theorem nameless_roundHalfUp (x : Binary64) :
    Ends (roundHalfUp x) Fault.Nameless fun _ => True := by
  cases x with
  | finite negative m => exact ends_bind_pure (nameless_ofInt _) _
  | infinity negative => exact ends_ok trivial
  | nan => exact ends_ok trivial

theorem nameless_sigmoidOf (library : Elementary) (values : List Binary64) :
    Ends (sigmoidOf library values) Fault.Nameless fun _ => True := by
  unfold sigmoidOf
  split
  · exact ends_ok trivial
  · exact ends_error rfl

theorem nameless_powerOf (library : Elementary) (values : List Binary64) :
    Ends (powerOf library values) Fault.Nameless fun _ => True := by
  unfold powerOf
  split
  · exact ends_ok trivial
  · exact ends_error rfl

/-! ## Reductions -/

section Reductions

variable (action : Option String)

theorem attributes_average (values : List Number) :
    Attributes action (Attributed.average action values) (average values) := by
  apply attributes_bind (attributes_requireNonEmpty action values)
  intro _
  apply attributes_unnamed
  apply ends_bind (nameless_sum _)
  intro total _
  exact nameless_meanOf total _

theorem attributes_harmonicMean (values : List Number) :
    Attributes action (Attributed.harmonicMean action values) (harmonicMean values) := by
  apply attributes_bind (attributes_requireNonEmpty action values)
  intro _
  apply attributes_bind (attributes_forM values fun x => attributes_requireNonZero action _ x)
  intro _
  apply attributes_bind
    (attributes_mapM _ fun x => attributes_unnamed (nameless_quotient 1 x))
  intro reciprocals
  apply attributes_bind (attributes_unnamed (nameless_sum reciprocals))
  intro reciprocal
  apply attributes_ite (attributes_raise rfl)
  apply attributes_unnamed
  apply ends_bind (nameless_ofInt _)
  intro count _
  exact nameless_quotient count reciprocal

theorem attributes_geometricMean (library : Elementary) (values : List Number) :
    Attributes action (Attributed.geometricMean action library values)
      (geometricMean library values) := by
  apply attributes_bind (attributes_requireNonEmpty action values)
  intro _
  apply attributes_bind (attributes_forM values fun x => attributes_requirePositive action _ x)
  intro _
  apply attributes_unnamed
  apply ends_bind (nameless_meanLogarithm library values)
  intro mean _
  have hrange : (Fault.range .exponential).Nameless := rfl
  exact nameless_image hrange library.exp mean

theorem attributes_extreme (better : Number → Number → Bool) (values : List Number) :
    Attributes action (Attributed.extreme action better values) (extreme better values) := by
  cases values with
  | nil => exact attributes_raise rfl
  | cons value rest => exact attributes_ok _

theorem attributes_extremeIndex (better : Number → Number → Bool) (values : List Number) :
    Attributes action (Attributed.extremeIndex action better values)
      (extremeIndex better values) := by
  cases values with
  | nil => exact attributes_raise rfl
  | cons value rest => exact attributes_ok _

end Reductions

end NumericActions
