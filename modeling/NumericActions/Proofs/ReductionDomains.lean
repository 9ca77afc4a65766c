import NumericActions.Action.Catalogue
import NumericActions.Proofs.ReductionFaults

/-!
# Domains of the reductions

Which numbers are outside the domain of a reduction can be said without its checks: the empty
list, a list with a zero or with a number that is not positive, and numbers whose reciprocals add
up to zero. A reduction refuses exactly these, naming the first number that is at fault, and
otherwise fails in arithmetic, if at all.

* `OutsideDomain`: the numbers outside a domain, with the cause.
* `RefusesOutside`: the reductions that refuse exactly these.
* `refusesOutside_harmonicMean`, `refusesOutside_geometricMean`: the two means with a domain.
* `exists_refusesOutside`: the entries of the catalogue.
-/

namespace NumericActions

/-! ## Zero -/

/-- The integer zero or the zero of either sign. -/
def Number.EqualsZero (n : Number) : Prop :=
  n = .int 0 ∨ ∃ negative, n = .float (.zero negative)

theorem Binary64.eq_zero_iff {x : Binary64} :
    x.eq (zero false) = true ↔ ∃ negative, x = zero negative := by
  cases x with
  | nan => exact ⟨nofun, nofun⟩
  | infinity negative =>
    rw [eq_zero_infinity]
    exact ⟨nofun, nofun⟩
  | finite negative m =>
    rw [eq_zero_finite, decide_eq_true_iff]
    constructor
    · intro h
      obtain ⟨units, onGrid, inRange⟩ := m
      obtain rfl : units = 0 := h
      exact ⟨negative, rfl⟩
    · rintro ⟨negative', h⟩
      cases h
      rfl

theorem Number.isZero_iff {n : Number} : n.isZero = true ↔ n.EqualsZero := by
  cases n with
  | int i => simp [isZero, EqualsZero]
  | float x => simp [isZero, EqualsZero, Binary64.eq_zero_iff]

theorem Number.isZero_eq_false_iff {n : Number} : n.isZero = false ↔ ¬ n.EqualsZero := by
  rw [← isZero_iff, Bool.not_eq_true]

/-! ## Domains -/

/-- The numbers outside the domain of a reduction with a given name, and the cause that is
reported for them. -/
inductive OutsideDomain (name : String) : List Number → DomainFault → Prop where
  /-- only a sum can be without addends -/
  | empty (hname : name ≠ "sum") : OutsideDomain name [] .empty
  /-- the first zero -/
  | zero {before after : List Number} {v : Number} (hname : name = "harmonicmean")
      (hbefore : ∀ w ∈ before, ¬ w.EqualsZero) (hv : v.EqualsZero) :
      OutsideDomain name (before ++ v :: after) (.zero "harmonic mean value" v)
  /-- no zero, but rounded reciprocals whose sum is one -/
  | vanishing {values : List Number} {negative : Bool} (hname : name = "harmonicmean")
      (hne : values ≠ []) (hvalues : ∀ w ∈ values, ¬ w.EqualsZero)
      (hsum : sum (values.map fun w => 1 / w.toBinary64) = .ok (.zero negative)) :
      OutsideDomain name values .vanishingReciprocals
  /-- the first number that is not above zero, such as not-a-number -/
  | notPositive {before after : List Number} {v : Number} (hname : name = "geometricmean")
      (hbefore : ∀ w ∈ before, (Number.int 0).lt w = true) (hv : (Number.int 0).lt v = false) :
      OutsideDomain name (before ++ v :: after) (.notPositive "geometric mean value" v)

/-- A fault that a reduction may have on some numbers: one of arithmetic, or one of its domain if
they are outside of it. -/
def Fault.OfReduction (name : String) (values : List Number) (fault : Fault) : Prop :=
  fault.Nameless ∨ ∃ cause, fault = .domain cause ∧ OutsideDomain name values cause

/-- A reduction that refuses the numbers outside the domain, and no others. -/
structure RefusesOutside {α : Type} (name : String) (f : List Number → Except Fault α) :
    Prop where
  refuses : ∀ {values cause}, OutsideDomain name values cause → f values = .error (.domain cause)
  ends : ∀ values, Ends (f values) (Fault.OfReduction name values) fun _ => True

theorem ends_ofReduction_of_nameless {α : Type} {P : α → Prop} {name : String}
    {values : List Number} {x : Except Fault α} (h : Ends x Fault.Nameless P) :
    Ends x (Fault.OfReduction name values) P :=
  ends_weaken h fun _ => .inl

theorem ends_requireNonEmpty_ofReduction {name : String} (hname : name ≠ "sum")
    (values : List Number) :
    Ends (Check.requireNonEmpty values) (Fault.OfReduction name values) fun _ => values ≠ [] := by
  cases values with
  | nil => exact ends_error (.inr ⟨.empty, rfl, .empty hname⟩)
  | cons value values => exact ends_ok (List.cons_ne_nil value values)

theorem RefusesOutside.bind_pure {α β : Type} {name : String} {f : List Number → Except Fault α}
    (h : RefusesOutside name f) (g : α → β) :
    RefusesOutside name fun values => f values >>= fun a => pure (g a) where
  refuses houtside := by
    rw [h.refuses houtside]
    rfl
  ends values := ends_bind_pure (h.ends values) g

/-! ## Sums and extremes -/

theorem refusesOutside_total : RefusesOutside "sum" total where
  refuses houtside := by
    cases houtside with
    | empty hname => exact absurd rfl hname
    | zero hname => exact absurd hname (by decide)
    | vanishing hname => exact absurd hname (by decide)
    | notPositive hname => exact absurd hname (by decide)
  ends values := ends_ofReduction_of_nameless (nameless_sum _)

/-- A reduction without other checks refuses the empty list. -/
theorem refusesOutside_of_nonempty {α : Type} {name : String}
    (hname : name ≠ "sum" ∧ name ≠ "harmonicmean" ∧ name ≠ "geometricmean")
    {f : List Number → Except Fault α} (hnil : f [] = .error (.domain .empty))
    (hf : ∀ {values}, values ≠ [] → Ends (f values) Fault.Nameless fun _ => True) :
    RefusesOutside name f where
  refuses houtside := by
    cases houtside with
    | empty => exact hnil
    | zero h => exact absurd h hname.2.1
    | vanishing h => exact absurd h hname.2.1
    | notPositive h => exact absurd h hname.2.2
  ends values := by
    by_cases hne : values = []
    · rw [hne, hnil]
      exact ends_error (.inr ⟨.empty, rfl, .empty hname.1⟩)
    · exact ends_ofReduction_of_nameless (hf hne)

theorem refusesOutside_average : RefusesOutside "average" average := by
  refine refusesOutside_of_nonempty (by decide) rfl fun {values} hne => ?_
  unfold average
  rw [bind_of_eq_ok (Check.requireNonEmpty_of_ne_nil hne)]
  apply ends_bind (nameless_sum _)
  intro sum _
  exact nameless_meanOf sum _

theorem refusesOutside_extreme {name : String}
    (hname : name ≠ "sum" ∧ name ≠ "harmonicmean" ∧ name ≠ "geometricmean")
    (better : Number → Number → Bool) : RefusesOutside name (extreme better) := by
  refine refusesOutside_of_nonempty hname rfl fun {values} hne => ?_
  cases values with
  | nil => exact absurd rfl hne
  | cons value values => exact ends_ok trivial

theorem refusesOutside_extremeIndex {name : String}
    (hname : name ≠ "sum" ∧ name ≠ "harmonicmean" ∧ name ≠ "geometricmean")
    (better : Number → Number → Bool) : RefusesOutside name (extremeIndex better) := by
  refine refusesOutside_of_nonempty hname rfl fun {values} hne => ?_
  cases values with
  | nil => exact absurd rfl hne
  | cons value values => exact ends_ok trivial

/-! ## The harmonic mean -/

namespace Check

theorem requireNonZero_of_not_equalsZero {w : Number} (h : ¬ w.EqualsZero) (name : String) :
    requireNonZero name w = .ok () := by
  rw [requireNonZero, Number.isZero_eq_false_iff.mpr h]
  rfl

theorem requireNonZero_of_equalsZero {w : Number} (h : w.EqualsZero) (name : String) :
    requireNonZero name w = .error (.domain (.zero name w)) := by
  rw [requireNonZero, if_pos (Number.isZero_iff.mpr h)]

end Check

theorem harmonicMean_of_zero {before after : List Number} {v : Number}
    (hbefore : ∀ w ∈ before, ¬ w.EqualsZero) (hv : v.EqualsZero) :
    harmonicMean (before ++ v :: after) = .error (.domain (.zero "harmonic mean value" v)) := by
  have hne : before ++ v :: after ≠ [] := by simp
  have hchecks : (before ++ v :: after).forM (Check.requireNonZero "harmonic mean value") =
      .error (.domain (.zero "harmonic mean value" v)) :=
    forM_of_first_error (fun w hw => Check.requireNonZero_of_not_equalsZero (hbefore w hw) _)
      (Check.requireNonZero_of_equalsZero hv _)
  unfold harmonicMean
  rw [bind_of_eq_ok (Check.requireNonEmpty_of_ne_nil hne), hchecks]
  rfl

/-- Without a zero the sum of the reciprocals decides. -/
theorem harmonicMean_eq {values : List Number} (hne : values ≠ [])
    (hvalues : ∀ w ∈ values, ¬ w.EqualsZero) :
    harmonicMean values = sum (values.map fun w => 1 / w.toBinary64) >>= fun reciprocal =>
      if reciprocal.eq (Binary64.zero false) then .error (.domain .vanishingReciprocals)
      else Strict.ofInt values.length >>= fun count => Strict.quotient count reciprocal := by
  have hchecks : values.forM (Check.requireNonZero "harmonic mean value") = .ok () :=
    forM_eq_ok fun w hw => Check.requireNonZero_of_not_equalsZero (hvalues w hw) _
  have hreciprocals := mapM_quotient_eq fun w hw => Number.isZero_eq_false_iff.mpr (hvalues w hw)
  unfold harmonicMean
  rw [bind_of_eq_ok (Check.requireNonEmpty_of_ne_nil hne), bind_of_eq_ok hchecks,
    bind_of_eq_ok hreciprocals]

theorem refusesOutside_harmonicMean : RefusesOutside "harmonicmean" harmonicMean where
  refuses houtside := by
    cases houtside with
    | empty => rfl
    | zero _ hbefore hv => exact harmonicMean_of_zero hbefore hv
    | vanishing _ hne hvalues hsum =>
      rw [harmonicMean_eq hne hvalues, bind_of_eq_ok hsum, if_pos (Binary64.eq_zero_iff.mpr ⟨_, rfl⟩)]
    | notPositive hname => exact absurd hname (by decide)
  ends values := by
    unfold harmonicMean
    apply ends_bind (ends_requireNonEmpty_ofReduction (by decide) values)
    intro _ hne
    have hchecks := ends_forM_first fun w (_ : w ∈ values) =>
      Check.ends_requireNonZero_cause "harmonic mean value" w
    refine ends_bind (ends_weaken hchecks ?_) ?_
    · rintro _ ⟨before, v, after, rfl, hbefore, hv, rfl⟩
      exact .inr ⟨_, rfl, .zero rfl (fun w hw => Number.isZero_eq_false_iff.mp (hbefore w hw))
        (Number.isZero_iff.mp hv)⟩
    intro _ hvalues
    rw [bind_of_eq_ok (mapM_quotient_eq hvalues)]
    cases hsum : sum (values.map fun w => 1 / w.toBinary64) with
    | error fault => exact ends_error (.inl ((nameless_sum _).error fault hsum))
    | ok reciprocal =>
      rw [bind_of_eq_ok rfl]
      split
      · rename_i hzero
        obtain ⟨negative, rfl⟩ := Binary64.eq_zero_iff.mp hzero
        exact ends_error (.inr ⟨_, rfl, .vanishing rfl hne
          (fun w hw => Number.isZero_eq_false_iff.mp (hvalues w hw)) hsum⟩)
      · apply ends_ofReduction_of_nameless
        apply ends_bind (nameless_ofInt _)
        intro count _
        exact nameless_quotient count reciprocal

/-! ## The geometric mean -/

theorem geometricMean_of_not_positive (library : Elementary) {before after : List Number}
    {v : Number} (hbefore : ∀ w ∈ before, (Number.int 0).lt w = true)
    (hv : (Number.int 0).lt v = false) :
    geometricMean library (before ++ v :: after) =
      .error (.domain (.notPositive "geometric mean value" v)) := by
  have hne : before ++ v :: after ≠ [] := by simp
  have hchecks : (before ++ v :: after).forM (Check.requirePositive "geometric mean value") =
      .error (.domain (.notPositive "geometric mean value" v)) :=
    forM_of_first_error (fun w hw => if_pos (hbefore w hw)) (if_neg (Bool.eq_false_iff.mp hv))
  unfold geometricMean
  rw [bind_of_eq_ok (Check.requireNonEmpty_of_ne_nil hne), hchecks]
  rfl

theorem refusesOutside_geometricMean (library : Elementary) :
    RefusesOutside "geometricmean" (geometricMean library) where
  refuses houtside := by
    cases houtside with
    | empty => rfl
    | zero hname => exact absurd hname (by decide)
    | vanishing hname => exact absurd hname (by decide)
    | notPositive _ hbefore hv => exact geometricMean_of_not_positive library hbefore hv
  ends values := by
    unfold geometricMean
    apply ends_bind (ends_requireNonEmpty_ofReduction (by decide) values)
    intro _ _
    have hchecks := ends_forM_first fun w (_ : w ∈ values) =>
      Check.ends_requirePositive_cause "geometric mean value" w
    refine ends_bind (ends_weaken hchecks ?_) ?_
    · rintro _ ⟨before, v, after, rfl, hbefore, hv, rfl⟩
      exact .inr ⟨_, rfl, .notPositive rfl hbefore hv⟩
    intro _ _
    apply ends_ofReduction_of_nameless
    apply ends_bind (nameless_meanLogarithm library values)
    intro mean _
    have hrange : (Fault.range .exponential).Nameless := rfl
    exact nameless_image hrange library.exp mean

/-! ## The entries of the catalogue -/

/-- Each aggregate of the catalogue refuses the numbers outside the domain of its name. -/
theorem exists_refusesOutside {library : Elementary} {entry : CatalogueEntry}
    (h : entry ∈ aggregateEntries library) :
    ∃ f, entry.method = .aggregate f ∧ RefusesOutside entry.shortName f := by
  simp only [aggregateEntries, List.mem_cons, List.not_mem_nil, or_false] at h
  rcases h with rfl | rfl | rfl | rfl | rfl | rfl | rfl | rfl
  · exact ⟨_, rfl, refusesOutside_total.bind_pure _⟩
  · exact ⟨_, rfl, refusesOutside_average.bind_pure _⟩
  · exact ⟨_, rfl, (refusesOutside_extreme (by decide) _).bind_pure _⟩
  · exact ⟨_, rfl, (refusesOutside_extreme (by decide) _).bind_pure _⟩
  · exact ⟨_, rfl, refusesOutside_harmonicMean.bind_pure _⟩
  · exact ⟨_, rfl, (refusesOutside_geometricMean library).bind_pure _⟩
  · exact ⟨_, rfl, (refusesOutside_extremeIndex (by decide) _).bind_pure _⟩
  · exact ⟨_, rfl, (refusesOutside_extremeIndex (by decide) _).bind_pure _⟩

end NumericActions
