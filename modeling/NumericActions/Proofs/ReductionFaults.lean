import NumericActions.Proofs.IntegerFaults
import NumericActions.Proofs.SumInRange
import NumericActions.Reduction.Basic

/-!
# Faults of the reductions

A reduction of fewer than `2 ^ 63` numbers fails outside its domain and nowhere else, with
one exception. The mean of logarithms is rounded twice, in the sum and in the quotient, and
may come out greater than the logarithm of the greatest number. Then the geometric mean is
an exponential out of range.

* `Elementary.Lawful`: what is relied on of a library.
* `Fault.Nameless`: the faults of sums, quotients and conversions.
* `ends_total`, `ends_average`, `ends_harmonicMean`, `ends_extreme`: the other reductions.
* `MeanOverflows`, `geometricMean_of_overflows`, `ends_geometricMean`: the exception.
-/

namespace NumericActions

open Fault (IsDomain isDomain_domain)

/-! ## Libraries -/

def greatest : Binary64 := .ofBits 0x7fefffffffffffff

/-- The logarithm of the greatest number, `709.782712893384`. -/
def greatestLogarithm : Binary64 := .ofBits 0x40862e42fefa39ef

/-- What a library promises of its exponential and its logarithm. -/
structure Elementary.Lawful (library : Elementary) : Prop where
  log_finite : ∀ m : Magnitude, m.units ≠ 0 → (library.log (.finite false m)).isFinite = true
  log_infinity : library.log (.infinity false) = .infinity false
  log_greatest : library.log greatest = greatestLogarithm
  exp_nan : ∀ x, (library.exp x).isNaN = true → x.isNaN = true
  /-- The exponential of a finite number is out of range just above the logarithm of the
  greatest number. -/
  exp_infinite : ∀ negative m, (library.exp (.finite negative m)).isInfinite =
    greatestLogarithm.lt (.finite negative m)

/-! ## Arithmetic -/

/-- A fault that belongs to no action. -/
def Fault.Nameless (fault : Fault) : Prop := fault.kind.namesAction = false

theorem Fault.Nameless.kind_ne {fault : Fault} (h : fault.Nameless) {kind : FaultKind}
    (hkind : kind.namesAction = true) : fault.kind ≠ kind := by
  rintro rfl
  exact Bool.false_ne_true (h.symm.trans hkind)

theorem nameless_ofInt (n : Int) : Ends (Strict.ofInt n) Fault.Nameless fun _ => True := by
  unfold Strict.ofInt
  dsimp only
  split
  · exact ends_error rfl
  · exact ends_ok trivial

theorem nameless_quotient (a b : Binary64) :
    Ends (Strict.quotient a b) Fault.Nameless fun _ => True := by
  unfold Strict.quotient
  split
  · exact ends_error rfl
  · exact ends_ok trivial

theorem nameless_image {infinite : Fault} (h : infinite.Nameless) (f : Binary64 → Binary64)
    (x : Binary64) : Ends (Strict.image infinite f x) Fault.Nameless fun _ => True := by
  unfold Strict.image
  dsimp only
  split
  · exact ends_error rfl
  · split
    · exact ends_error h
    · exact ends_ok trivial

theorem nameless_sum (addends : List Binary64) :
    Ends (sum addends) Fault.Nameless fun _ => True := by
  unfold sum
  split
  · exact ends_ok trivial
  · split
    · exact ends_ok trivial
    · exact ends_error rfl

theorem nameless_meanOf (sum : Binary64) (count : Nat) :
    Ends (meanOf sum count) Fault.Nameless fun _ => True := by
  apply ends_bind (nameless_ofInt _)
  intro n _
  exact nameless_quotient _ n

theorem nameless_meanLogarithm (library : Elementary) (values : List Number) :
    Ends (meanLogarithm library values) Fault.Nameless fun _ => True := by
  have hundefined : Fault.undefined.Nameless := rfl
  apply ends_bind (ends_mapM fun x _ => nameless_image hundefined library.log x)
  intro logarithms _
  apply ends_bind (nameless_sum _)
  intro total _
  exact nameless_meanOf total _

/-! ## Sums and means -/

theorem length_widened (values : List Number) : (widened values).length = values.length :=
  List.length_map _

theorem exists_sum_widened {values : List Number} (h : values.length < 2 ^ 63) :
    ∃ total, sum (widened values) = .ok total := by
  apply exists_sum
  rwa [length_widened]

theorem exists_sum_mapM {values : List Number} {f : Binary64 → Except Fault Binary64}
    (hf : ∀ value ∈ values, ∃ y, f value.toBinary64 = .ok y) (h : values.length < 2 ^ 63) :
    ∃ ys total, (widened values).mapM f = .ok ys ∧ sum ys = .ok total := by
  have hall : ∀ x ∈ widened values, ∃ y, f x = .ok y := by
    intro x hx
    obtain ⟨value, hvalue, rfl⟩ := List.mem_map.mp hx
    exact hf value hvalue
  obtain ⟨ys, hys, hlength, -⟩ := exists_mapM_ok hall
  have hlt : ys.length < 2 ^ 63 := by rwa [hlength, length_widened]
  obtain ⟨total, htotal⟩ := exists_sum hlt
  exact ⟨ys, total, hys, htotal⟩

theorem ends_total {values : List Number} (h : values.length < 2 ^ 63) :
    Ends (total values) IsDomain fun _ => True := by
  obtain ⟨sum, hsum⟩ := exists_sum_widened h
  unfold total
  rw [hsum]
  exact ends_ok trivial

/-- The quotient by the number of values is strict, but there is no fault in it. -/
theorem meanOf_eq (sum : Binary64) {count : Nat} (hpos : 0 < count) (hlt : count < 2 ^ 63) :
    meanOf sum count = .ok (sum / Binary64.ofInt count) := by
  have hof : Strict.ofInt (count : Int) = .ok (Binary64.ofInt count) :=
    Strict.ofInt_of_natAbs_le (by omega)
  unfold meanOf
  rw [bind_of_eq_ok hof]
  exact Strict.quotient_of_ne_zero sum (Binary64.eq_zero_ofInt (by omega))

theorem ends_average {values : List Number} (h : values.length < 2 ^ 63) :
    Ends (average values) IsDomain fun _ => True := by
  unfold average
  apply ends_bind (Check.ends_requireNonEmpty values)
  intro _ hne
  obtain ⟨sum, hsum⟩ := exists_sum_widened h
  rw [bind_of_eq_ok hsum, meanOf_eq sum (List.length_pos_iff.mpr hne) h]
  exact ends_ok trivial

/-- No widened value is zero, so all reciprocals exist. -/
theorem mapM_quotient_eq {values : List Number} (h : ∀ value ∈ values, value.isZero = false) :
    (widened values).mapM (Strict.quotient 1) =
      .ok (values.map fun value => 1 / value.toBinary64) := by
  unfold widened
  induction values with
  | nil => rfl
  | cons value values ih =>
    obtain ⟨hvalue, hvalues⟩ := List.forall_mem_cons.mp h
    have hquotient := Strict.quotient_of_ne_zero 1 (Number.eq_zero_toBinary64 hvalue)
    rw [List.map_cons, List.mapM_cons, bind_of_eq_ok hquotient, bind_of_eq_ok (ih hvalues)]
    rfl

theorem ends_harmonicMean {values : List Number} (h : values.length < 2 ^ 63) :
    Ends (harmonicMean values) IsDomain fun _ => True := by
  unfold harmonicMean
  apply ends_bind (Check.ends_requireNonEmpty values)
  intro _ hne
  apply ends_bind (ends_forM fun value _ => Check.ends_requireNonZero _ value)
  intro _ hnz
  have hlength : (values.map fun value => 1 / value.toBinary64).length < 2 ^ 63 := by
    rwa [List.length_map]
  obtain ⟨sum, hsum⟩ := exists_sum hlength
  rw [bind_of_eq_ok (mapM_quotient_eq hnz), bind_of_eq_ok hsum]
  split
  · exact ends_error (isDomain_domain _)
  · rename_i hz
    have hof : Strict.ofInt (values.length : Int) = .ok (Binary64.ofInt values.length) :=
      Strict.ofInt_of_natAbs_le (by omega)
    rw [bind_of_eq_ok hof, Strict.quotient_of_ne_zero _ (Bool.eq_false_iff.mpr hz)]
    exact ends_ok trivial

/-! ## Extremes -/

theorem ends_extreme (better : Number → Number → Bool) (values : List Number) :
    Ends (extreme better values) IsDomain fun _ => True := by
  cases values with
  | nil => exact ends_error (isDomain_domain _)
  | cons value values => exact ends_ok trivial

theorem ends_extremeIndex (better : Number → Number → Bool) (values : List Number) :
    Ends (extremeIndex better values) IsDomain fun _ => True := by
  cases values with
  | nil => exact ends_error (isDomain_domain _)
  | cons value values => exact ends_ok trivial

/-! ## The geometric mean -/

theorem Strict.image_log {library : Elementary} (hl : library.Lawful) {value : Number}
    (h : (Number.int 0).lt value) :
    Strict.image .undefined library.log value.toBinary64 =
      .ok (library.log value.toBinary64) := by
  unfold Strict.image
  rcases Number.toBinary64_of_pos h with hv | ⟨m, hv, hm⟩
  · rw [hv, hl.log_infinity]
    rfl
  · obtain ⟨negative, n, hlog⟩ := Binary64.exists_of_isFinite (hl.log_finite m hm)
    rw [hv, hlog]
    rfl

/-- The mean of the logarithms of positive numbers exists. -/
theorem exists_meanLogarithm {library : Elementary} (hl : library.Lawful) {values : List Number}
    (hne : values ≠ []) (hpos : ∀ value ∈ values, (Number.int 0).lt value = true)
    (hlt : values.length < 2 ^ 63) : ∃ mean, meanLogarithm library values = .ok mean := by
  have hlogs : ∀ value ∈ values,
      ∃ y, Strict.image .undefined library.log value.toBinary64 = .ok y := by
    intro value hvalue
    exact ⟨_, Strict.image_log hl (hpos value hvalue)⟩
  obtain ⟨logarithms, sum, hr, hsum⟩ := exists_sum_mapM hlogs hlt
  refine ⟨sum / Binary64.ofInt values.length, ?_⟩
  unfold meanLogarithm
  rw [bind_of_eq_ok hr, bind_of_eq_ok hsum]
  exact meanOf_eq sum (List.length_pos_iff.mpr hne) hlt

/-- Positive numbers whose mean logarithm comes out greater than the logarithm of the
greatest number, although it is finite. -/
structure MeanOverflows (library : Elementary) (values : List Number) : Prop where
  nonempty : values ≠ []
  positive : ∀ value ∈ values, (Number.int 0).lt value = true
  mean : ∃ negative m, meanLogarithm library values = .ok (.finite negative m) ∧
    greatestLogarithm.lt (.finite negative m) = true

theorem geometricMean_eq {library : Elementary} {values : List Number} (hne : values ≠ [])
    (hpos : ∀ value ∈ values, (Number.int 0).lt value = true) {mean : Binary64}
    (hmean : meanLogarithm library values = .ok mean) :
    geometricMean library values = Strict.image (.range .exponential) library.exp mean := by
  have hnonempty := Check.requireNonEmpty_of_ne_nil hne
  have hchecks : values.forM (Check.requirePositive "geometric mean value") = .ok () := by
    apply forM_eq_ok
    intro value hvalue
    unfold Check.requirePositive
    rw [if_pos (hpos value hvalue)]
  unfold geometricMean
  rw [bind_of_eq_ok hnonempty, bind_of_eq_ok hchecks, bind_of_eq_ok hmean]

theorem geometricMean_of_overflows {library : Elementary} (hl : library.Lawful)
    {values : List Number} (h : MeanOverflows library values) :
    geometricMean library values = .error (.range .exponential) := by
  obtain ⟨negative, m, hmean, hlt⟩ := h.mean
  have hinfinite := hl.exp_infinite negative m
  rw [hlt] at hinfinite
  rw [geometricMean_eq h.nonempty h.positive hmean]
  unfold Strict.image
  cases hexp : library.exp (.finite negative m) with
  | nan => rw [hexp] at hinfinite; cases hinfinite
  | infinity s => rfl
  | finite s n => rw [hexp] at hinfinite; cases hinfinite

theorem ends_geometricMean {library : Elementary} (hl : library.Lawful) {values : List Number}
    (hlt : values.length < 2 ^ 63) (h : ¬ MeanOverflows library values) :
    Ends (geometricMean library values) IsDomain fun _ => True := by
  unfold geometricMean
  apply ends_bind (Check.ends_requireNonEmpty values)
  intro _ hne
  apply ends_bind (ends_forM fun value _ => Check.ends_requirePositive _ value)
  intro _ hpos
  obtain ⟨mean, hmean⟩ := exists_meanLogarithm hl hne hpos hlt
  rw [bind_of_eq_ok hmean]
  have hnan : (library.exp mean).isNaN = true → mean.isNaN = true := hl.exp_nan mean
  unfold Strict.image
  cases mean with
  | nan =>
    cases library.exp .nan <;> exact ends_ok trivial
  | infinity negative =>
    cases hexp : library.exp (.infinity negative) with
    | nan => cases hnan (by rw [hexp]; rfl)
    | infinity s => exact ends_ok trivial
    | finite s n => exact ends_ok trivial
  | finite negative m =>
    cases hexp : library.exp (.finite negative m) with
    | nan => cases hnan (by rw [hexp]; rfl)
    | infinity s =>
      have hinfinite := hl.exp_infinite negative m
      rw [hexp] at hinfinite
      exact absurd ⟨hne, hpos, negative, m, hmean, hinfinite.symm⟩ h
    | finite s n => exact ends_ok trivial

/-! ## Copies of the greatest number -/

theorem meanLogarithm_copies {library : Elementary} (hl : library.Lawful) (count : Nat) :
    meanLogarithm library (List.replicate count (.float greatest)) =
      sum (List.replicate count greatestLogarithm) >>= (meanOf · count) := by
  have hpos : (Number.int 0).lt (.float greatest) = true := by decide +kernel
  have hlog := Strict.image_log hl hpos
  rw [Number.toBinary64_float, hl.log_greatest] at hlog
  have hlogs : ∀ n, (List.replicate n greatest).mapM (Strict.image .undefined library.log) =
      .ok (List.replicate n greatestLogarithm) := by
    intro n
    induction n with
    | zero => rfl
    | succ n ih =>
      rw [List.replicate_succ, List.mapM_cons, bind_of_eq_ok hlog, bind_of_eq_ok ih]
      rfl
  have hwidened : widened (List.replicate count (.float greatest)) =
      List.replicate count greatest := List.map_replicate
  unfold meanLogarithm
  rw [hwidened, bind_of_eq_ok (hlogs count), List.length_replicate]

/-- The sum of 47 equal logarithms is rounded up, and so is its quotient by 47. -/
theorem meanOverflows_copies {library : Elementary} (hl : library.Lawful) :
    MeanOverflows library (List.replicate 47 (.float greatest)) := by
  have hround : ((sumOnce (List.replicate 47 greatestLogarithm)).any fun total =>
      (total / Binary64.ofInt 47).isFinite && greatestLogarithm.lt (total / Binary64.ofInt 47)) =
        true := by
    decide +kernel
  obtain ⟨total, htotal, hmean⟩ := (Option.any_eq_true _ _).mp hround
  have hsum : sum (List.replicate 47 greatestLogarithm) = .ok total := by
    unfold sum
    rw [htotal]
  have heq : meanLogarithm library (List.replicate 47 (.float greatest)) =
      .ok (total / Binary64.ofInt 47) := by
    rw [meanLogarithm_copies hl, bind_of_eq_ok hsum]
    exact meanOf_eq total (by decide) (by decide)
  refine ⟨List.cons_ne_nil _ _, ?_, ?_⟩
  · intro value hvalue
    rw [List.eq_of_mem_replicate hvalue]
    decide +kernel
  · cases hm : total / Binary64.ofInt 47 with
    | nan => rw [hm] at hmean; cases hmean
    | infinity negative => rw [hm] at hmean; cases hmean
    | finite negative m =>
      rw [hm] at hmean heq
      rw [Bool.and_eq_true] at hmean
      exact ⟨negative, m, heq, hmean.2⟩

end NumericActions
