import NumericActions.Proofs.FirstProblem
import NumericActions.Proofs.IntegerFaults

/-!
# Faults of the ways of grouping

A way of grouping numbers adds faults to those of its function: that of a foreign leaf, and
that of a parameter which is no number. With a property of faults that holds of these, every
fault of the function that has it is a fault of the whole that has it.

* `ends_elementwise`, `ends_windowed_pairs`, `ends_aggregate`, `ends_parameterized`: the four
  ways of grouping.
* `ends_evaluate_of_mem_elementwise`, `ends_evaluate_of_mem_windowed`: the entries of the
  catalogue that take single numbers and pairs.
* `ends_ofReduction`, `ends_ofPosition`, `ends_evaluate_sigmoid`, `ends_evaluate_power`: the
  other methods of the catalogue.
-/

namespace NumericActions

open Fault (IsDomain)

/-! ## Ways of grouping -/

section Grouping

variable {α : Type} {Q : Fault → Prop} {terms : List Value}

theorem Feed.ends_mapM {β : Type} {f : α → Except Fault β} {feed : Feed α}
    (hf : ∀ a ∈ feed.items, Ends (f a) Q fun _ => True)
    (hfault : ∀ fault, feed.fault = some fault → Q fault) :
    Ends (feed.mapM f) Q fun _ => True := by
  unfold Feed.mapM
  apply ends_bind (NumericActions.ends_mapM hf)
  intro results _
  cases hend : feed.fault with
  | none => exact ends_ok trivial
  | some fault => exact ends_error (hfault fault hend)

theorem Feed.of_fault_ofTerms
    (hforeign : ∀ v, (Value.leavesOfAll terms).foreign = some v → Q (.invalidTerm v))
    (fault : Fault) (h : (Feed.ofTerms terms).fault = some fault) : Q fault := by
  obtain ⟨v, hv, rfl⟩ := Option.map_eq_some_iff.mp h
  exact hforeign v hv

theorem ends_elementwise {f : Number → Except Fault α}
    (hforeign : ∀ v, (Value.leavesOfAll terms).foreign = some v → Q (.invalidTerm v))
    (hf : ∀ x, Ends (f x) Q fun _ => True) : Ends (elementwise f terms) Q fun _ => True := by
  rw [elementwise_eq]
  apply Feed.ends_mapM
  · intro x _
    exact hf x
  · exact Feed.of_fault_ofTerms hforeign

theorem exists_of_mem_pairs {items pair : List α} (h : pair ∈ pairs items) :
    ∃ a b, pair = [a, b] := by
  induction items using pairs.induct with
  | case1 a b rest ih =>
    rcases List.mem_cons.mp h with rfl | h
    · exact ⟨a, b, rfl⟩
    · exact ih h
  | case2 a => cases h
  | case3 => cases h

theorem ends_windowed_pairs {f : List Number → Except Fault α}
    (hforeign : ∀ v, (Value.leavesOfAll terms).foreign = some v → Q (.invalidTerm v))
    (hf : ∀ a b, Ends (f [a, b]) Q fun _ => True) :
    Ends (windowed .pairs f terms) Q fun _ => True := by
  rw [windowed_eq, Feed.windowed_pairs]
  apply Feed.ends_mapM
  · intro pair hpair
    obtain ⟨a, b, rfl⟩ := exists_of_mem_pairs hpair
    exact hf a b
  · exact Feed.of_fault_ofTerms hforeign

/-- An aggregate function sees all numbers, and only if no leaf is foreign. -/
theorem aggregate_of_foreign {v : Value} (h : (Value.leavesOfAll terms).foreign = some v)
    (f : List Number → Except Fault α) : aggregate f terms = .error (.invalidTerm v) := by
  rw [aggregate_eq, Feed.toList, Feed.ofTerms, Feed.ofLeaves, h]
  rfl

theorem aggregate_of_terms (h : (Value.leavesOfAll terms).foreign = none)
    (f : List Number → Except Fault α) :
    aggregate f terms = f (Value.leavesOfAll terms).numbers := by
  rw [aggregate_eq, Feed.toList, Feed.ofTerms, Feed.ofLeaves, h]
  rfl

theorem ends_aggregate {f : List Number → Except Fault α}
    (hforeign : ∀ v, (Value.leavesOfAll terms).foreign = some v → Q (.invalidTerm v))
    (hf : (Value.leavesOfAll terms).foreign = none →
      Ends (f (Value.leavesOfAll terms).numbers) Q fun _ => True) :
    Ends (aggregate f terms) Q fun _ => True := by
  cases hleaf : (Value.leavesOfAll terms).foreign with
  | none =>
    rw [aggregate_of_terms hleaf]
    exact hf hleaf
  | some v =>
    rw [aggregate_of_foreign hleaf]
    exact ends_error (hforeign v hleaf)

theorem ends_numbersFrom (index : Nat)
    (hparameter : ∀ i, ∀ v ∈ terms, v.number? = none → Q (.invalidParameter i v)) :
    Ends (numbersFrom index terms) Q fun numbers => numbers.length = terms.length := by
  induction terms generalizing index with
  | nil => exact ends_ok rfl
  | cons v vs ih =>
    unfold numbersFrom
    cases hv : v.number? with
    | none => exact ends_error (hparameter index v List.mem_cons_self hv)
    | some n =>
      apply ends_bind (ih (index + 1) fun i w hw => hparameter i w (List.mem_cons_of_mem v hw))
      intro numbers h
      exact ends_pure (by rw [List.length_cons, h]; rfl)

theorem leading_natCast (count : Nat) (terms : List Value) :
    leading count terms = terms.take count := by
  unfold leading
  rw [if_neg (by omega), Int.toNat_natCast]

/-- With enough arguments there are as many parameters as the layout states. -/
theorem ends_splitParameters {count : Nat} (h : count ≤ terms.length)
    (hparameter : ∀ i, ∀ v ∈ terms.take count, v.number? = none → Q (.invalidParameter i v)) :
    Ends (splitParameters count terms) Q fun parameters => parameters.length = count := by
  unfold splitParameters
  rw [leading_natCast]
  apply ends_mono (ends_numbersFrom 0 hparameter)
  intro numbers hn
  rw [hn, List.length_take]
  omega

theorem ends_parameterized {count skip : Nat} {f : List Number → Number → Except Fault α}
    (hcount : count ≤ terms.length) (hskip : skip ≤ advanceLimit)
    (hparameter : ∀ i, ∀ v ∈ terms.take count, v.number? = none → Q (.invalidParameter i v))
    (hforeign : ∀ v, (Value.leavesOfAll terms).foreign = some v → Q (.invalidTerm v))
    (hf : ∀ parameters value, parameters.length = count →
      Ends (f parameters value) Q fun _ => True) :
    Ends (parameterized ⟨count, skip⟩ f terms) Q fun _ => True := by
  rw [parameterized_eq]
  apply ends_bind (ends_splitParameters hcount hparameter)
  intro parameters hp
  rw [if_neg (show ¬ ((skip : Int) < 0 ∨ (advanceLimit : Int) < skip) by omega)]
  apply Feed.ends_mapM
  · intro value _
    exact hf parameters value hp
  · exact Feed.of_fault_ofTerms hforeign

end Grouping

/-! ## Functions of the entries -/

theorem ends_roundHalfUp (x : Binary64) : Ends (roundHalfUp x) IsDomain fun _ => True := by
  cases x with
  | nan => exact ends_ok trivial
  | infinity negative => exact ends_ok trivial
  | finite negative m =>
    unfold roundHalfUp
    dsimp only
    rw [bind_of_eq_ok (Strict.ofInt_floorInt negative m)]
    exact ends_ok trivial

theorem ends_floatFactors {n : Int} (hn : n ≤ int64Max) :
    Ends (do return .list ((← (← primeFactors n).mapM fun p : Nat => Strict.ofInt p).map .float) :
      Except Fault Value) IsDomain fun _ => True := by
  apply ends_bind (ends_primeFactors hn)
  intro factors hfactors
  have hfloat : ∀ p ∈ factors, ∃ x, Strict.ofInt (p : Int) = .ok x := fun p hp =>
    ⟨_, Strict.ofInt_of_natAbs_le (by have := hfactors p hp; omega)⟩
  obtain ⟨floats, hfloats, -⟩ := exists_mapM_ok hfloat
  rw [bind_of_eq_ok hfloats]
  exact ends_pure trivial

section Entries

variable {Q : Fault → Prop} {arguments : List Value} (hdomain : ∀ fault, fault.IsDomain → Q fault)
  (hforeign : ∀ v, (Value.leavesOfAll arguments).foreign = some v → Q (.invalidTerm v))

include hdomain hforeign

theorem ends_ofIntegers {f : Int → Except Fault Value}
    (hf : ∀ n, n ≤ int64Max → Ends (f n) IsDomain fun _ => True) :
    Ends ((ofIntegers f).evaluate arguments) Q fun _ => True := by
  apply ends_elementwise hforeign
  intro x
  refine ends_weaken (ends_bind x.ends_toInt64 ?_) hdomain
  intro n hn
  exact hf n hn.2

theorem ends_ofIntegerPairs (name : String) {f : Int → Int → Except Fault Int}
    (hf : ∀ n k, Ends (f n k) IsDomain fun _ => True) :
    Ends ((ofIntegerPairs name f).evaluate arguments) Q fun _ => True := by
  apply ends_windowed_pairs hforeign
  intro a b
  refine ends_weaken (ends_bind a.ends_toInt64 ?_) hdomain
  intro n _
  apply ends_bind b.ends_toInt64
  intro k _
  exact ends_bind_pure (hf n k) _

theorem ends_evaluate_of_mem_elementwise {library : Elementary} {entry : CatalogueEntry}
    (h : entry ∈ elementwiseEntries library) :
    Ends (entry.method.evaluate arguments) Q fun _ => True := by
  rcases List.mem_append.mp h with h | h
  · obtain ⟨f, -, rfl⟩ := List.mem_map.mp h
    exact ends_elementwise hforeign fun x => ends_ok trivial
  · simp only [List.mem_cons, List.not_mem_nil, or_false] at h
    rcases h with rfl | rfl | rfl | rfl | rfl
    · refine ends_elementwise hforeign fun x => ?_
      exact ends_weaken (ends_bind_pure (ends_roundHalfUp _) _) hdomain
    · exact ends_ofIntegers hdomain hforeign fun n _ => ends_bind_pure (ends_isPrime n) _
    · exact ends_ofIntegers hdomain hforeign fun n _ => ends_bind_pure (ends_nextPrime n) _
    · exact ends_ofIntegers hdomain hforeign fun n _ => ends_bind_pure (ends_factorial n) _
    · exact ends_ofIntegers hdomain hforeign fun n hn => ends_floatFactors hn

theorem ends_evaluate_of_mem_windowed {entry : CatalogueEntry} (h : entry ∈ windowedEntries) :
    Ends (entry.method.evaluate arguments) Q fun _ => True := by
  simp only [windowedEntries, List.mem_cons, List.not_mem_nil, or_false] at h
  rcases h with rfl | rfl | rfl
  · apply ends_windowed_pairs hforeign
    intro a b
    exact ends_ok trivial
  · exact ends_ofIntegerPairs hdomain hforeign _ ends_stirling
  · exact ends_ofIntegerPairs hdomain hforeign _ ends_binomial

end Entries

section

variable {Q : Fault → Prop} {arguments : List Value}
  (hforeign : ∀ v, (Value.leavesOfAll arguments).foreign = some v → Q (.invalidTerm v))

include hforeign

theorem ends_ofReduction {f : List Number → Except Fault Binary64}
    (hf : (Value.leavesOfAll arguments).foreign = none →
      Ends (f (Value.leavesOfAll arguments).numbers) Q fun _ => True) :
    Ends ((ofReduction f).evaluate arguments) Q fun _ => True := by
  refine ends_bind_pure (ends_aggregate hforeign ?_) _
  intro hleaves
  exact ends_bind_pure (hf hleaves) _

theorem ends_ofPosition {f : List Number → Except Fault Nat}
    (hf : Ends (f (Value.leavesOfAll arguments).numbers) Q fun _ => True) :
    Ends ((ofPosition f).evaluate arguments) Q fun _ => True := by
  refine ends_bind_pure (ends_aggregate hforeign ?_) _
  intro _
  exact ends_bind_pure hf _

theorem ends_evaluate_sigmoid (library : Elementary) (hmin : 3 ≤ arguments.length)
    (hparameter : ∀ i, ∀ v ∈ arguments.take 3, v.number? = none → Q (.invalidParameter i v)) :
    Ends ((Method.parameterized sigmoidLayout (sigmoidOf library)).evaluate arguments) Q
      fun _ => True := by
  apply ends_parameterized hmin (by decide) hparameter hforeign
  intro parameters value hp
  obtain ⟨a, parameters, rfl⟩ := List.exists_cons_of_length_eq_add_one hp
  obtain ⟨b, parameters, rfl⟩ := List.exists_cons_of_length_eq_add_one (Nat.succ.inj hp)
  obtain ⟨c, rfl⟩ := List.length_eq_one_iff.mp (Nat.succ.inj (Nat.succ.inj hp))
  simp only [List.cons_append, List.nil_append, List.map, sigmoidOf]
  exact ends_ok trivial

theorem ends_evaluate_power (library : Elementary) (hmin : 1 ≤ arguments.length)
    (hparameter : ∀ i, ∀ v ∈ arguments.take 1, v.number? = none → Q (.invalidParameter i v)) :
    Ends ((Method.parameterized powerLayout (powerOf library)).evaluate arguments) Q
      fun _ => True := by
  apply ends_parameterized hmin (by decide) hparameter hforeign
  intro parameters value hp
  obtain ⟨a, rfl⟩ := List.length_eq_one_iff.mp hp
  simp only [List.cons_append, List.nil_append, List.map, powerOf]
  exact ends_ok trivial

end

end NumericActions
