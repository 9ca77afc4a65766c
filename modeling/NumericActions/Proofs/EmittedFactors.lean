import NumericActions.Proofs.ActionFaults
import NumericActions.Proofs.HalfEven
import NumericActions.Proofs.NextPrime
import NumericActions.Proofs.PrimeFactorization
import NumericActions.Proofs.Scopes

/-!
# Prime factors as floats

The factors of a number are found as integers and given back as floats. Up to `2 ^ 53` that is
the same number. An odd number above is rounded to an even one, so a greater prime is given
back as a number that is not prime, and the floats no longer multiply to the number whose
factors they are. They stay in ascending order.

* `Rounding.roundQuotient_of_le`, `Rounding.two_dvd_roundQuotient`: integers up to `2 ^ 53` and
  beyond.
* `EmitsFactors`: what is promised of the floats for one number.
* `emitsFactors_floatFactors`: the promise is kept.
* `Action.execute_primefactors`: which arguments are accepted, and what is given back for each
  of their numbers.
-/

namespace NumericActions

open Rounding

/-! ## Integers as floats -/

namespace Rounding

theorem roundQuotient_of_le {n : Nat} (h : n ≤ 2 ^ 53) : roundQuotient n 1 = n := by
  have hgrid := onGrid_mul_two_pow (show n ≤ Nat.pow 2 53 from h) 0
  have hround := roundQuotient_mul Nat.one_pos hgrid
  rwa [Nat.pow_eq, Nat.pow_zero, Nat.mul_one, Nat.mul_one] at hround

/-- Above `2 ^ 53` only even numbers have 53 bits. -/
theorem two_dvd_roundQuotient {n : Nat} (h : 2 ^ 53 ≤ n) : 2 ∣ roundQuotient n 1 := by
  have hlog : 53 ≤ n.log2 := (Nat.le_log2 (by omega)).mpr h
  refine Nat.dvd_trans ?_ (spacing_dvd_roundQuotient n)
  exact Nat.pow_dvd_pow 2 (show 1 ≤ n.log2 - 52 by omega)

theorem two_pow_le_roundQuotient {n : Nat} (h : 2 ^ 53 ≤ n) : 2 ^ 53 ≤ roundQuotient n 1 :=
  le_roundQuotient Nat.one_pos (onGrid_two_pow 53) (by rwa [Nat.mul_one])

end Rounding

theorem Binary64.toRat_ofInt {n : Nat} (h : n ≤ 2 ^ 63) :
    (Binary64.ofInt n).toRat = roundQuotient n 1 := by
  obtain ⟨e, he, hone⟩ := exists_unitsPerOne_eq
  have hle : n * unitsPerOne ≤ 2 ^ (63 + e) * 1 := by
    rw [hone, Nat.pow_add, Nat.mul_one]
    exact Nat.mul_le_mul_right _ h
  obtain ⟨m, hm, hunits⟩ := rounded_of_le false Nat.one_pos (onGrid_two_pow (63 + e))
    (two_pow_lt_magnitudeLimit (by omega)) hle
  have hvalue : Binary64.ofInt n = .finite false m := by
    unfold ofInt
    rw [decide_eq_false (Int.not_lt.mpr (Int.natCast_nonneg n)), Int.natAbs_natCast, hm]
  have hexact : (Binary64.ofInt n).exactUnits = (m.units : Int) := by
    rw [hvalue]
    rfl
  have hround : m.units = roundQuotient n 1 * unitsPerOne := by
    rw [hunits, hone, roundQuotient_mul_two_pow]
  unfold toRat
  rw [hexact, hround, Int.cast_natCast, Nat.cast_mul,
    mul_div_cancel_right₀ _ cast_unitsPerOne_pos.ne']

/-! ## Lists of results -/

section

variable {α β γ : Type} {R : α → β → Prop}

theorem exists_forall₂_iff {xs : List α} :
    (∃ ys, List.Forall₂ R xs ys) ↔ ∀ x ∈ xs, ∃ y, R x y := by
  induction xs with
  | nil => exact ⟨fun _ x hx => absurd hx List.not_mem_nil, fun _ => ⟨[], .nil⟩⟩
  | cons x xs ih =>
    rw [List.forall_mem_cons, ← ih]
    constructor
    · rintro ⟨_, hys⟩
      cases hys with
      | cons hhead htail => exact ⟨⟨_, hhead⟩, ⟨_, htail⟩⟩
    · rintro ⟨⟨y, hy⟩, ⟨ys, hys⟩⟩
      exact ⟨y :: ys, .cons hy hys⟩

/-- A list of images is the image of a list. -/
theorem forall₂_exists_eq_iff {f : β → γ} {xs : List α} {zs : List γ} :
    List.Forall₂ (fun x z => ∃ y, R x y ∧ z = f y) xs zs ↔
      ∃ ys, List.Forall₂ R xs ys ∧ zs = ys.map f := by
  constructor
  · intro h
    induction h with
    | nil => exact ⟨[], .nil, rfl⟩
    | cons hhead _ ih =>
      obtain ⟨y, hy, rfl⟩ := hhead
      obtain ⟨ys, hys, rfl⟩ := ih
      exact ⟨y :: ys, .cons hy hys, rfl⟩
  · rintro ⟨ys, hys, rfl⟩
    rw [List.forall₂_map_right_iff]
    exact hys.imp fun x y hxy => ⟨y, hxy, rfl⟩

theorem mapM_eq_ok_iff_forall₂ {ε : Type} {f : α → Except ε β} {xs : List α} {ys : List β} :
    xs.mapM f = .ok ys ↔ List.Forall₂ (fun x y => f x = .ok y) xs ys := by
  induction xs generalizing ys with
  | nil =>
    rw [List.forall₂_nil_left_iff]
    exact ⟨fun h => (Except.ok.inj h).symm, fun h => h ▸ rfl⟩
  | cons x xs ih =>
    rw [List.mapM_cons, List.forall₂_cons_left_iff]
    cases hx : f x with
    | error fault => simp [bind, Except.bind]
    | ok y =>
      rw [bind_of_eq_ok rfl]
      cases hxs : xs.mapM f with
      | error fault => simp [bind, Except.bind, ← ih, hxs]
      | ok rest => simp [bind, Except.bind, pure, Except.pure, ← ih, hxs, eq_comm]

end

/-! ## The factors of one number -/

/-- The factors in ascending order, each of them rounded. -/
def floatFactors (m : Nat) : List Binary64 := (factorsOf m).map fun p : Nat => Binary64.ofInt p

/-- What the floats given back for `m` are: its factors in ascending order, each rounded once to
the nearest number, ties to even. If no factor exceeds `2 ^ 53`, they multiply to `m` and are
prime; a greater factor becomes an even number. -/
structure EmitsFactors (m : Nat) (factors : List Nat) (floats : List Binary64) : Prop where
  product : factors.prod = m
  ascending : factors.Pairwise (· ≤ ·)
  rounded : List.Forall₂ (fun (p : Nat) x => RoundsTo p x) factors floats
  floats_ascending : (floats.map Binary64.toRat).Pairwise (· ≤ ·)
  exact : (∀ p ∈ factors, p ≤ 2 ^ 53) → (floats.map Binary64.toRat).prod = m
  inexact : (∃ p ∈ factors, 2 ^ 53 < p) → (floats.map Binary64.toRat).prod ≠ m ∧
    ∃ x ∈ floats, ∃ k : Nat, x.toRat = k ∧ 2 < k ∧ k % 2 = 0
  prime : ∀ bound, m < bound → NoPseudoprimeBelow bound → (∀ p ∈ factors, p.Prime) ∧
    ((∀ p ∈ factors, p ≤ 2 ^ 53) → ∀ x ∈ floats, ∃ p : Nat, p.Prime ∧ x.toRat = p)

section

variable {m : Nat} (hm : m < 2 ^ 63)

include hm

theorem le_two_pow_of_mem_factorsOf {p : Nat} (hp : p ∈ factorsOf m) : p ≤ 2 ^ 63 :=
  Nat.le_of_lt (Nat.lt_of_le_of_lt (le_of_mem_factorsOf hp) hm)

theorem map_toRat_floatFactors :
    (floatFactors m).map Binary64.toRat =
      ((factorsOf m).map fun p => roundQuotient p 1).map (Nat.cast : Nat → ℚ) := by
  unfold floatFactors
  rw [List.map_map, List.map_map]
  exact List.map_congr_left fun p hp => Binary64.toRat_ofInt (le_two_pow_of_mem_factorsOf hm hp)

theorem prod_toRat_floatFactors :
    ((floatFactors m).map Binary64.toRat).prod =
      (((factorsOf m).map fun p => roundQuotient p 1).prod : Nat) := by
  rw [map_toRat_floatFactors hm, Nat.cast_list_prod]

theorem pairwise_floatFactors : ((floatFactors m).map Binary64.toRat).Pairwise (· ≤ ·) := by
  rw [map_toRat_floatFactors hm, List.map_map, List.pairwise_map]
  exact (factorsOf_pairwise m).imp fun h => Nat.cast_le.mpr (roundQuotient_mono h)

end

theorem map_roundQuotient_of_le {factors : List Nat} (h : ∀ p ∈ factors, p ≤ 2 ^ 53) :
    factors.map (fun p => roundQuotient p 1) = factors := by
  conv => rhs; rw [← List.map_id' factors]
  exact List.map_congr_left fun p hp => roundQuotient_of_le (h p hp)

/-- Beside a factor above `2 ^ 53` there is room for small ones only, so one of the factors is
rounded and the others are not. -/
theorem prod_map_roundQuotient_ne {factors : List Nat} (hlt : factors.prod < 2 ^ 63)
    (hpos : 0 < factors.prod) {p : Nat} (hp : p ∈ factors) (hlarge : 2 ^ 53 < p)
    (hodd : p % 2 = 1) : (factors.map fun p => roundQuotient p 1).prod ≠ factors.prod := by
  have hperm := List.perm_cons_erase hp
  have hprod : factors.prod = p * (factors.erase p).prod := by
    rw [hperm.prod_eq, List.prod_cons]
  rw [hprod] at hlt hpos
  have hrest : 0 < (factors.erase p).prod := Nat.pos_of_mul_pos_left hpos
  have hsmall : ∀ q ∈ factors.erase p, q ≤ 2 ^ 53 := fun q hq => by
    have hle := Nat.le_of_dvd hrest (List.dvd_prod hq)
    have := Nat.mul_le_mul (Nat.le_of_lt hlarge) hle
    omega
  rw [(hperm.map _).prod_eq, hprod, List.map_cons, List.prod_cons, map_roundQuotient_of_le hsmall]
  intro heq
  have := two_dvd_roundQuotient (Nat.le_of_lt hlarge)
  have := Nat.eq_of_mul_eq_mul_right hrest heq
  omega

theorem emitsFactors_floatFactors {m : Nat} (hpos : 0 < m) (hm : m < 2 ^ 63) :
    EmitsFactors m (factorsOf m) (floatFactors m) where
  product := factorsOf_prod hpos
  ascending := factorsOf_pairwise m
  rounded := by
    unfold floatFactors
    rw [List.forall₂_map_right_iff, List.forall₂_same]
    exact fun p _ => roundsTo_natCast p
  floats_ascending := pairwise_floatFactors hm
  exact hexact := by
    rw [prod_toRat_floatFactors hm, map_roundQuotient_of_le hexact, factorsOf_prod hpos]
  inexact := by
    rintro ⟨p, hp, hlarge⟩
    have hodd := odd_of_passesPrimality (passesPrimality_of_mem_factorsOf hp) (by omega)
    have hprod := factorsOf_prod hpos
    refine ⟨?_, Binary64.ofInt p, List.mem_map_of_mem hp, roundQuotient p 1,
      Binary64.toRat_ofInt (le_two_pow_of_mem_factorsOf hm hp), ?_, ?_⟩
    · rw [prod_toRat_floatFactors hm, Ne, Nat.cast_inj]
      have hne := prod_map_roundQuotient_ne (by rwa [hprod]) (by rwa [hprod]) hp hlarge hodd
      rwa [hprod] at hne
    · have := two_pow_le_roundQuotient (Nat.le_of_lt hlarge)
      omega
    · exact Nat.mod_eq_zero_of_dvd (two_dvd_roundQuotient (Nat.le_of_lt hlarge))
  prime bound hbound hnone := by
    have hprime : ∀ p ∈ factorsOf m, p.Prime := fun p hp =>
      hnone.prime (Nat.lt_of_le_of_lt (le_of_mem_factorsOf hp) hbound)
        (passesPrimality_of_mem_factorsOf hp)
    refine ⟨hprime, fun hexact x hx => ?_⟩
    obtain ⟨p, hp, rfl⟩ := List.mem_map.mp hx
    refine ⟨p, hprime p hp, ?_⟩
    rw [Binary64.toRat_ofInt (le_two_pow_of_mem_factorsOf hm hp), roundQuotient_of_le (hexact p hp)]

/-! ## The action -/

/-- The list of floats as a value. -/
def floatList (floats : List Binary64) : Value := .list (floats.map .float)

/-- The function of the action, on an integer. -/
def emit (n : Int) : Except Fault Value := do
  return .list ((← (← primeFactors n).mapM fun p : Nat => Strict.ofInt p).map .float)

theorem emit_of_mem {m : Nat} (hm : (m : Int) ≤ int64Max) :
    emit m = .ok (floatList (floatFactors m)) := by
  have hmax : int64Max = 2 ^ 63 - 1 := rfl
  have hfactors : primeFactors m = .ok (factorsOf m) :=
    (primeFactors_of_mem (Int.natCast_nonneg m) hm).1
  have hfloats : ((factorsOf m).mapM fun p : Nat => Strict.ofInt p) = .ok (floatFactors m) := by
    unfold floatFactors
    rw [mapM_eq_ok_iff_forall₂, List.forall₂_map_right_iff, List.forall₂_same]
    exact fun p hp => Strict.ofInt_of_natAbs_le (le_two_pow_of_mem_factorsOf (by omega) hp)
  unfold emit
  rw [bind_of_eq_ok hfactors, bind_of_eq_ok hfloats]
  rfl

theorem emit_of_neg {n : Int} (hn : n < 0) : ∃ cause, emit n = .error (.domain cause) := by
  obtain ⟨cause, hcause, -⟩ := primeFactors_of_not_mem (.inl hn)
  unfold emit
  rw [hcause]
  exact ⟨cause, rfl⟩

/-- A number is accepted if its integer part is a 64-bit integer that is not negative. -/
theorem toInt64_bind_emit_eq_ok_iff {x : Number} {v : Value} :
    x.toInt64 >>= emit = .ok v ↔
      ∃ m : Nat, x.toInt64 = .ok (m : Int) ∧ v = floatList (floatFactors m) := by
  constructor
  · intro h
    cases hx : x.toInt64 with
    | error fault =>
      rw [hx] at h
      cases h
    | ok n =>
      have hrange := (Number.ends_toInt64 x).ok n hx
      rw [bind_of_eq_ok hx] at h
      by_cases hn : n < 0
      · obtain ⟨cause, hcause⟩ := emit_of_neg hn
        rw [hcause] at h
        cases h
      · obtain ⟨m, rfl⟩ := Int.eq_ofNat_of_zero_le (Int.not_lt.mp hn)
        rw [emit_of_mem hrange.2] at h
        exact ⟨m, rfl, (Except.ok.inj h).symm⟩
  · rintro ⟨m, hx, rfl⟩
    rw [bind_of_eq_ok hx, emit_of_mem ((Number.ends_toInt64 x).ok m hx).2]

def factorsEntry : CatalogueEntry :=
  ⟨"primefactors", "prime factors of int(x) with multiplicity", 1, ofIntegers emit⟩

theorem mem_factorsEntry (library : Elementary) : factorsEntry ∈ catalogue library := by
  rw [mem_catalogue_iff]
  refine .inl (List.mem_append_right _ ?_)
  iterate 4 apply List.mem_cons_of_mem
  exact List.mem_singleton.mpr rfl

namespace Action

section

variable {library : Elementary} {scope : String} {registry : Registry}
  (h : Registry.ofCatalogue library scope = .ok registry) {action : Action}
  (ha : action ∈ registry.actions) (hname : action.name.text = qualify scope "primefactors")

include h ha hname

/-- There are results if there is an argument, no leaf is foreign and every number is accepted;
then there is a list for each of them. -/
theorem results_primefactors_eq_ok_iff {arguments results : List Value} :
    action.results arguments = .ok results ↔
      1 ≤ arguments.length ∧ (Value.leavesOfAll arguments).foreign = none ∧
        ∃ ms : List Nat, List.Forall₂ (fun x (m : Nat) => x.toInt64 = .ok (m : Int))
          (Value.leavesOfAll arguments).numbers ms ∧
          results = ms.map fun m => floatList (floatFactors m) := by
  obtain ⟨entry, he, hqualified, hmin, hmethod⟩ := Registry.mem_catalogue h ha
  have hentry : entry = factorsEntry := CatalogueEntry.eq_of_shortName_eq he
    (mem_factorsEntry library) (qualify_inj (hqualified.symm.trans hname))
  have hone : action.minimalArguments = 1 := by
    rw [hmin, hentry]
    rfl
  by_cases hlength : arguments.length < action.minimalArguments
  · rw [results_of_length_lt hlength]
    exact ⟨nofun, fun hresults => by omega⟩
  · rw [results_of_le_length (Nat.le_of_not_lt hlength), hmethod, hentry]
    show elementwise (fun x => x.toInt64 >>= emit) arguments = _ ↔ _
    rw [elementwise_eq, Feed.mapM_eq_ok_iff, mapM_eq_ok_iff_forall₂]
    simp only [toInt64_bind_emit_eq_ok_iff, forall₂_exists_eq_iff, Feed.ofTerms, Feed.ofLeaves,
      Option.map_eq_none_iff]
    exact ⟨fun hresults => ⟨by omega, hresults.2, hresults.1⟩,
      fun hresults => ⟨hresults.2.2, hresults.2.1⟩⟩

/-- The action on any arguments and every sink. It succeeds if there is an argument, no leaf is
foreign, and the integer part of every number is a 64-bit integer that is not negative. Then
the sink grows by one list for each number: the factors of its integer part in ascending
order, each rounded once. As long as no factor exceeds `2 ^ 53` these are the prime factors
themselves. -/
theorem execute_primefactors (parallel : Bool) (arguments sink : List Value) :
    ((∃ after, action.execute parallel arguments sink = (.ok (), after)) ↔
      1 ≤ arguments.length ∧ (Value.leavesOfAll arguments).foreign = none ∧
        ∀ x ∈ (Value.leavesOfAll arguments).numbers, ∃ m : Nat, x.toInt64 = .ok (m : Int)) ∧
    ∀ after, action.execute parallel arguments sink = (.ok (), after) →
      ∃ lists, after = sink ++ lists.map floatList ∧
        List.Forall₂ (fun x floats => ∃ (m : Nat) (factors : List Nat),
          x.toInt64 = .ok (m : Int) ∧ primeFactors m = .ok factors ∧
            (2 ≤ m → EmitsFactors m factors floats))
          (Value.leavesOfAll arguments).numbers lists := by
  have hresults := @results_primefactors_eq_ok_iff library scope registry h action ha hname arguments
  have hexecute : ∀ after, action.execute parallel arguments sink = (.ok (), after) ↔
      ∃ results, action.results arguments = .ok results ∧ after = sink ++ results := by
    intro after
    rw [execute_eq]
    cases action.results arguments <;> simp [eq_comm]
  constructor
  · rw [← exists_forall₂_iff]
    simp only [hexecute, hresults]
    constructor
    · rintro ⟨_, _, ⟨hlength, hforeign, ms, hms, -⟩, -⟩
      exact ⟨hlength, hforeign, ms, hms⟩
    · rintro ⟨hlength, hforeign, ms, hms⟩
      exact ⟨_, _, ⟨hlength, hforeign, ms, hms, rfl⟩, rfl⟩
  · intro after hafter
    obtain ⟨_, hok, rfl⟩ := (hexecute after).mp hafter
    obtain ⟨-, -, ms, hms, rfl⟩ := hresults.mp hok
    refine ⟨ms.map floatFactors, by rw [List.map_map]; rfl, ?_⟩
    rw [List.forall₂_map_right_iff]
    refine hms.imp fun x m hm => ⟨m, factorsOf m, hm, ?_, fun htwo => ?_⟩
    · exact (primeFactors_of_mem (Int.natCast_nonneg m) ((Number.ends_toInt64 x).ok m hm).2).1
    · have hmax : int64Max = 2 ^ 63 - 1 := rfl
      have hlimit := ((Number.ends_toInt64 x).ok m hm).2
      exact emitsFactors_floatFactors (by omega) (by omega)

end

theorem exists_primefactors : ∃ registry action,
    Registry.ofCatalogue Elementary.native "math" = .ok registry ∧ action ∈ registry.actions ∧
      action.name.text = qualify "math" "primefactors" := by
  obtain ⟨registry, action, hr, ha, hname, -⟩ :=
    Registry.exists_action_of_entry isScope_math (mem_factorsEntry Elementary.native)
  exact ⟨registry, action, hr, ha, hname⟩

/-- The factors of ninety-four are given back as they are. -/
theorem execute_primefactors_ninety_four : ∃ registry action,
    Registry.ofCatalogue Elementary.native "math" = .ok registry ∧ action ∈ registry.actions ∧
      action.name.text = qualify "math" "primefactors" ∧
      action.execute false [.int 94] [.null] = (.ok (), [.null, floatList [2, 47]]) ∧
      EmitsFactors 94 [2, 47] [2, 47] ∧
      ∀ x ∈ ([2, 47] : List Binary64), ∃ p : Nat, p.Prime ∧ x.toRat = p := by
  obtain ⟨registry, action, hr, ha, hname⟩ := exists_primefactors
  have hleaves : Value.leavesOfAll [.int 94] = ⟨[.int 94], none⟩ := rfl
  have hvalue : (Number.int 94).toInt64 = .ok ((94 : Nat) : Int) := by
    rw [Number.toInt64_int, if_neg (by decide)]
    rfl
  have hlisted : factorsOf 94 = [2, 47] := by decide +kernel
  have hfactors : primeFactors ((94 : Nat) : Int) = .ok (factorsOf 94) :=
    (primeFactors_of_mem (by decide) (by decide)).1
  obtain ⟨haccepted, hlists⟩ := execute_primefactors hr ha hname false [.int 94] [.null]
  rw [hleaves] at haccepted hlists
  obtain ⟨after, hafter⟩ := haccepted.mpr ⟨by decide, rfl, fun x hx =>
    ⟨94, by rw [List.mem_singleton.mp hx, hvalue]⟩⟩
  obtain ⟨lists, rfl, hall⟩ := hlists after hafter
  cases hall with
  | cons hhead htail =>
    cases htail
    obtain ⟨m, factors, hm, hmfactors, hemits⟩ := hhead
    rw [hvalue, Except.ok.injEq, Nat.cast_inj] at hm
    subst hm
    rw [hfactors, Except.ok.injEq, hlisted] at hmfactors
    subst hmfactors
    have hrounded := (hemits (by decide)).rounded
    obtain _ | ⟨htwo, _ | ⟨hlast, _ | _⟩⟩ := hrounded
    rw [htwo.unique (roundsTo_natCast 2), hlast.unique (roundsTo_natCast 47)] at hafter hemits
    have hprime := (hemits (by decide)).prime (43 * 43) (by decide) noPseudoprimeBelow_square
    exact ⟨registry, action, hr, ha, hname, hafter, hemits (by decide), hprime.2 (by decide)⟩

/-- The number `2 ^ 53 + 5` passes the primality test, and it is given back as the even number
below it. -/
theorem not_execute_primefactors_exact : ∃ registry action,
    Registry.ofCatalogue Elementary.native "math" = .ok registry ∧ action ∈ registry.actions ∧
      action.name.text = qualify "math" "primefactors" ∧
      action.execute false [.int 9007199254740997] [] =
        (.ok (), [floatList [9007199254740996]]) ∧
      (([9007199254740996] : List Binary64).map Binary64.toRat).prod ≠ 9007199254740997 ∧
      ¬ ∃ p : Nat, p.Prime ∧ (9007199254740996 : Binary64).toRat = p := by
  obtain ⟨registry, action, hr, ha, hname⟩ := exists_primefactors
  have hvalue : (Number.int 9007199254740997).toInt64 = .ok ((9007199254740997 : Nat) : Int) := by
    rw [Number.toInt64_int, if_neg (by decide)]
    rfl
  have hfloats : floatFactors 9007199254740997 = [9007199254740996] := by decide +kernel
  have hresults : action.results [.int 9007199254740997] = .ok [floatList [9007199254740996]] := by
    rw [← hfloats]
    exact (results_primefactors_eq_ok_iff hr ha hname).mpr
      ⟨Nat.le_refl 1, rfl, [9007199254740997], .cons hvalue .nil, rfl⟩
  have hrat : (9007199254740996 : Binary64).toRat = ((9007199254740996 : Nat) : ℚ) := by
    have h := Binary64.toRat_ofInt (show 9007199254740996 ≤ 2 ^ 63 by decide)
    rwa [show roundQuotient 9007199254740996 1 = 9007199254740996 by decide +kernel] at h
  refine ⟨registry, action, hr, ha, hname, ?_, ?_, ?_⟩
  · rw [execute_eq, hresults]
    rfl
  · rw [List.map_singleton, List.prod_singleton, hrat]
    norm_num
  · rintro ⟨p, hp, heq⟩
    rw [hrat, Nat.cast_inj] at heq
    subst heq
    exact absurd (hp.eq_one_or_self_of_dvd 2 (by decide)) (by decide)

end Action

end NumericActions
