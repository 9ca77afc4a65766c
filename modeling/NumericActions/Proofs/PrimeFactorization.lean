import Mathlib.Data.List.Sort
import Mathlib.Data.Nat.Factors
import NumericActions.Proofs.CycleSearch
import NumericActions.Proofs.StrongProbablePrimes

/-!
# Prime factorization

Trial division takes out primes only, and leaves one, a prime, or a number without small
prime factors. Of these the work list never hands a prime to the cycle search, since a prime
passes the primality test; and a composite number without small factors is split. So all
loops end, and the product of the list is the number. The primality of the factors is as good
as the test.

* `Divided`: a number that is partly taken apart.
* `divided_trialDivide`, `splittable_trialDivide`: what trial division takes out and leaves.
* `exists_divisor`: what the search finds for a number of the work list.
* `split_cons`: the work list has the factors that the recursion has.
* `unbounded_factorsOf`: the factorization without bounds has the value of the bounded one.
* `primeFactors_decides`: the factorization of every argument, or the fault of its domain.
-/

namespace NumericActions

/-! ## Trial division -/

/-- A number as a product of primes and a rest. -/
structure Divided (n : Nat) (factors : List Nat) (rest : Nat) : Prop where
  prime : ∀ q ∈ factors, q.Prime
  product : factors.prod * rest = n

theorem Divided.trans {n rest last : Nat} {factors others : List Nat}
    (h : Divided n factors rest) (hrest : Divided rest others last) :
    Divided n (factors ++ others) last where
  prime q hq := (List.mem_append.mp hq).elim (h.prime q) (hrest.prime q)
  product := by rw [List.prod_append, Nat.mul_assoc, hrest.product, h.product]

theorem Divided.dvd {n rest : Nat} {factors : List Nat} (h : Divided n factors rest) : rest ∣ n :=
  ⟨factors.prod, by rw [Nat.mul_comm, h.product]⟩

theorem divided_divideOut {p n : Nat} (hp : p ∣ n → p.Prime) :
    Divided n (divideOut p n).1 (divideOut p n).2 := by
  fun_induction divideOut p n with
  | case1 n h factors rest hrec ih =>
    have hdvd : p ∣ n := Nat.dvd_of_mod_eq_zero h.2.2
    obtain ⟨hprime, hproduct⟩ := ih fun _ => hp hdvd
    rw [hrec] at hprime hproduct
    refine ⟨List.forall_mem_cons.mpr ⟨hp hdvd, hprime⟩, ?_⟩
    rw [List.prod_cons, Nat.mul_assoc, hproduct, Nat.mul_div_cancel' hdvd]
  | case2 n h => exact ⟨List.forall_mem_nil _, Nat.one_mul n⟩

theorem not_dvd_divideOut {p n : Nat} (hp : 1 < p) (hn : 0 < n) : ¬ p ∣ (divideOut p n).2 := by
  fun_induction divideOut p n with
  | case1 n h factors rest hrec ih =>
    have hpos : 0 < n / p := Nat.div_pos (Nat.le_of_dvd hn (Nat.dvd_of_mod_eq_zero h.2.2)) (by omega)
    rw [hrec] at ih
    exact ih hpos
  | case2 n h => exact fun hdvd => h ⟨hp, hn, Nat.mod_eq_zero_of_dvd hdvd⟩

/-- No prime below the bound divides the number. -/
def Rough (bound n : Nat) : Prop := ∀ q, q.Prime → q ∣ n → bound ≤ q

theorem Rough.of_dvd {bound m n : Nat} (h : Rough bound n) (hdvd : m ∣ n) : Rough bound m :=
  fun q hq hqm => h q hq (hqm.trans hdvd)

/-- A divisor of such a number that is not above the bound is the bound, and a prime. -/
theorem Rough.prime {bound n : Nat} (h : Rough bound n) (hbound : 1 < bound) (hdvd : bound ∣ n) :
    bound.Prime := by
  have hfactor := Nat.minFac_prime (n := bound) (by omega)
  have hle := h _ hfactor ((Nat.minFac_dvd bound).trans hdvd)
  rwa [← Nat.le_antisymm hle (Nat.minFac_le (by omega))] at hfactor

/-- After an odd number the next even one is passed over. -/
theorem Rough.next {divisor n : Nat} (h : Rough divisor n) (hodd : divisor % 2 = 1)
    (hdivisor : 1 < divisor) (hnot : ¬ divisor ∣ n) : Rough (divisor + 2) n := by
  intro q hq hqn
  have hle := h q hq hqn
  have hne : q ≠ divisor := fun heq => hnot (heq ▸ hqn)
  have hqodd := hq.eq_two_or_odd
  omega

/-- A number that is less than the square of the bound is one or a prime. -/
theorem Rough.eq_one_or_prime {bound n : Nat} (h : Rough bound n) (hn : 0 < n)
    (hlt : n < bound * bound) : n = 1 ∨ n.Prime := by
  by_contra hneither
  obtain ⟨hone, hprime⟩ := not_or.mp hneither
  have hle := h _ (Nat.minFac_prime hone) (Nat.minFac_dvd n)
  have hsquare := Nat.minFac_sq_le_self hn hprime
  rw [Nat.pow_two] at hsquare
  exact Nat.not_lt_of_le ((Nat.mul_le_mul hle hle).trans hsquare) hlt

theorem divided_trialDivide {divisor n : Nat} (hodd : divisor % 2 = 1) (hdivisor : 1 < divisor)
    (hn : 0 < n) (hrough : Rough divisor n) :
    Divided n (trialDivide divisor n).1 (trialDivide divisor n).2 ∧
      ((trialDivide divisor n).2 = 1 ∨ (trialDivide divisor n).2.Prime ∨
        Rough trialLimit (trialDivide divisor n).2) := by
  fun_induction trialDivide divisor n with
  | case1 divisor n h factors rest hout others last hrec ih =>
    have hdivided := divided_divideOut (p := divisor) (n := n) (hrough.prime hdivisor)
    have hnot := not_dvd_divideOut hdivisor hn
    rw [hout] at hdivided hnot
    obtain ⟨hothers, hlast⟩ := ih (by omega) (by omega) (Nat.pos_of_dvd_of_pos hdivided.dvd hn)
      ((hrough.of_dvd hdivided.dvd).next hodd hdivisor hnot)
    rw [hrec] at hothers hlast
    exact ⟨hdivided.trans hothers, hlast⟩
  | case2 divisor n h =>
    refine ⟨⟨List.forall_mem_nil _, Nat.one_mul n⟩, ?_⟩
    by_cases hlimit : divisor < trialLimit
    · have hsquare : n < divisor * divisor := by
        by_contra hle
        exact h ⟨hlimit, by omega⟩
      exact (hrough.eq_one_or_prime hn hsquare).imp_right .inl
    · exact .inr (.inr fun q hq hqn => (by omega : trialLimit ≤ divisor).trans (hrough q hq hqn))

/-! ## The work list -/

/-- What the work list holds: primes, and numbers without small prime factors. -/
structure Splittable (n : Nat) : Prop where
  one_lt : 1 < n
  prime_or_rough : n.Prime ∨ Rough trialLimit n

/-- A composite number without small prime factors is a product to which the cycle search has
a constant. -/
theorem Rough.exists_factors {n : Nat} (h : Rough trialLimit n) (hn : 1 < n)
    (hprime : ¬ n.Prime) : ∃ p m, n = p * m ∧ 3 ≤ p ∧ 1 < m ∧ m % 2 = 1 ∧ m ≠ 5 := by
  have hsmall (q : Nat) (hq : q.Prime) (hlt : q < trialLimit) : ¬ q ∣ n := fun hdvd =>
    Nat.not_lt_of_le (h q hq hdvd) hlt
  have hfactor : 3 ≤ n.minFac :=
    Nat.le_trans (by decide) (h _ (Nat.minFac_prime (by omega)) (Nat.minFac_dvd n))
  obtain ⟨m, hm⟩ := Nat.minFac_dvd n
  have hcofactor : m ∣ n := ⟨n.minFac, by rw [Nat.mul_comm, ← hm]⟩
  have htwo : ¬ 2 ∣ m := fun hdvd => hsmall 2 Nat.prime_two (by decide) (hdvd.trans hcofactor)
  have hfive : m ≠ 5 := fun heq => hsmall 5 Nat.prime_five (by decide) (heq ▸ hcofactor)
  have hone : m ≠ 1 := by
    intro heq
    rw [heq, Nat.mul_one] at hm
    exact hprime (Nat.prime_def_minFac.mpr ⟨hn, hm.symm⟩)
  exact ⟨n.minFac, m, hm, hfactor, by omega, by omega, hfive⟩

/-- A number that does not pass the primality test is no prime, so the cycle search finds a
divisor, and both parts are without small prime factors again. -/
theorem exists_divisor {n : Nat} (hn : Splittable n) (hfails : ¬ passesPrimality n = true) :
    ∃ d, Rho.divisor? n = some d ∧ Unbounded.divisor n 1 = Part.some d ∧
      Splittable d ∧ Splittable (n / d) := by
  have hprime : ¬ n.Prime := fun h => hfails (passesPrimality_of_prime h)
  have hrough : Rough trialLimit n := hn.prime_or_rough.resolve_left hprime
  obtain ⟨p, m, rfl, hp, hm, hodd, hfive⟩ := hrough.exists_factors hn.one_lt hprime
  obtain ⟨d, hbounded, hunbounded⟩ := Rho.divisor?_eq hp hm hodd hfive
  obtain ⟨hd, hlt, hmod⟩ := Rho.divisor?_proper hbounded
  have hdvd : d ∣ p * m := Nat.dvd_of_mod_eq_zero hmod
  have hone : 1 < p * m / d := (Nat.lt_div_iff_mul_lt' hdvd 1).mpr (by omega)
  exact ⟨d, hbounded, hunbounded, ⟨hd, .inr (hrough.of_dvd hdvd)⟩,
    ⟨hone, .inr (hrough.of_dvd (Nat.div_dvd_of_dvd hdvd))⟩⟩

theorem splitFactors_spec {n : Nat} (hn : Splittable n) :
    (splitFactors n).prod = n ∧ ∀ q ∈ splitFactors n, passesPrimality q = true := by
  fun_induction splitFactors n with
  | case1 n hpasses => exact ⟨List.prod_singleton, List.forall_mem_singleton.mpr hpasses⟩
  | case2 n hfails d hd ihd ihrest =>
    obtain ⟨d', hbounded, -, hsplit, hsplitrest⟩ := exists_divisor hn hfails
    obtain rfl : d = d' := Option.some.inj (hd.symm.trans hbounded)
    obtain ⟨hproduct, hpasses⟩ := ihd hsplit
    obtain ⟨hproductrest, hpassesrest⟩ := ihrest hsplitrest
    have hdvd : d ∣ n := Nat.dvd_of_mod_eq_zero (Rho.divisor?_proper hd).2.2
    refine ⟨?_, List.forall_mem_append.mpr ⟨hpasses, hpassesrest⟩⟩
    rw [List.prod_append, hproduct, hproductrest, Nat.mul_div_cancel' hdvd]
  | case3 n hfails hnone =>
    obtain ⟨d, hbounded, -⟩ := exists_divisor hn hfails
    rw [hnone] at hbounded
    cases hbounded

theorem split_nil (factors : List Nat) : Unbounded.split [] factors = Part.some factors :=
  Unbounded.loop_of_result rfl

/-- A number on top of the work list is taken apart before the others are looked at. -/
theorem split_cons {n : Nat} (hn : Splittable n) (pending factors : List Nat) :
    ∃ found, found.Perm (splitFactors n) ∧
      Unbounded.split (n :: pending) factors = Unbounded.split pending (found ++ factors) := by
  fun_induction splitFactors n generalizing pending factors with
  | case1 n hpasses =>
    refine ⟨[n], .refl _, Unbounded.loop_of_next ?_⟩
    dsimp only
    rw [if_pos hpasses]
    rfl
  | case2 n hfails d hd ihd ihrest =>
    obtain ⟨d', hbounded, hunbounded, hsplit, hsplitrest⟩ := exists_divisor hn hfails
    obtain rfl : d = d' := Option.some.inj (hd.symm.trans hbounded)
    obtain ⟨foundrest, hpermrest, hrest⟩ := ihrest hsplitrest (d :: pending) factors
    obtain ⟨found, hperm, htop⟩ := ihd hsplit pending (foundrest ++ factors)
    refine ⟨found ++ foundrest, hperm.append hpermrest, ?_⟩
    calc Unbounded.split (n :: pending) factors
        = Unbounded.split (n / d :: d :: pending) factors := by
          refine Unbounded.loop_of_next ?_
          dsimp only
          rw [if_neg hfails, hunbounded, Part.map_some]
      _ = Unbounded.split pending (found ++ (foundrest ++ factors)) := by rw [hrest, htop]
      _ = Unbounded.split pending (found ++ foundrest ++ factors) := by rw [List.append_assoc]
  | case3 n hfails hnone =>
    obtain ⟨d, hbounded, -⟩ := exists_divisor hn hfails
    rw [hnone] at hbounded
    cases hbounded

/-! ## The factorization -/

theorem pairwise_ascending (xs : List Nat) :
    (sorted (fun p q => decide (p ≤ q)) xs).Pairwise (· ≤ ·) := by
  have htotal (p q : Nat) : (decide (p ≤ q) || decide (q ≤ p)) = true := by
    simp [Nat.le_total]
  have htrans (p q r : Nat) (hpq : decide (p ≤ q) = true) (hqr : decide (q ≤ r) = true) :
      decide (p ≤ r) = true :=
    decide_eq_true ((of_decide_eq_true hpq).trans (of_decide_eq_true hqr))
  exact (pairwise_sorted htotal htrans xs).imp of_decide_eq_true

/-- What is left after the division by small numbers. -/
def trialRest (n : Nat) : Nat := (trialDivide 3 (divideOut 2 n).2).2

theorem divided_trialRest {n : Nat} (hn : 0 < n) :
    Divided n ((divideOut 2 n).1 ++ (trialDivide 3 (divideOut 2 n).2).1) (trialRest n) ∧
      (1 < trialRest n → Splittable (trialRest n)) := by
  have htwos := divided_divideOut (p := 2) (n := n) fun _ => Nat.prime_two
  have hnot := not_dvd_divideOut (p := 2) (by decide) hn
  have hrough : Rough 3 (divideOut 2 n).2 := by
    intro q hq hdvd
    have hne : q ≠ 2 := fun h => hnot (h ▸ hdvd)
    have := hq.two_le
    omega
  obtain ⟨hdivided, hrest⟩ := divided_trialDivide rfl (by decide)
    (Nat.pos_of_dvd_of_pos htwos.dvd hn) hrough
  exact ⟨htwos.trans hdivided, fun hone => ⟨hone, hrest.resolve_left (Nat.ne_of_gt hone)⟩⟩

theorem factorsOf_perm (n : Nat) :
    (factorsOf n).Perm ((divideOut 2 n).1 ++ (trialDivide 3 (divideOut 2 n).2).1 ++
      if 1 < trialRest n then splitFactors (trialRest n) else []) :=
  sorted_perm _ _

/-- Lists with the same members in ascending order are equal. -/
theorem sorted_eq_of_perm {xs ys : List Nat} (h : xs.Perm ys) :
    sorted (fun p q => decide (p ≤ q)) xs = sorted (fun p q => decide (p ≤ q)) ys :=
  ((sorted_perm _ xs).trans (h.trans (sorted_perm _ ys).symm)).eq_of_pairwise'
    (pairwise_ascending xs) (pairwise_ascending ys)

theorem factorsOf_pairwise (n : Nat) : (factorsOf n).Pairwise (· ≤ ·) := pairwise_ascending _

theorem factorsOf_prod {n : Nat} (hn : 0 < n) : (factorsOf n).prod = n := by
  obtain ⟨hdivided, hsplittable⟩ := divided_trialRest hn
  have hpos : 0 < trialRest n := Nat.pos_of_dvd_of_pos hdivided.dvd hn
  rw [(factorsOf_perm n).prod_eq, List.prod_append]
  by_cases hone : 1 < trialRest n
  · rw [if_pos hone, (splitFactors_spec (hsplittable hone)).1, hdivided.product]
  · have hrest : trialRest n = 1 := by omega
    have hproduct := hdivided.product
    rw [hrest] at hproduct
    rw [if_neg hone, List.prod_nil, hproduct]

/-- Zero and one have no factors. -/
theorem factorsOf_of_lt_two {n : Nat} (hn : n < 2) : factorsOf n = [] := by
  interval_cases n
  · decide +kernel
  · decide +kernel

theorem pos_of_mem_factorsOf {n q : Nat} (hq : q ∈ factorsOf n) : 0 < n := by
  by_contra hzero
  rw [factorsOf_of_lt_two (by omega)] at hq
  cases hq

theorem passesPrimality_of_mem_factorsOf {n q : Nat} (hq : q ∈ factorsOf n) :
    passesPrimality q = true := by
  have hn := pos_of_mem_factorsOf hq
  obtain ⟨hdivided, hsplittable⟩ := divided_trialRest hn
  rcases List.mem_append.mp ((factorsOf_perm n).mem_iff.mp hq) with hsmall | hlarge
  · exact passesPrimality_of_prime (hdivided.prime q hsmall)
  · by_cases hone : 1 < trialRest n
    · rw [if_pos hone] at hlarge
      exact (splitFactors_spec (hsplittable hone)).2 q hlarge
    · rw [if_neg hone] at hlarge
      cases hlarge

/-- A factor divides the number, so it does not exceed it. -/
theorem le_of_mem_factorsOf {n q : Nat} (hq : q ∈ factorsOf n) : q ≤ n := by
  have hn := pos_of_mem_factorsOf hq
  have hdvd := List.dvd_prod hq
  rw [factorsOf_prod hn] at hdvd
  exact Nat.le_of_dvd hn hdvd

/-- If all factors are primes, there is no other list of this kind. -/
theorem factorsOf_eq_primeFactorsList {n : Nat} (hprime : ∀ q ∈ factorsOf n, q.Prime) :
    factorsOf n = n.primeFactorsList := by
  by_cases hn : n = 0
  · rw [hn, Nat.primeFactorsList_zero]
    exact factorsOf_of_lt_two (by decide)
  · exact (Nat.primeFactorsList_unique (factorsOf_prod (by omega)) hprime).eq_of_pairwise'
      (factorsOf_pairwise n) (Nat.primeFactorsList_sorted n).pairwise

/-- The work list finds the factors of what trial division leaves. -/
theorem split_trialRest (n : Nat) :
    ∃ found, found.Perm (if 1 < trialRest n then splitFactors (trialRest n) else []) ∧
      Unbounded.split (if 1 < trialRest n then [trialRest n] else []) [] = Part.some found := by
  by_cases hone : 1 < trialRest n
  · have hn : 0 < n := Nat.pos_of_ne_zero fun h => by
      subst h
      exact absurd hone (by decide +kernel)
    obtain ⟨found, hperm, hsplit⟩ := split_cons ((divided_trialRest hn).2 hone) [] []
    rw [if_pos hone, if_pos hone]
    exact ⟨found, hperm, by rw [hsplit, List.append_nil, split_nil]⟩
  · rw [if_neg hone, if_neg hone]
    exact ⟨[], .refl _, split_nil []⟩

/-- All loops of the factorization end. -/
theorem unbounded_factorsOf (n : Nat) : Unbounded.factorsOf n = Part.some (factorsOf n) := by
  obtain ⟨found, hperm, hsplit⟩ := split_trialRest n
  have hvalue : Unbounded.factorsOf n = Unbounded.split
      (if 1 < trialRest n then [trialRest n] else []) [] >>= fun large =>
        pure (sorted (fun p q => decide (p ≤ q))
          ((divideOut 2 n).1 ++ (trialDivide 3 (divideOut 2 n).2).1 ++ large)) := rfl
  rw [hvalue, hsplit, Part.bind_eq_bind, Part.bind_some, Part.pure_eq_some,
    sorted_eq_of_perm (hperm.append_left _)]
  rfl

/-! ## The arguments -/

theorem primeFactors_of_mem {n : Int} (hn : 0 ≤ n) (hmax : n ≤ int64Max) :
    primeFactors n = .ok (factorsOf n.toNat) ∧
      Unbounded.primeFactors n = .ok (Part.some (factorsOf n.toNat)) := by
  have hmin : int64Min < 0 := by decide
  unfold primeFactors Unbounded.primeFactors
  rw [Check.requireInt64_int, if_neg (by omega), Check.requireNonNegative_int,
    if_neg (by omega), ← unbounded_factorsOf]
  exact ⟨rfl, rfl⟩

/-- Other arguments fail a check, and no loop begins. -/
theorem primeFactors_of_not_mem {n : Int} (h : n < 0 ∨ int64Max < n) :
    ∃ cause, primeFactors n = .error (.domain cause) ∧
      Unbounded.primeFactors n = .error (.domain cause) := by
  unfold primeFactors Unbounded.primeFactors
  rw [Check.requireInt64_int, Check.requireNonNegative_int]
  by_cases hwide : n < int64Min ∨ int64Max < n
  · rw [if_pos hwide]
    exact ⟨_, rfl, rfl⟩
  · rw [if_neg hwide, if_pos (by omega)]
    exact ⟨_, rfl, rfl⟩

/-- For a 64-bit integer that is not negative all loops end, and the list is in ascending
order, its members are greater than one, and its product is the number; zero and one have
no factors. Every other argument is turned down before any loop begins. If no composite
number below some greater bound is a strong pseudoprime to all bases, the list is the one
with the prime factors. -/
theorem primeFactors_decides (n : Int) :
    (n < 0 ∨ int64Max < n → ∃ cause, primeFactors n = .error (.domain cause) ∧
      Unbounded.primeFactors n = .error (.domain cause)) ∧
    (0 ≤ n → n ≤ int64Max → ∃ factors, primeFactors n = .ok factors ∧
      Unbounded.primeFactors n = .ok (Part.some factors) ∧
      (n < 2 → factors = []) ∧
      (2 ≤ n → factors.Pairwise (· ≤ ·) ∧ (∀ p ∈ factors, 1 < p) ∧ (factors.prod : Int) = n) ∧
      ∀ bound : Nat, n < bound → NoPseudoprimeBelow bound →
        (∀ p ∈ factors, p.Prime) ∧ factors = n.toNat.primeFactorsList) := by
  refine ⟨primeFactors_of_not_mem, fun hn hmax => ?_⟩
  obtain ⟨hbounded, hunbounded⟩ := primeFactors_of_mem hn hmax
  refine ⟨factorsOf n.toNat, hbounded, hunbounded, fun hlt => factorsOf_of_lt_two (by omega),
    fun htwo => ⟨factorsOf_pairwise _, fun p hp => ?_, ?_⟩, fun bound hbound hnone => ?_⟩
  · exact one_lt_of_passesPrimality (passesPrimality_of_mem_factorsOf hp)
  · rw [factorsOf_prod (by omega)]
    omega
  · have hprime : ∀ p ∈ factorsOf n.toNat, p.Prime := by
      intro p hp
      have hle := le_of_mem_factorsOf hp
      exact hnone.prime (by omega) (passesPrimality_of_mem_factorsOf hp)
    exact ⟨hprime, factorsOf_eq_primeFactorsList hprime⟩

/-- The factors of ninety-four are found by trial division and by the work list, and the test
can be trusted up to there. -/
theorem primeFactors_ninety_four :
    (∃ cause, primeFactors (-1) = .error (.domain cause)) ∧ primeFactors 94 = .ok [2, 47] ∧
      Unbounded.primeFactors 94 = .ok (Part.some [2, 47]) ∧
      [2, 47] = Nat.primeFactorsList 94 := by
  have hnone : NoPseudoprimeBelow 95 := noPseudoprimeBelow_of_test (by decide +kernel)
  have hlisted : factorsOf 94 = [2, 47] := by decide +kernel
  have hvalue : primeFactors 94 = .ok (factorsOf 94) :=
    (primeFactors_of_mem (by decide) (by decide)).1
  obtain ⟨cause, hnegative, -⟩ := (primeFactors_decides (-1)).1 (by decide)
  obtain ⟨factors, hfactors, hends, -, -, hprime⟩ :=
    (primeFactors_decides 94).2 (by decide) (by decide)
  obtain rfl : [2, 47] = factors := by
    rw [← hlisted]
    exact Except.ok.inj (hvalue.symm.trans hfactors)
  exact ⟨⟨cause, hnegative⟩, hfactors, hends, (hprime 95 (by decide) hnone).2⟩

end NumericActions
