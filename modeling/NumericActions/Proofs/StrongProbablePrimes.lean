import Mathlib.FieldTheory.Finite.Basic
import Mathlib.Tactic.NormNum.Prime
import NumericActions.Primes.Primality

/-!
# Strong probable primes

In the field of a prime modulus one has two square roots only, itself and minus one. By
Fermat's theorem the powers of a base that the test looks at lead to one by squaring, so the
test never turns a prime down. A composite number that passes the test to all bases is a
strong pseudoprime to each of them.

* `StrongProbablePrime`: what the test to a base decides.
* `isStrongProbablePrime_iff`: the test of an odd number.
* `passesPrimality_of_prime`: every prime passes.
* `prime_or_strongProbablePrime`: what else can pass.
* `isPrime_decides`: the answer for every argument, or the fault of its domain.
-/

namespace NumericActions

/-! ## The property -/

/-- With `n - 1 = 2 ^ twos * odd` the power of the base to `odd` is congruent to one, or to
minus one after fewer than `twos` squarings. -/
def StrongProbablePrime (n base : Nat) : Prop :=
  ∃ twos odd, n = 2 ^ twos * odd + 1 ∧ odd % 2 = 1 ∧
    (base ^ odd ≡ 1 [MOD n] ∨ ∃ r < twos, base ^ (2 ^ r * odd) ≡ n - 1 [MOD n])

/-- A power of the base is one or minus one, so the base is coprime to the number. -/
theorem StrongProbablePrime.coprime {n base : Nat} (h : StrongProbablePrime n base) :
    base.Coprime n := by
  obtain ⟨twos, odd, heq, hodd, hpower⟩ := h
  have hpos : 0 < odd := by omega
  rcases hpower with hone | ⟨r, -, hminus⟩
  · have hcoprime : (base ^ odd).Coprime n := by
      rw [Nat.coprime_iff_gcd_eq_one, hone.gcd_eq, Nat.gcd_one_left]
    exact (Nat.coprime_pow_left_iff hpos base n).mp hcoprime
  · have hcoprime : (base ^ (2 ^ r * odd)).Coprime n := by
      rw [Nat.coprime_iff_gcd_eq_one, hminus.gcd_eq, heq, Nat.add_sub_cancel,
        Nat.gcd_self_add_right, Nat.gcd_one_right]
    exact (Nat.coprime_pow_left_iff (Nat.mul_pos (Nat.two_pow_pos r) hpos) base n).mp hcoprime

/-- No even number has the property for an even base. -/
theorem not_strongProbablePrime_even {n base : Nat} (hn : n % 2 = 0) (hbase : base % 2 = 0) :
    ¬ StrongProbablePrime n base := fun h =>
  Nat.not_coprime_of_dvd_of_dvd (by decide) (Nat.dvd_of_mod_eq_zero hbase)
    (Nat.dvd_of_mod_eq_zero hn) h.coprime

/-! ## The functions of the test -/

theorem powMod_eq (base exponent modulus : Nat) :
    powMod base exponent modulus = base ^ exponent % modulus := by
  fun_induction powMod base exponent modulus with
  | case1 base => rw [Nat.pow_zero]
  | case2 base exponent hpos root heven ih =>
    have hhalf : exponent = 2 * (exponent / 2) := by omega
    rw [show root = _ from ih, ← Nat.pow_mod, ← Nat.pow_two, ← Nat.pow_mul, ← hhalf]
  | case3 base exponent hpos root hodd ih =>
    have hhalf : exponent = 2 * (exponent / 2) + 1 := by omega
    rw [show root = _ from ih, ← Nat.pow_mod, ← Nat.pow_two, ← Nat.pow_mul, Nat.mod_mul_mod,
      ← pow_succ, ← hhalf]

theorem splitTwos_spec {n : Nat} (hn : 0 < n) :
    n = 2 ^ (splitTwos n).1 * (splitTwos n).2 ∧ (splitTwos n).2 % 2 = 1 := by
  fun_induction splitTwos n with
  | case1 n h twos odd hsplit ih =>
    rw [hsplit] at ih
    obtain ⟨hhalf, hodd⟩ := ih (by omega)
    refine ⟨?_, hodd⟩
    dsimp only at hhalf ⊢
    rw [Nat.pow_succ, Nat.mul_right_comm, ← hhalf]
    omega
  | case2 n h => exact ⟨by simp, by dsimp only; omega⟩

theorem squaresToMinusOne_iff (n squarings x : Nat) :
    squaresToMinusOne n squarings x = true ↔
      ∃ r, r < squarings ∧ x ^ 2 ^ (r + 1) % n = n - 1 := by
  induction squarings generalizing x with
  | zero => simp [squaresToMinusOne]
  | succ squarings ih =>
    have hsquare (r : Nat) : (x * x % n) ^ 2 ^ r % n = x ^ 2 ^ (r + 1) % n := by
      rw [← Nat.pow_mod, ← Nat.pow_two, ← Nat.pow_mul, ← Nat.pow_succ']
    have hfirst : x * x % n = n - 1 ↔ x ^ 2 ^ (0 + 1) % n = n - 1 := by
      rw [← hsquare 0, Nat.pow_zero, Nat.pow_one, Nat.mod_mod]
    simp only [squaresToMinusOne, Bool.or_eq_true, beq_iff_eq, ih, hsquare, hfirst]
    constructor
    · rintro (h | ⟨r, hr, h⟩)
      · exact ⟨0, by omega, h⟩
      · exact ⟨r + 1, by omega, h⟩
    · rintro ⟨r, hr, h⟩
      cases r with
      | zero => exact .inl h
      | succ r => exact .inr ⟨r, by omega, h⟩

/-- A number has one odd cofactor of a power of two. -/
theorem twos_unique {a b c d : Nat} (hb : b % 2 = 1) (hd : d % 2 = 1)
    (h : 2 ^ a * b = 2 ^ c * d) : a = c ∧ b = d := by
  induction a generalizing c with
  | zero =>
    cases c with
    | zero => exact ⟨rfl, by simpa using h⟩
    | succ c =>
      rw [Nat.pow_zero, Nat.one_mul, Nat.pow_succ', Nat.mul_assoc] at h
      omega
  | succ a ih =>
    cases c with
    | zero =>
      rw [Nat.pow_zero, Nat.one_mul, Nat.pow_succ', Nat.mul_assoc] at h
      omega
    | succ c =>
      rw [Nat.pow_succ', Nat.pow_succ', Nat.mul_assoc, Nat.mul_assoc] at h
      obtain ⟨hac, hbd⟩ := ih (Nat.eq_of_mul_eq_mul_left Nat.two_pos h)
      exact ⟨by rw [hac], hbd⟩

theorem isStrongProbablePrime_iff {n : Nat} (hn : 1 < n) (hodd : n % 2 = 1) (base : Nat) :
    isStrongProbablePrime n base = true ↔ StrongProbablePrime n base := by
  have hspec := splitTwos_spec (show 0 < n - 1 by omega)
  rcases hst : splitTwos (n - 1) with ⟨twos, odd⟩
  rw [hst] at hspec
  obtain ⟨hsplit, hcofactor⟩ : n - 1 = 2 ^ twos * odd ∧ odd % 2 = 1 := hspec
  have htwos : twos ≠ 0 := by
    rintro rfl
    rw [Nat.pow_zero, Nat.one_mul] at hsplit
    omega
  have hminus : (n - 1) % n = n - 1 := Nat.mod_eq_of_lt (by omega)
  have hsquare (r : Nat) : (base ^ odd % n) ^ 2 ^ r % n = base ^ (2 ^ r * odd) % n := by
    rw [← Nat.pow_mod, ← Nat.pow_mul, Nat.mul_comm]
  have htest : isStrongProbablePrime n base = true ↔
      base ^ odd ≡ 1 [MOD n] ∨ ∃ r < twos, base ^ (2 ^ r * odd) ≡ n - 1 [MOD n] := by
    unfold isStrongProbablePrime
    simp only [hst, powMod_eq, Bool.or_eq_true, beq_iff_eq, squaresToMinusOne_iff, hsquare,
      Nat.ModEq, hminus, Nat.mod_eq_of_lt hn]
    constructor
    · rintro ((h | h) | ⟨r, hr, h⟩)
      · exact .inl h
      · exact .inr ⟨0, by omega, by simpa using h⟩
      · exact .inr ⟨r + 1, by omega, h⟩
    · rintro (h | ⟨r, hr, h⟩)
      · exact .inl (.inl h)
      · cases r with
        | zero => exact .inl (.inr (by simpa using h))
        | succ r => exact .inr ⟨r, by omega, h⟩
  rw [htest]
  constructor
  · intro h
    exact ⟨twos, odd, by omega, hcofactor, h⟩
  · rintro ⟨twos', odd', heq, hodd', h⟩
    have hsame : 2 ^ twos' * odd' = 2 ^ twos * odd := by omega
    obtain ⟨rfl, rfl⟩ := twos_unique hodd' hcofactor hsame
    exact h

/-! ## Primes -/

/-- In a field the way to one by squaring begins with one or passes minus one. -/
theorem eq_one_or_of_pow_two_pow {F : Type} [Field F] {x : F} {twos : Nat}
    (h : x ^ 2 ^ twos = 1) : x = 1 ∨ ∃ r < twos, x ^ 2 ^ r = -1 := by
  induction twos with
  | zero => exact .inl (by simpa using h)
  | succ twos ih =>
    rw [Nat.pow_succ, pow_mul] at h
    rcases sq_eq_one_iff.mp h with hone | hminus
    · rcases ih hone with hx | ⟨r, hr, hx⟩
      · exact .inl hx
      · exact .inr ⟨r, by omega, hx⟩
    · exact .inr ⟨twos, by omega, hminus⟩

theorem strongProbablePrime_of_prime {p base : Nat} (hp : p.Prime) (hodd : p % 2 = 1)
    (hbase : ¬ p ∣ base) : StrongProbablePrime p base := by
  have : Fact p.Prime := ⟨hp⟩
  have hpos := hp.two_le
  obtain ⟨hsplit, hcofactor⟩ := splitTwos_spec (show 0 < p - 1 by omega)
  generalize (splitTwos (p - 1)).1 = twos at hsplit
  generalize (splitTwos (p - 1)).2 = odd at hsplit hcofactor
  have hne : (base : ZMod p) ≠ 0 := by
    rwa [Ne, ZMod.natCast_eq_zero_iff]
  have hfermat := ZMod.pow_card_sub_one_eq_one hne
  rw [hsplit, Nat.mul_comm, pow_mul] at hfermat
  refine ⟨twos, odd, by omega, hcofactor, ?_⟩
  rcases eq_one_or_of_pow_two_pow hfermat with hone | ⟨r, hr, hminus⟩
  · left
    rw [← ZMod.natCast_eq_natCast_iff]
    exact_mod_cast hone
  · right
    refine ⟨r, hr, ?_⟩
    rw [← ZMod.natCast_eq_natCast_iff, Nat.cast_sub (by omega), Nat.mul_comm]
    push_cast
    rw [pow_mul, hminus]
    simp

/-! ## The test to all bases -/

theorem prime_of_mem_testBases : ∀ base ∈ testBases, base.Prime := by
  decide

/-- A number that is none of the bases and has none of them as a divisor is tested to all of
them; one of the bases passes at once. -/
theorem passesPrimality_iff (n : Nat) :
    passesPrimality n = true ↔
      n ∈ testBases ∨ (1 < n ∧ (∀ base ∈ testBases, ¬ base ∣ n) ∧
        ∀ base ∈ testBases, isStrongProbablePrime n base = true) := by
  unfold passesPrimality
  by_cases hsmall : n < 2
  · rw [if_pos hsmall]
    refine iff_of_false Bool.false_ne_true ?_
    rintro (hmem | ⟨hn, -⟩)
    · have := (prime_of_mem_testBases n hmem).two_le
      omega
    · omega
  rw [if_neg hsmall]
  cases hfind : testBases.find? (fun p => n % p == 0) with
  | some p =>
    have hmem := List.mem_of_find?_eq_some hfind
    have hdvd : p ∣ n := Nat.dvd_of_mod_eq_zero (by simpa using List.find?_some hfind)
    dsimp only
    rw [beq_iff_eq]
    constructor
    · rintro rfl
      exact .inl hmem
    · rintro (hn | ⟨-, hnone, -⟩)
      · exact ((Nat.prime_dvd_prime_iff_eq (prime_of_mem_testBases p hmem)
          (prime_of_mem_testBases n hn)).mp hdvd).symm
      · exact absurd hdvd (hnone p hmem)
  | none =>
    have hnone : ∀ base ∈ testBases, ¬ base ∣ n := by
      intro base hbase hdvd
      have hfalse := List.find?_eq_none.mp hfind base hbase
      exact hfalse (by simpa using Nat.mod_eq_zero_of_dvd hdvd)
    dsimp only
    rw [List.all_eq_true]
    constructor
    · intro hall
      exact .inr ⟨by omega, hnone, hall⟩
    · rintro (hmem | ⟨-, -, hall⟩)
      · exact absurd (Nat.dvd_refl n) (hnone n hmem)
      · exact hall

theorem odd_of_not_dvd_testBases {n : Nat} (h : ∀ base ∈ testBases, ¬ base ∣ n) :
    n % 2 = 1 := by
  have htwo : ¬ 2 ∣ n := h 2 (by decide)
  omega

theorem passesPrimality_of_prime {p : Nat} (hp : p.Prime) : passesPrimality p = true := by
  rw [passesPrimality_iff]
  by_cases hmem : p ∈ testBases
  · exact .inl hmem
  · have hnone : ∀ base ∈ testBases, ¬ base ∣ p := by
      intro base hbase hdvd
      rw [(Nat.prime_dvd_prime_iff_eq (prime_of_mem_testBases base hbase) hp).mp hdvd] at hbase
      exact hmem hbase
    have hodd := odd_of_not_dvd_testBases hnone
    refine .inr ⟨hp.one_lt, hnone, fun base hbase => ?_⟩
    rw [isStrongProbablePrime_iff hp.one_lt hodd]
    apply strongProbablePrime_of_prime hp hodd
    intro hdvd
    rw [(Nat.prime_dvd_prime_iff_eq hp (prime_of_mem_testBases base hbase)).mp hdvd] at hmem
    exact hmem hbase

/-- What passes is a prime, or a strong pseudoprime to all bases. -/
theorem prime_or_strongProbablePrime {n : Nat} (h : passesPrimality n = true) :
    n.Prime ∨ (1 < n ∧ ∀ base ∈ testBases, StrongProbablePrime n base) := by
  rcases (passesPrimality_iff n).mp h with hmem | ⟨hn, hnone, hall⟩
  · exact .inl (prime_of_mem_testBases n hmem)
  · have hodd := odd_of_not_dvd_testBases hnone
    exact .inr ⟨hn, fun base hbase => (isStrongProbablePrime_iff hn hodd base).mp (hall base hbase)⟩

theorem one_lt_of_passesPrimality {n : Nat} (h : passesPrimality n = true) : 1 < n := by
  rcases prime_or_strongProbablePrime h with hn | ⟨hn, -⟩
  · exact hn.one_lt
  · exact hn

/-- No composite number below the bound is a strong pseudoprime to all bases. -/
def NoPseudoprimeBelow (bound : Nat) : Prop :=
  ∀ n < bound, 1 < n → (∀ base ∈ testBases, StrongProbablePrime n base) → n.Prime

theorem NoPseudoprimeBelow.prime {bound n : Nat} (h : NoPseudoprimeBelow bound) (hn : n < bound)
    (hpasses : passesPrimality n = true) : n.Prime := by
  rcases prime_or_strongProbablePrime hpasses with hprime | ⟨hone, hall⟩
  · exact hprime
  · exact h n hn hone hall

/-- For a small bound the test itself shows it, since the even numbers have no chance. -/
theorem noPseudoprimeBelow_of_test {bound : Nat}
    (h : ∀ n < bound, 1 < n → n % 2 = 1 →
      (∀ base ∈ testBases, isStrongProbablePrime n base = true) → n.Prime) :
    NoPseudoprimeBelow bound := by
  intro n hn hone hall
  rcases Nat.mod_two_eq_zero_or_one n with heven | hodd
  · exact absurd (hall 2 (by decide)) (not_strongProbablePrime_even heven rfl)
  · exact h n hn hone hodd fun base hbase =>
      (isStrongProbablePrime_iff hone hodd base).mpr (hall base hbase)

/-- A strong pseudoprime to all bases has none of them as a divisor, so it is tested to all of
them and passes. -/
theorem passesPrimality_of_strongProbablePrime {n : Nat} (hn : 1 < n)
    (hall : ∀ base ∈ testBases, StrongProbablePrime n base) : passesPrimality n = true := by
  have hfree : ∀ base ∈ testBases, ¬ base ∣ n := fun base hbase =>
    (prime_of_mem_testBases base hbase).coprime_iff_not_dvd.mp (hall base hbase).coprime
  have hodd := odd_of_not_dvd_testBases hfree
  exact (passesPrimality_iff n).mpr (.inr ⟨hn, hfree, fun base hbase =>
    (isStrongProbablePrime_iff hn hodd base).mpr (hall base hbase)⟩)

/-- The test itself shows how far a bound can be raised. -/
theorem NoPseudoprimeBelow.extend {bound higher : Nat} (h : NoPseudoprimeBelow bound)
    (htest : ∀ n < higher, bound ≤ n → passesPrimality n = true → n.Prime) :
    NoPseudoprimeBelow higher := by
  intro n hn hone hall
  by_cases hlt : n < bound
  · exact h n hlt hone hall
  · exact htest n hn (Nat.le_of_not_lt hlt) (passesPrimality_of_strongProbablePrime hone hall)

theorem mem_testBases_of_prime : ∀ q < 43, q.Prime → q ∈ testBases := by
  decide

/-- A composite number below the square of the prime behind the bases has one of them as a
factor, so it is not coprime to all of them. -/
theorem noPseudoprimeBelow_square : NoPseudoprimeBelow (43 * 43) := by
  intro n hn hone hall
  by_contra hcomposite
  have hprime := Nat.minFac_prime (Nat.ne_of_gt hone)
  have hsquare := Nat.minFac_sq_le_self (Nat.zero_lt_of_lt hone) hcomposite
  have hlt : n.minFac < 43 := by
    by_contra hle
    have := Nat.pow_le_pow_left (Nat.le_of_not_lt hle) 2
    omega
  have hcoprime := (hall n.minFac (mem_testBases_of_prime n.minFac hlt hprime)).coprime
  exact (hprime.coprime_iff_not_dvd.mp hcoprime) (Nat.minFac_dvd n)

/-! ## Arguments -/

/-- An argument outside the 64-bit integers is turned down before it is tested, and every other
one has an answer, which is no for an argument below two. The answer is yes for a prime; it is
yes for nothing else but a number that none of the bases divides and that is a strong
pseudoprime to all of them. So it is right wherever there are no such numbers. -/
theorem isPrime_decides (n : Int) :
    (n < int64Min ∨ int64Max < n → isPrime n = .error (.domain (.outsideInt64 "n" (.int n)))) ∧
    (int64Min ≤ n → n ≤ int64Max → ∃ answer, isPrime n = .ok answer ∧
      (n < 2 → answer = false) ∧ (n.toNat.Prime → answer = true) ∧
      (answer = true → n.toNat.Prime ∨
        1 < n ∧ ∀ base ∈ testBases, ¬ base ∣ n.toNat ∧ StrongProbablePrime n.toNat base) ∧
      ∀ bound : Nat, n < bound → NoPseudoprimeBelow bound →
        (answer = true ↔ n.toNat.Prime)) := by
  unfold isPrime
  rw [Check.requireInt64_int]
  constructor
  · intro houtside
    rw [if_pos houtside]
    rfl
  · intro hmin hmax
    rw [if_neg (by omega)]
    refine ⟨passesPrimality n.toNat, rfl, fun hlt => ?_, passesPrimality_of_prime, fun hpasses => ?_,
      fun bound hbound hnone => ⟨fun hpasses => ?_, passesPrimality_of_prime⟩⟩
    · by_contra hpasses
      have := one_lt_of_passesPrimality (Bool.not_eq_false _ ▸ hpasses)
      omega
    · rcases (passesPrimality_iff _).mp hpasses with hmem | ⟨hone, hfree, hall⟩
      · exact .inl (prime_of_mem_testBases _ hmem)
      · have hodd := odd_of_not_dvd_testBases hfree
        exact .inr ⟨by omega, fun base hbase => ⟨hfree base hbase,
          (isStrongProbablePrime_iff hone hodd base).mp (hall base hbase)⟩⟩
    · have hone := one_lt_of_passesPrimality hpasses
      exact hnone.prime (by omega) hpasses

/-- The first number that only the test to a base turns down is the square of forty-three. The
prime before it has an answer, and so has a number outside the 64-bit integers. -/
theorem isPrime_square :
    isPrime 9223372036854775808 =
        .error (.domain (.outsideInt64 "n" (.int 9223372036854775808))) ∧
      isPrime (-7) = .ok false ∧ isPrime 1847 = .ok true ∧ isPrime 1849 = .ok false := by
  have hrejected : passesPrimality 1849 = false := by decide +kernel
  have hnone : NoPseudoprimeBelow 1850 := noPseudoprimeBelow_square.extend fun n hn hle hpasses => by
    obtain rfl : n = 1849 := by omega
    exact absurd hpasses (by rw [hrejected]; decide)
  have hprime : Nat.Prime 1847 := by norm_num
  have hcomposite : ¬ Nat.Prime 1849 := by norm_num
  obtain ⟨small, hsmall, hbelow, -⟩ := (isPrime_decides (-7)).2 (by decide) (by decide)
  obtain ⟨yes, hyes, -, htrue, -⟩ := (isPrime_decides 1847).2 (by decide) (by decide)
  obtain ⟨no, hno, -, -, -, hiff⟩ := (isPrime_decides 1849).2 (by decide) (by decide)
  have hfalse : no = false := by
    by_contra hne
    exact hcomposite ((hiff 1850 (by decide) hnone).mp (Bool.not_eq_false _ ▸ hne))
  rw [hsmall, hyes, hno, hbelow (by decide), htrue hprime, hfalse]
  exact ⟨(isPrime_decides 9223372036854775808).1 (.inr (by decide)), rfl, rfl, rfl⟩

end NumericActions
