import Mathlib.Combinatorics.Pigeonhole
import Mathlib.Data.Nat.ModEq
import Mathlib.Data.Nat.Prime.Basic
import Mathlib.Logic.Function.Iterate
import Mathlib.Tactic.NormNum.Prime
import Mathlib.Tactic.Ring
import NumericActions.Primes.Unbounded

/-!
# The cycle search ends

The values of the map repeat within as many steps as there are residues, so a round that is
long enough compares two equal ones, and the product of its differences has a common divisor
with the number. Taken one by one, the differences of the last batch have it too, since all
products before it were coprime to the number. That the divisor is a proper one depends on
the constant: for `c = t * p - 2` the start is a fixed point modulo the divisor `p`, and for
`t = 1` or for `t = 2` it is none modulo the number.

* `coprime_batch_iff`: what the product of a batch shows.
* `exists_equal_value`: a round over at least `n` steps meets its first value again.
* `rounds_found`: the rounds end within their bound, for every constant.
* `search_eq`: the search without a bound has the value of the bounded one.
* `exists_constant`: a constant with a proper divisor.
* `divisor?_eq`: the search over the constants splits a composite number, with bounds and
  without.
* `splits_of_large_factors`: what every loop comes to for a number that trial division leaves.
-/

namespace NumericActions.Rho

/-! ## The map -/

theorem advance_eq (n c steps y : Nat) : advance n c steps y = (step n c)^[steps] y := by
  induction steps generalizing y with
  | zero => rfl
  | succ steps ih => exact ih (step n c y)

theorem step_lt {n : Nat} (hn : 0 < n) (c y : Nat) : step n c y < n := Nat.mod_lt _ hn

theorem step_modEq {n d : Nat} (h : d ∣ n) (c y : Nat) : step n c y ≡ y * y + c [MOD d] :=
  (Nat.mod_modEq _ n).of_dvd h

/-- A difference shows whether two values agree modulo a divisor. -/
theorem dvd_distance_iff {d x y : Nat} : d ∣ distance x y ↔ x ≡ y [MOD d] := by
  unfold distance
  by_cases h : x < y
  · rw [if_pos h, Nat.modEq_iff_dvd' (Nat.le_of_lt h)]
  · rw [if_neg h, Nat.ModEq.comm, Nat.modEq_iff_dvd' (Nat.le_of_not_lt h)]

/-! ## Repetition -/

theorem iterate_lt {n : Nat} (hn : 2 < n) (c k : Nat) : (step n c)^[k] 2 < n := by
  cases k with
  | zero => exact hn
  | succ k =>
    rw [Function.iterate_succ_apply']
    exact step_lt (by omega) c _

/-- From the value `n` on the values repeat with a period of at most `n`. -/
theorem exists_period {n : Nat} (hn : 2 < n) (c : Nat) :
    ∃ period, 0 < period ∧ period ≤ n ∧
      ∀ k, n ≤ k → (step n c)^[k + period] 2 = (step n c)^[k] 2 := by
  obtain ⟨a, ha, b, hb, hne, hab⟩ := Finset.exists_ne_map_eq_of_card_lt_of_maps_to
    (s := Finset.range (n + 1)) (t := Finset.range n) (by simp)
    (f := fun k => (step n c)^[k] 2) (fun k _ => by simpa using iterate_lt hn c k)
  wlog hlt : a < b generalizing a b
  · exact this b hb a ha hne.symm hab.symm (by omega)
  rw [Finset.mem_range] at ha hb
  refine ⟨b - a, by omega, by omega, fun k hk => ?_⟩
  calc (step n c)^[k + (b - a)] 2 = (step n c)^[k - a] ((step n c)^[b] 2) := by
        rw [← Function.iterate_add_apply]
        congr 1
        omega
    _ = (step n c)^[k - a] ((step n c)^[a] 2) := by rw [show (step n c)^[b] 2 = _ from hab.symm]
    _ = (step n c)^[k] 2 := by
        rw [← Function.iterate_add_apply]
        congr 1
        omega

/-- A round that begins late enough and is long enough meets its first value again. -/
theorem exists_equal_value {n length : Nat} (hn : 2 < n) (hlength : n ≤ length) (c : Nat) :
    ∃ i < length, (step n c)^[length + (i + 1)] ((step n c)^[2 * length - 2] 2) =
      (step n c)^[2 * length - 2] 2 := by
  obtain ⟨period, hpos, hle, hrepeats⟩ := exists_period hn c
  have hmany (m : Nat) : (step n c)^[2 * length - 2 + m * period] 2 =
      (step n c)^[2 * length - 2] 2 := by
    induction m with
    | zero => rw [Nat.zero_mul, Nat.add_zero]
    | succ m ih =>
      rw [Nat.succ_mul m period, ← Nat.add_assoc, hrepeats _ (by omega), ih]
  -- the first multiple of the period behind the part of the round that is passed over
  have hdiv := Nat.div_add_mod length period
  have hmod := Nat.mod_lt length hpos
  have hmul : (length / period + 1) * period = period * (length / period) + period := by
    rw [Nat.succ_mul, Nat.mul_comm]
  refine ⟨(length / period + 1) * period - (length + 1), by omega, ?_⟩
  rw [← Function.iterate_add_apply, ← hmany (length / period + 1)]
  congr 1
  omega

/-! ## Batches -/

/-- The product of a batch is coprime to the number if and only if all of its differences
are. -/
theorem coprime_batch_iff (n c x steps y product : Nat) :
    Nat.Coprime (batch n c x steps y product).2 n ↔
      Nat.Coprime product n ∧
        ∀ i < steps, Nat.Coprime (distance x ((step n c)^[i + 1] y)) n := by
  induction steps generalizing y product with
  | zero => simp [batch]
  | succ steps ih =>
    have hproduct : Nat.Coprime (product * distance x (step n c y) % n) n ↔
        Nat.Coprime product n ∧ Nat.Coprime (distance x (step n c y)) n := by
      rw [Nat.Coprime, ← Nat.gcd_rec, Nat.gcd_comm]
      exact Nat.coprime_mul_iff_left
    unfold batch
    dsimp only
    rw [ih, hproduct, and_assoc, Nat.forall_lt_succ_left]
    rfl

theorem batch_fst (n c x steps y product : Nat) :
    (batch n c x steps y product).1 = (step n c)^[steps] y := by
  induction steps generalizing y product with
  | zero => rfl
  | succ steps ih => exact ih (step n c y) _

/-- The common divisor of a place is that of its product and the number. -/
def Place.Consistent (n : Nat) (place : Place) : Prop :=
  place.divisor = Nat.gcd place.product n

/-- What a stretch over `left` steps from a place without a common divisor has reached: the
end of the stretch, with all differences coprime to the number, or a batch with one that is
not. -/
structure Reaches (n c x left : Nat) (place reached : Place) : Prop where
  consistent : reached.Consistent n
  passed : reached.divisor = 1 → reached.y = (step n c)^[left] place.y ∧
    ∀ i < left, Nat.Coprime (distance x ((step n c)^[i + 1] place.y)) n
  found : reached.divisor ≠ 1 →
    ∃ i < batchSize, ¬ Nat.Coprime (distance x ((step n c)^[i + 1] reached.start)) n

theorem stretch_zero (n c x : Nat) (place : Place) :
    Unbounded.stretch n c x 0 place = place := by
  unfold Unbounded.stretch
  rw [if_pos (.inl rfl)]

/-- A stretch stops at a place with a common divisor. -/
theorem stretch_of_ne_one (n c x left : Nat) {place : Place} (h : place.divisor ≠ 1) :
    Unbounded.stretch n c x left place = place := by
  unfold Unbounded.stretch
  rw [if_pos (.inr h)]

theorem reaches_stretch (n c x left : Nat) {place : Place} (hplace : place.Consistent n)
    (hone : place.divisor = 1) : Reaches n c x left place (Unbounded.stretch n c x left place) := by
  fun_induction Unbounded.stretch n c x left place with
  | case1 left place h =>
    have hleft : left = 0 := h.resolve_right fun hne => hne hone
    subst hleft
    exact ⟨hplace, fun _ => ⟨rfl, fun i hi => absurd hi (Nat.not_lt_zero i)⟩,
      fun hne => absurd hone hne⟩
  | case2 left place h y product hbatch ih =>
    have hy : y = (step n c)^[min batchSize left] place.y := by
      rw [← batch_fst n c x _ place.y place.product, hbatch]
    have hiff := coprime_batch_iff n c x (min batchSize left) place.y place.product
    rw [hbatch] at hiff
    have hproduct : Nat.Coprime place.product n := hplace.symm.trans hone
    by_cases hnext : Nat.gcd product n = 1
    · obtain ⟨hconsistent, hpassed, hfound⟩ := ih rfl hnext
      refine ⟨hconsistent, fun hreached => ?_, hfound⟩
      obtain ⟨hrest, hcoprime⟩ := hpassed hreached
      dsimp only at hrest hcoprime
      constructor
      · rw [hrest, hy, ← Function.iterate_add_apply]
        congr 1
        omega
      · intro i hi
        by_cases hbefore : i < min batchSize left
        · exact (hiff.mp hnext).2 i hbefore
        · have hlater := hcoprime (i - min batchSize left) (by omega)
          rw [hy, ← Function.iterate_add_apply] at hlater
          rwa [show i - min batchSize left + 1 + min batchSize left = i + 1 by omega] at hlater
    · rw [stretch_of_ne_one n c x _ hnext]
      refine ⟨rfl, fun hreached => absurd hreached hnext, fun _ => ?_⟩
      by_contra hnone
      push Not at hnone
      exact hnext (hiff.mpr ⟨hproduct, fun i hi => hnone i (by omega)⟩)

/-- So many batches are enough for a stretch. -/
theorem stretch_eq (n c x : Nat) {batches left : Nat} (h : left ≤ batches * batchSize)
    (place : Place) : stretch n c x batches left place = Unbounded.stretch n c x left place := by
  induction batches generalizing left place with
  | zero =>
    have hleft : left = 0 := by omega
    subst hleft
    rw [stretch_zero]
    rfl
  | succ batches ih =>
    unfold stretch Unbounded.stretch
    by_cases hstop : left = 0 ∨ place.divisor ≠ 1
    · rw [if_pos hstop, if_pos hstop]
    · rw [if_neg hstop, if_neg hstop]
      rw [Nat.succ_mul] at h
      exact ih (by omega) _

/-! ## Rounds -/

/-- A round passes over as many values as it compares. -/
theorem reaches_round (n c length : Nat) {place : Place} (hplace : place.Consistent n)
    (hone : place.divisor = 1) :
    Reaches n c place.y length
      ⟨place.start, (step n c)^[length] place.y, place.product, place.divisor⟩
      (Unbounded.round n c length place) := by
  rw [← advance_eq]
  exact reaches_stretch n c place.y length hplace hone

/-- A round over at least `n` steps ends with a common divisor. -/
theorem divisor_round_ne_one {n c length : Nat} (hn : 2 < n) (hlength : n ≤ length)
    {place : Place} (hy : place.y = (step n c)^[2 * length - 2] 2)
    (hplace : place.Consistent n) (hone : place.divisor = 1) :
    (Unbounded.round n c length place).divisor ≠ 1 := by
  intro hreached
  obtain ⟨-, hcoprime⟩ := (reaches_round n c length hplace hone).passed hreached
  obtain ⟨i, hi, hequal⟩ := exists_equal_value hn hlength c
  have hzero : distance place.y ((step n c)^[i + 1] ((step n c)^[length] place.y)) = 0 := by
    rw [← Function.iterate_add_apply, Nat.add_comm (i + 1), hy, hequal]
    unfold distance
    rw [if_neg (Nat.lt_irrefl _), Nat.sub_self]
  have hgcd := hcoprime i hi
  dsimp only at hgcd
  rw [hzero, Nat.coprime_zero_left] at hgcd
  omega

/-- A search that has come upon a common divisor, which shows in one of the differences of
its last batch. -/
structure Found (n c : Nat) (x : Nat) (place : Place) : Prop where
  ne_one : place.divisor ≠ 1
  consistent : place.Consistent n
  exists_difference :
    ∃ i < batchSize, ¬ Nat.Coprime (distance x ((step n c)^[i + 1] place.start)) n

theorem rounds_of_ne_one (n c count length x : Nat) {place : Place} (h : place.divisor ≠ 1) :
    rounds n c count length x place = (x, place) := by
  cases count with
  | zero => rfl
  | succ count =>
    unfold rounds
    rw [if_pos h]

theorem rounds_of_one (n c count length x : Nat) {place : Place} (h : place.divisor = 1) :
    rounds n c (count + 1) length x place =
      rounds n c count (2 * length) place.y (Unbounded.round n c length place) := by
  have hbatches : length ≤ (length / batchSize + 1) * batchSize := by
    have hpos : 0 < batchSize := by decide
    exact Nat.le_of_lt (Nat.lt_mul_of_div_lt (Nat.lt_succ_self _) hpos)
  conv => lhs; unfold rounds
  rw [if_neg (not_not_intro h)]
  dsimp only
  rw [stretch_eq n c place.y hbatches]
  rfl

/-- The rounds from a place at which nothing has been found end with a common divisor, for the
length doubles with every round. -/
theorem rounds_found {n c count length : Nat} (hn : 2 < n) (hlength : 0 < length)
    (hcount : n ≤ length * 2 ^ count) (x : Nat) {place : Place}
    (hy : place.y = (step n c)^[2 * length - 2] 2) (hplace : place.Consistent n)
    (hone : place.divisor = 1) :
    Found n c (rounds n c (count + 1) length x place).1
      (rounds n c (count + 1) length x place).2 := by
  induction count generalizing length x place with
  | zero =>
    have hlong : n ≤ length := by rwa [Nat.pow_zero, Nat.mul_one] at hcount
    have hne := divisor_round_ne_one hn hlong hy hplace hone
    have hreaches := reaches_round n c length hplace hone
    rw [rounds_of_one n c 0 length x hone, rounds_of_ne_one n c 0 _ _ hne]
    exact ⟨hne, hreaches.consistent, hreaches.found hne⟩
  | succ count ih =>
    have hreaches := reaches_round n c length hplace hone
    rw [rounds_of_one n c (count + 1) length x hone]
    by_cases hreached : (Unbounded.round n c length place).divisor = 1
    · obtain ⟨hrest, -⟩ := hreaches.passed hreached
      refine ih (by omega) (by rwa [Nat.pow_succ', ← Nat.mul_assoc, Nat.mul_comm length] at hcount)
        place.y ?_ hreaches.consistent hreached
      rw [hrest, hy, ← Function.iterate_add_apply, ← Function.iterate_add_apply]
      congr 1
      omega
    · rw [rounds_of_ne_one n c _ _ _ hreached]
      exact ⟨hreached, hreaches.consistent, hreaches.found hreached⟩

theorem rounds_eq {n c count length x : Nat} {place : Place}
    (h : (rounds n c count length x place).2.divisor ≠ 1) :
    Unbounded.rounds n c length x place = Part.some (rounds n c count length x place) := by
  induction count generalizing length x place with
  | zero =>
    have hne : place.divisor ≠ 1 := h
    refine Unbounded.loop_of_result ?_
    dsimp only
    rw [if_pos hne]
    rfl
  | succ count ih =>
    by_cases hone : place.divisor = 1
    · rw [rounds_of_one n c count length x hone] at h ⊢
      rw [← ih h]
      refine Unbounded.loop_of_next ?_
      dsimp only
      rw [if_neg (not_not_intro hone)]
    · rw [rounds_of_ne_one n c (count + 1) length x hone]
      refine Unbounded.loop_of_result ?_
      dsimp only
      rw [if_pos hone]

/-! ## Single steps -/

/-- The single steps end at the first difference that is not coprime to the number. -/
theorem replay_eq {n c x steps y : Nat}
    (h : ∃ i < steps, ¬ Nat.Coprime (distance x ((step n c)^[i + 1] y)) n) :
    Unbounded.replay n c x y = Part.some (replay n c x steps y) ∧
      replay n c x steps y ≠ 1 ∧ replay n c x steps y ∣ n := by
  induction steps generalizing y with
  | zero =>
    obtain ⟨i, hi, -⟩ := h
    exact absurd hi (Nat.not_lt_zero i)
  | succ steps ih =>
    unfold replay
    dsimp only
    by_cases hone : Nat.gcd (distance x (step n c y)) n = 1
    · have hrest : ∃ i < steps, ¬ Nat.Coprime (distance x ((step n c)^[i + 1] (step n c y))) n := by
        obtain ⟨i, hi, hne⟩ := h
        cases i with
        | zero => exact absurd hone hne
        | succ i => exact ⟨i, by omega, hne⟩
      obtain ⟨hvalue, hne, hdvd⟩ := ih hrest
      rw [if_neg (not_not_intro hone)]
      refine ⟨?_, hne, hdvd⟩
      rw [← hvalue]
      refine Unbounded.loop_of_next ?_
      rw [if_neg (not_not_intro hone)]
    · rw [if_pos hone]
      refine ⟨?_, hone, Nat.gcd_dvd_right _ _⟩
      refine Unbounded.loop_of_result ?_
      rw [if_pos hone]

/-- The single steps deliver the common divisor of the first difference that is not coprime to
the number. -/
theorem replay_of_first {n c x y k : Nat}
    (hbefore : ∀ i < k, Nat.Coprime (distance x ((step n c)^[i + 1] y)) n)
    (hk : ¬ Nat.Coprime (distance x ((step n c)^[k + 1] y)) n) :
    Unbounded.replay n c x y =
      Part.some (Nat.gcd (distance x ((step n c)^[k + 1] y)) n) := by
  induction k generalizing y with
  | zero =>
    refine Unbounded.loop_of_result ?_
    rw [if_pos (show Nat.gcd (distance x (step n c y)) n ≠ 1 from hk)]
    rfl
  | succ k ih =>
    have hone : Nat.gcd (distance x (step n c y)) n = 1 := hbefore 0 (Nat.succ_pos k)
    have hrest := ih (y := step n c y) (fun i hi => hbefore (i + 1) (Nat.succ_lt_succ hi)) hk
    rw [Function.iterate_succ_apply, ← hrest]
    refine Unbounded.loop_of_next ?_
    rw [if_neg (not_not_intro hone)]

/-! ## The search -/

theorem exists_rounds {n : Nat} (hn : 2 < n) (c : Nat) :
    ∃ x place, rounds n c (n.log2 + 2) 1 2 ⟨2, 2, 1, 1⟩ = (x, place) ∧
      Unbounded.rounds n c 1 2 ⟨2, 2, 1, 1⟩ = Part.some (x, place) ∧ Found n c x place := by
  have hcount : n ≤ 1 * 2 ^ (n.log2 + 1) := by
    rw [Nat.one_mul]
    exact Nat.le_of_lt Nat.lt_log2_self
  have hstart : Place.Consistent n ⟨2, 2, 1, 1⟩ := (Nat.gcd_one_left n).symm
  have hfound : Found n c _ _ := rounds_found hn Nat.one_pos hcount 2 rfl hstart rfl
  exact ⟨_, _, rfl, rounds_eq hfound.ne_one, hfound⟩

/-- For every constant the search ends, with a divisor other than one. -/
theorem search_eq {n : Nat} (hn : 2 < n) (c : Nat) :
    Unbounded.search n c = Part.some (search? n c) ∧ search? n c ≠ 1 ∧ search? n c ∣ n := by
  obtain ⟨x, place, hrounds, hunbounded, hne, hconsistent, hdifference⟩ := exists_rounds hn c
  obtain ⟨hreplay, hreplayne, hreplaydvd⟩ := replay_eq hdifference
  unfold Unbounded.search search?
  rw [hunbounded, hrounds, Part.bind_eq_bind, Part.bind_some]
  dsimp only
  by_cases hself : place.divisor = n
  · rw [if_pos hself, if_pos hself]
    exact ⟨hreplay, hreplayne, hreplaydvd⟩
  · rw [if_neg hself, if_neg hself]
    refine ⟨rfl, hne, ?_⟩
    rw [hconsistent]
    exact Nat.gcd_dvd_right _ _

/-- The rounds with any constant end with a common divisor. Among the values of the last batch there
is a first one whose difference from `x` has a common divisor with the number by itself, and there
the single steps end. -/
theorem exists_rounds_replay {n : Nat} (hn : 2 < n) (c : Nat) :
    ∃ x place, Unbounded.rounds n c 1 2 ⟨2, 2, 1, 1⟩ = Part.some (x, place) ∧
      place.divisor = Nat.gcd place.product n ∧ 1 < place.divisor ∧
      ∃ k < batchSize, 1 < Nat.gcd (distance x ((step n c)^[k + 1] place.start)) n ∧
        Unbounded.replay n c x place.start =
          Part.some (Nat.gcd (distance x ((step n c)^[k + 1] place.start)) n) := by
  obtain ⟨x, place, -, hunbounded, hne, hconsistent, hdifference⟩ := exists_rounds hn c
  have hgcd : ∀ a, Nat.gcd a n ≠ 1 → 1 < Nat.gcd a n := by
    intro a ha
    have := Nat.gcd_pos_of_pos_right a (show 0 < n by omega)
    omega
  classical
  obtain ⟨hlt, hfirst⟩ := Nat.find_spec hdifference
  refine ⟨x, place, hunbounded, hconsistent, ?_, _, hlt, hgcd _ hfirst,
    replay_of_first (fun i hi => ?_) hfirst⟩
  · rw [hconsistent] at hne ⊢
    exact hgcd _ hne
  · by_contra hnot
    exact Nat.find_min hdifference hi ⟨Nat.lt_trans hi hlt, hnot⟩

/-! ## A constant with a proper divisor -/

/-- The common divisor that the first round looks at: it compares the start with the value two
steps on. -/
def firstDivisor (n c : Nat) : Nat := Nat.gcd (distance 2 (step n c (step n c 2))) n

theorem divisor_first_round (n c : Nat) :
    (Unbounded.round n c 1 ⟨2, 2, 1, 1⟩).divisor = firstDivisor n c := by
  have hsteps : min batchSize 1 = 1 := by decide
  have hleft : 1 - batchSize = 0 := by decide
  unfold Unbounded.round Unbounded.stretch
  rw [if_neg (by simp), hsteps, hleft]
  simp only [batch, advance, stretch_zero, Nat.one_mul, ← Nat.gcd_rec]
  exact Nat.gcd_comm n _

theorem search?_of_first_round {n c : Nat} (hone : firstDivisor n c ≠ 1)
    (hself : firstDivisor n c ≠ n) : search? n c = firstDivisor n c := by
  rw [← divisor_first_round] at hone hself ⊢
  unfold search?
  rw [rounds_of_one n c (n.log2 + 1) 1 2 rfl, rounds_of_ne_one n c _ _ _ hone]
  dsimp only
  rw [if_neg hself]

/-- With the constant `q - 2` the value two steps on is `2 + q * (q + 5)`. -/
theorem two_steps_modEq {n c q : Nat} (hc : c + 2 = q) :
    step n c (step n c 2) ≡ 2 + q * (q + 5) [MOD n] := by
  have hfirst : step n c 2 ≡ q + 2 [MOD n] := by
    rw [show q + 2 = 2 * 2 + c by omega]
    exact step_modEq dvd_rfl c 2
  calc step n c (step n c 2) ≡ step n c 2 * step n c 2 + c [MOD n] := step_modEq dvd_rfl c _
    _ ≡ (q + 2) * (q + 2) + c [MOD n] := (hfirst.mul hfirst).add_right c
    _ = 2 + q * (q + 5) := by
      subst hc
      ring

/-- With this constant the first round shows the divisors of `q * (q + 5)`. -/
theorem dvd_firstDivisor_iff {n c q d : Nat} (hc : c + 2 = q) (hd : d ∣ n) :
    d ∣ firstDivisor n c ↔ d ∣ q * (q + 5) := by
  have hsteps := (two_steps_modEq (n := n) hc).of_dvd hd
  have hcancel : 2 ≡ step n c (step n c 2) [MOD d] ↔ 2 + 0 ≡ 2 + q * (q + 5) [MOD d] :=
    ⟨fun h => h.trans hsteps, fun h => h.trans hsteps.symm⟩
  have hzero : 2 + 0 ≡ 2 + q * (q + 5) [MOD d] ↔ q * (q + 5) ≡ 0 [MOD d] :=
    ⟨fun h => (Nat.ModEq.add_left_cancel' 2 h).symm, fun h => Nat.ModEq.add_left 2 h.symm⟩
  rw [firstDivisor, Nat.dvd_gcd_iff, and_iff_left hd, dvd_distance_iff, hcancel, hzero,
    Nat.modEq_zero_iff_dvd]

/-- With the constant `t * p - 2` the first round finds a multiple of `p`, and the number
itself only if the cofactor divides `t * (t * p + 5)`. -/
theorem search?_ne_self {p m t c : Nat} (hp : 1 < p) (hc : c + 2 = t * p)
    (hdvd : ¬ m ∣ t * (t * p + 5)) : search? (p * m) c ≠ p * m := by
  have hpdvd : p ∣ firstDivisor (p * m) c :=
    (dvd_firstDivisor_iff hc (dvd_mul_right p m)).mpr ((dvd_mul_left p t).mul_right _)
  have hone : firstDivisor (p * m) c ≠ 1 := fun h =>
    Nat.not_lt_of_le (Nat.le_of_dvd Nat.one_pos (h ▸ hpdvd)) hp
  have hself : firstDivisor (p * m) c ≠ p * m := by
    intro h
    have hmul := (dvd_firstDivisor_iff hc dvd_rfl).mp (dvd_of_eq h.symm)
    rw [Nat.mul_comm t p, Nat.mul_assoc, Nat.mul_comm p t] at hmul
    exact hdvd (Nat.dvd_of_mul_dvd_mul_left (by omega) hmul)
  rw [search?_of_first_round hone hself]
  exact hself

/-- Of the constants `p - 2` and `2 * p - 2` one does not find the number itself, unless the
cofactor is even or five. -/
theorem exists_constant {p m : Nat} (hp : 3 ≤ p) (hm : 1 < m) (hodd : m % 2 = 1) (hfive : m ≠ 5) :
    ∃ c, 0 < c ∧ c ≤ p * m ∧ search? (p * m) c ≠ p * m := by
  have htwice : p * 2 ≤ p * m := Nat.mul_le_mul_left p hm
  by_cases hdvd : m ∣ 1 * (1 * p + 5)
  · refine ⟨2 * p - 2, by omega, by omega, ?_⟩
    refine search?_ne_self (t := 2) (by omega) (by omega) fun htwo => hfive ?_
    have hcoprime : Nat.Coprime m 2 := Nat.coprime_two_right.mpr (Nat.odd_iff.mpr hodd)
    have hsum : m ∣ 2 * p + 5 := hcoprime.dvd_of_dvd_mul_left htwo
    have hdouble : m ∣ 2 * p + 5 + 5 := by
      have := Dvd.dvd.mul_left hdvd 2
      rwa [show 2 * (1 * (1 * p + 5)) = 2 * p + 5 + 5 by ring] at this
    have hdvdfive : m ∣ 5 := (Nat.dvd_add_right hsum).mp hdouble
    exact ((Nat.dvd_prime Nat.prime_five).mp hdvdfive).resolve_left (by omega)
  · exact ⟨p - 2, by omega, by omega, search?_ne_self (t := 1) (by omega) (by omega) hdvd⟩

/-! ## A proper divisor -/

/-- The searches go on to the first constant that does not find the number itself. -/
theorem divisorFrom?_eq {n constants first c : Nat} (hn : 2 < n) (hfirst : first ≤ c)
    (hc : c < first + constants) (hsearch : search? n c ≠ n) :
    ∃ d, divisorFrom? n constants first = some d ∧ Unbounded.divisor n first = Part.some d := by
  induction constants generalizing first with
  | zero => omega
  | succ constants ih =>
    obtain ⟨hunbounded, hne, hdvd⟩ := search_eq hn first
    unfold divisorFrom?
    dsimp only
    by_cases hself : search? n first = n
    · have hlater : first ≠ c := fun h => hsearch (h ▸ hself)
      obtain ⟨d, hbounded, hpartial⟩ := ih (show first + 1 ≤ c by omega) (by omega)
      rw [if_neg fun h => Nat.ne_of_lt h.2.1 hself]
      refine ⟨d, hbounded, ?_⟩
      rw [← hpartial]
      refine Unbounded.loop_of_next ?_
      rw [hunbounded, Part.map_some, if_neg (not_not_intro hself)]
    · have hpos : 0 < search? n first := Nat.pos_of_dvd_of_pos hdvd (by omega)
      have hle : search? n first ≤ n := Nat.le_of_dvd (by omega) hdvd
      rw [if_pos ⟨by omega, by omega, Nat.mod_eq_zero_of_dvd hdvd⟩]
      refine ⟨_, rfl, Unbounded.loop_of_result ?_⟩
      rw [hunbounded, Part.map_some, if_pos hself]

/-- For a product of two factors of which the second is odd and not five a proper divisor is
found, with bounds and without. -/
theorem divisor?_eq {p m : Nat} (hp : 3 ≤ p) (hm : 1 < m) (hodd : m % 2 = 1) (hfive : m ≠ 5) :
    ∃ d, divisor? (p * m) = some d ∧ Unbounded.divisor (p * m) 1 = Part.some d := by
  obtain ⟨c, hpos, hle, hsearch⟩ := exists_constant hp hm hodd hfive
  have htwice : p * 2 ≤ p * m := Nat.mul_le_mul_left p hm
  exact divisorFrom?_eq (by omega) hpos (by omega) hsearch

/-! ## Composite numbers without small factors -/

theorem exists_odd_cofactor {n : Nat} (hodd : n % 2 = 1) (hone : 1 < n) (hcomposite : ¬ n.Prime)
    (hlarge : ∀ p, p.Prime → p ∣ n → 1000 < p) :
    ∃ p m, n = p * m ∧ 3 ≤ p ∧ 1 < m ∧ m % 2 = 1 ∧ m ≠ 5 := by
  have hprime := Nat.minFac_prime (Nat.ne_of_gt hone)
  have hp := hlarge n.minFac hprime (Nat.minFac_dvd n)
  obtain ⟨m, hm⟩ := Nat.minFac_dvd n
  refine ⟨n.minFac, m, hm, by omega, ?_, ?_, ?_⟩
  · by_contra hle
    have hcases : m = 0 ∨ m = 1 := by omega
    rcases hcases with rfl | rfl
    · omega
    · rw [Nat.mul_one] at hm
      exact hcomposite (hm ▸ hprime)
  · have hmod := Nat.mul_mod n.minFac m 2
    rw [← hm, hodd] at hmod
    by_contra heven
    rw [show m % 2 = 0 by omega, Nat.mul_zero] at hmod
    exact absurd hmod (by decide)
  · rintro rfl
    have := hlarge 5 Nat.prime_five ⟨n.minFac, by rw [Nat.mul_comm]; exact hm⟩
    omega

/-- What the search comes to for a number that it splits. -/
structure Splits (n : Nat) : Prop where
  /-- With every constant the rounds end with a common divisor of the product of a batch and the
  number. From the start of that batch and with the same `x` the single steps end as well, within
  the length of a batch and with a common divisor of one difference. -/
  ends : ∀ c, ∃ x place, Unbounded.rounds n c 1 2 ⟨2, 2, 1, 1⟩ = Part.some (x, place) ∧
    place.divisor = Nat.gcd place.product n ∧ 1 < place.divisor ∧
    ∃ k < batchSize, 1 < Nat.gcd (distance x ((step n c)^[k + 1] place.start)) n ∧
      Unbounded.replay n c x place.start =
        Part.some (Nat.gcd (distance x ((step n c)^[k + 1] place.start)) n)
  /-- With one of the constants up to the number another divisor than the number is found. -/
  separates : ∃ c, 1 ≤ c ∧ c ≤ n ∧ ∃ d, Unbounded.search n c = Part.some d ∧ d ≠ n
  /-- The search over the constants ends, and what it finds is a proper divisor. -/
  proper : ∃ d, Unbounded.divisor n 1 = Part.some d ∧ divisor? n = some d ∧
    1 < d ∧ d < n ∧ d ∣ n

/-- Every odd composite number without a prime factor up to 1000 is split. -/
theorem splits_of_large_factors {n : Nat} (hodd : n % 2 = 1) (hone : 1 < n)
    (hcomposite : ¬ n.Prime) (hlarge : ∀ p, p.Prime → p ∣ n → 1000 < p) : Splits n := by
  obtain ⟨p, m, rfl, hp, hm, hmodd, hfive⟩ := exists_odd_cofactor hodd hone hcomposite hlarge
  have hn : 2 < p * m := Nat.lt_of_lt_of_le hp (Nat.le_mul_of_pos_right p (by omega))
  refine ⟨exists_rounds_replay hn, ?_, ?_⟩
  · obtain ⟨c, hpos, hle, hne⟩ := exists_constant hp hm hmodd hfive
    exact ⟨c, hpos, hle, search? (p * m) c, (search_eq hn c).1, hne⟩
  · obtain ⟨d, hbounded, hpartial⟩ := divisor?_eq hp hm hmodd hfive
    obtain ⟨hgt, hlt, hmod⟩ := divisor?_proper hbounded
    exact ⟨d, hpartial, hbounded, hgt, hlt, Nat.dvd_of_mod_eq_zero hmod⟩

/-- The square of a prime is split into its two equal factors. -/
theorem splits_square : Splits (1009 * 1009) ∧
    Unbounded.divisor (1009 * 1009) 1 = Part.some 1009 := by
  have hprime : Nat.Prime 1009 := by norm_num
  have hlarge : ∀ p, p.Prime → p ∣ 1009 * 1009 → 1000 < p := by
    intro p hp hdvd
    have heq := (Nat.prime_dvd_prime_iff_eq hp hprime).mp
      ((hp.dvd_mul.mp hdvd).elim id id)
    omega
  have hsplits := splits_of_large_factors (by decide) (by decide)
    (Nat.not_prime_mul (by decide) (by decide)) hlarge
  obtain ⟨d, hd, -, hgt, hlt, hdvd⟩ := hsplits.proper
  refine ⟨hsplits, ?_⟩
  rw [← Nat.pow_two] at hdvd hlt
  obtain ⟨i, hi, rfl⟩ := (Nat.dvd_prime_pow hprime).mp hdvd
  have hpos : i ≠ 0 := by
    rintro rfl
    exact absurd hgt (by decide)
  have hle : i < 2 := (Nat.pow_lt_pow_iff_right (by decide)).mp hlt
  rw [hd, show i = 1 by omega, Nat.pow_one]

end NumericActions.Rho
