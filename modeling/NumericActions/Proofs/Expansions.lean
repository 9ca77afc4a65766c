import Mathlib.Data.Nat.Size
import NumericActions.Proofs.Nearest
import NumericActions.Summation.Expansion

/-!
# Expansions do not overlap

A number that is swept through the parts of an expansion leaves one remainder at each of
them. The invariant of the sweep is that no two parts overlap: a part is smaller than the
lowest bit of every later one. All parts but the last are rounding errors, so together they
are less than one unit in the last place of the limit, and only the exact sum can make a
sweep overflow.

* `grow_eq`: a sweep by its remainders and what arrives at its end.
* `pairwise_sweep`: a sweep through parts that do not overlap leaves parts that do not.
* `natAbs_value_lt`: parts that do not overlap add up to less than a bound on each of them.
* `Compact.grow`: an expansion grows as long as its exact sum stays in range.
-/

namespace NumericActions.Expansion

open Rounding

/-! ## Rounded sums -/

theorem natAbs_roundUnits (n : Int) : (roundUnits n).natAbs = roundQuotient n.natAbs 1 := by
  unfold roundUnits
  split <;> omega

theorem natAbs_sub_roundUnits (n : Int) :
    (n - roundUnits n).natAbs = ((n.natAbs : Int) - roundQuotient n.natAbs 1).natAbs := by
  unfold roundUnits
  split <;> omega

/-- The remainder of a rounded sum is not greater than either of two addends, if the other
one is on the grid. -/
theorem natAbs_remainder_le {a : Int} (b : Int) (ha : OnGrid a.natAbs) :
    (a + b - roundUnits (a + b)).natAbs ≤ b.natAbs := by
  have h := distance_roundQuotient_le (a + b).natAbs ha
  rw [natAbs_sub_roundUnits]
  omega

theorem two_mul_remainder_le (n : Int) :
    2 * (n - roundUnits n).natAbs ≤ spacing n.natAbs := by
  rw [natAbs_sub_roundUnits]
  exact two_mul_distance_le n.natAbs

theorem spacing_dvd_roundUnits (n : Int) : (spacing n.natAbs : Int) ∣ roundUnits n := by
  rw [Int.natCast_dvd, natAbs_roundUnits]
  exact spacing_dvd_roundQuotient n.natAbs

theorem two_pow_dvd_roundUnits {n : Int} {v : Nat} (h : ((2 ^ v : Nat) : Int) ∣ n) :
    ((2 ^ v : Nat) : Int) ∣ roundUnits n := by
  rw [Int.natCast_dvd] at h ⊢
  rw [natAbs_roundUnits]
  exact two_pow_dvd_roundQuotient h

theorem onGrid_roundUnits (n : Int) : OnGrid (roundUnits n).natAbs := by
  rw [natAbs_roundUnits]
  exact onGrid_roundQuotient _ _

/-! ## Sweeps -/

/-- What a number leaves behind at each of the parts that it is swept through. -/
def remainders (carry : Int) : List Int → List Int
  | [] => []
  | part :: parts =>
    (carry + part - roundUnits (carry + part)) :: remainders (roundUnits (carry + part)) parts

/-- What arrives behind the last of the parts. -/
def swept (carry : Int) : List Int → Int
  | [] => carry
  | part :: parts => swept (roundUnits (carry + part)) parts

/-- A sweep in which no rounded sum reaches the limit leaves its remainders and what arrives
at its end, without the zeros among them. -/
theorem grow_eq {carry : Int} {parts : List Int}
    (h : ∀ before part after, parts = before ++ part :: after →
      (roundUnits (swept carry before + part)).natAbs < magnitudeLimit) :
    grow carry parts =
      some ((remainders carry parts ++ [swept carry parts]).filter fun part => part ≠ 0) := by
  induction parts generalizing carry with
  | nil =>
    simp only [grow, remainders, swept, List.nil_append]
    by_cases hc : carry = 0 <;> simp [hc]
  | cons part parts ih =>
    have hpart : (roundUnits (carry + part)).natAbs < magnitudeLimit := h [] part parts rfl
    have hrest := ih fun before p after hp => h (part :: before) p after (by rw [hp]; rfl)
    simp only [grow, if_neg (Nat.not_le.mpr hpart), hrest, Option.map_some, remainders, swept,
      List.cons_append, List.filter_cons]
    by_cases hlow : carry + part - roundUnits (carry + part) = 0 <;> simp [hlow]

theorem value_append (parts others : List Int) :
    value (parts ++ others) = value parts + value others := by
  induction parts with
  | nil => simp [value]
  | cons part parts ih =>
    simp only [List.cons_append, value, ih]
    omega

/-- A sweep loses nothing. -/
theorem swept_add_remainders (carry : Int) (parts : List Int) :
    swept carry parts + value (remainders carry parts) = carry + value parts := by
  induction parts generalizing carry with
  | nil => rfl
  | cons part parts ih =>
    have := ih (roundUnits (carry + part))
    simp only [swept, remainders, value]
    omega

/-- Every remainder is that of one rounded sum. -/
theorem exists_of_mem_remainders {carry low : Int} {parts : List Int}
    (h : low ∈ remainders carry parts) :
    ∃ before part after, parts = before ++ part :: after ∧
      low = swept carry before + part - roundUnits (swept carry before + part) := by
  induction parts generalizing carry with
  | nil => cases h
  | cons part parts ih =>
    rcases List.mem_cons.mp h with rfl | h
    · exact ⟨[], part, parts, rfl, rfl⟩
    · obtain ⟨before, p, after, hp, hlow⟩ := ih h
      exact ⟨part :: before, p, after, by rw [hp]; rfl, hlow⟩

/-- Zero bits at the end of all numbers stay zero. -/
theorem two_pow_dvd_sweep {carry : Int} {parts : List Int} {v : Nat}
    (hc : ((2 ^ v : Nat) : Int) ∣ carry) (hp : ∀ part ∈ parts, ((2 ^ v : Nat) : Int) ∣ part) :
    ∀ part ∈ remainders carry parts ++ [swept carry parts], ((2 ^ v : Nat) : Int) ∣ part := by
  induction parts generalizing carry with
  | nil =>
    intro part h
    rw [List.mem_singleton.mp h]
    exact hc
  | cons p parts ih =>
    have hn : ((2 ^ v : Nat) : Int) ∣ carry + p := Int.dvd_add hc (hp p (by simp))
    have hr := two_pow_dvd_roundUnits hn
    intro part h
    rcases List.mem_cons.mp h with rfl | h
    · exact Int.dvd_sub hn hr
    · exact ih hr (fun q hq => hp q (List.mem_cons_of_mem p hq)) part h

/-! ## Overlap -/

/-- `a` is smaller than the lowest bit of `b`. -/
def Below (a b : Int) : Prop := ∃ v : Nat, a.natAbs < 2 ^ v ∧ ((2 ^ v : Nat) : Int) ∣ b

theorem below_iff {a b : Int} : Below a b ↔ ((2 ^ a.natAbs.size : Nat) : Int) ∣ b := by
  constructor
  · intro ⟨v, hv, hd⟩
    have hle : a.natAbs.size ≤ v := Nat.size_le.mpr hv
    exact Int.dvd_trans (Int.natCast_dvd_natCast.mpr (Nat.pow_dvd_pow 2 hle)) hd
  · intro h
    exact ⟨a.natAbs.size, Nat.lt_size_self _, h⟩

theorem dvd_value {d : Int} {parts : List Int} (h : ∀ part ∈ parts, d ∣ part) :
    d ∣ value parts := by
  induction parts with
  | nil => exact Int.dvd_zero d
  | cons part parts ih =>
    obtain ⟨hpart, hparts⟩ := List.forall_mem_cons.mp h
    exact Int.dvd_add hpart (ih hparts)

/-- Parts that do not overlap do not carry over a power of two that is above all of
them. -/
theorem natAbs_value_lt {parts : List Int} {v : Nat} (hp : parts.Pairwise Below)
    (hv : ∀ part ∈ parts, part.natAbs < 2 ^ v) : (value parts).natAbs < 2 ^ v := by
  induction parts with
  | nil => exact Nat.two_pow_pos v
  | cons part parts ih =>
    obtain ⟨hbelow, hp⟩ := List.pairwise_cons.mp hp
    obtain ⟨hpart, hv⟩ := List.forall_mem_cons.mp hv
    have hrest := ih hp hv
    have hsize : part.natAbs.size ≤ v := Nat.size_le.mpr hpart
    have hd : 2 ^ part.natAbs.size ∣ (value parts).natAbs :=
      Int.natCast_dvd.mp (dvd_value fun p h => below_iff.mp (hbelow p h))
    have hgap : 2 ^ part.natAbs.size ≤ 2 ^ v - (value parts).natAbs :=
      Nat.le_of_dvd (by omega) (Nat.dvd_sub (Nat.pow_dvd_pow 2 hsize) hd)
    have hlt := Nat.lt_size_self part.natAbs
    simp only [value]
    omega

/-- The remainders of a sweep and what arrives at its end do not overlap, if the parts do
not. -/
theorem pairwise_sweep {carry : Int} {parts : List Int} (hc : OnGrid carry.natAbs)
    (hp : parts.Pairwise Below) :
    (remainders carry parts ++ [swept carry parts]).Pairwise Below := by
  induction parts generalizing carry with
  | nil => exact List.pairwise_singleton _ _
  | cons part parts ih =>
    obtain ⟨hbelow, hp⟩ := List.pairwise_cons.mp hp
    refine List.pairwise_cons.mpr ⟨?_, ih (onGrid_roundUnits _) hp⟩
    -- the remainder is smaller than the part and than the spacing next to the sum
    have hpart := Nat.lt_of_le_of_lt (natAbs_remainder_le part hc) (Nat.lt_size_self _)
    have hhalf := two_mul_remainder_le (carry + part)
    have hspacing := spacing_dvd_roundUnits (carry + part)
    have hpos := spacing_pos (carry + part).natAbs
    have hrest : ∀ p ∈ parts, ((2 ^ part.natAbs.size : Nat) : Int) ∣ p :=
      fun p h => below_iff.mp (hbelow p h)
    unfold spacing at hhalf hspacing hpos
    rcases Nat.le_total part.natAbs.size ((carry + part).natAbs.log2 - 52) with h | h
    · have hdvd := Int.natCast_dvd_natCast.mpr (Nat.pow_dvd_pow 2 h)
      intro q hq
      exact ⟨_, hpart, two_pow_dvd_sweep (Int.dvd_trans hdvd hspacing) hrest q hq⟩
    · have hdvd := Int.natCast_dvd_natCast.mpr (Nat.pow_dvd_pow 2 h)
      intro q hq
      exact ⟨_, by simp only [Nat.pow_eq] at hhalf hpos; omega,
        two_pow_dvd_sweep hspacing (fun p hp => Int.dvd_trans hdvd (hrest p hp)) q hq⟩

/-! ## Bounds -/

theorem spacing_le_two_pow {n e : Nat} (h : n < 2 ^ (e + 53)) : spacing n ≤ 2 ^ e := by
  have hlog : n.log2 - 52 ≤ e := by
    by_cases hn : n = 0
    · subst hn
      exact Nat.zero_le e
    · have := (Nat.log2_lt hn).mpr h
      omega
  exact Nat.pow_le_pow_right (by decide) hlog

theorem natAbs_remainder_lt {n : Int} {e : Nat} (h : n.natAbs < 2 ^ (e + 52) + 2 ^ e) :
    (n - roundUnits n).natAbs < 2 ^ e := by
  have htwo : 2 ^ (e + 53) = 2 * 2 ^ (e + 52) := by ring
  have hone : 2 ^ e ≤ 2 ^ (e + 52) := Nat.pow_le_pow_right (by decide) (Nat.le_add_right e 52)
  have hpos := Nat.two_pow_pos e
  have hhalf := two_mul_remainder_le n
  have hspacing := spacing_le_two_pow (show n.natAbs < 2 ^ (e + 53) by omega)
  omega

theorem natAbs_roundUnits_lt {n : Int} {e : Nat} (h : n.natAbs < 2 ^ (e + 52) + 2 ^ e) :
    (roundUnits n).natAbs < 2 ^ (e + 53) := by
  have hgrid : OnGrid ((2 ^ 52 + 1) * Nat.pow 2 e) := onGrid_mul_two_pow (by decide) e
  have hle : roundQuotient n.natAbs 1 ≤ (2 ^ 52 + 1) * Nat.pow 2 e := by
    refine roundQuotient_le Nat.one_pos hgrid ?_
    calc n.natAbs ≤ 2 ^ (e + 52) + 2 ^ e := Nat.le_of_lt h
      _ = (2 ^ 52 + 1) * Nat.pow 2 e * 1 := by rw [Nat.pow_eq]; ring
  rw [natAbs_roundUnits]
  calc roundQuotient n.natAbs 1 ≤ (2 ^ 52 + 1) * 2 ^ e := hle
    _ < 2 ^ 53 * 2 ^ e := Nat.mul_lt_mul_of_pos_right (by decide) (Nat.two_pow_pos e)
    _ = 2 ^ (e + 53) := by ring

/-- The rounded sums of a sweep stay within one spacing of the exact sums so far. -/
theorem natAbs_swept_add_lt {carry : Int} {parts : List Int} {e : Nat}
    (hc : OnGrid carry.natAbs) (hp : parts.Pairwise Below)
    (hb : ∀ before part after, parts = before ++ part :: after →
      (carry + value (before ++ [part])).natAbs ≤ 2 ^ (e + 52)) :
    ∀ before part after, parts = before ++ part :: after →
      (swept carry before + part).natAbs < 2 ^ (e + 52) + 2 ^ e := by
  intro before
  induction hl : before.length using Nat.strong_induction_on generalizing before with
  | _ length ih =>
    intro part after hparts
    have hsmall : ∀ low ∈ remainders carry before, low.natAbs < 2 ^ e := by
      intro low hlow
      obtain ⟨first, p, rest, hbefore, rfl⟩ := exists_of_mem_remainders hlow
      have hlength : first.length < length := by
        rw [← hl, hbefore, List.length_append, List.length_cons]
        omega
      exact natAbs_remainder_lt (ih first.length hlength first rfl p (rest ++ part :: after)
        (by rw [hparts, hbefore, List.append_assoc, List.cons_append]))
    have hpairs : (remainders carry before).Pairwise Below := by
      have hbefore : before.Pairwise Below :=
        (List.pairwise_append.mp (hparts ▸ hp)).1
      exact (List.pairwise_append.mp (pairwise_sweep hc hbefore)).1
    have hlows := natAbs_value_lt hpairs hsmall
    have hexact := swept_add_remainders carry before
    have hbound := hb before part after hparts
    rw [value_append] at hbound
    simp only [value] at hbound
    omega

/-- An expansion whose parts do not overlap, all of them below `2 ^ e` but the last, and
whose exact sum is bounded. -/
structure Compact (e bound : Nat) (parts : List Int) : Prop where
  spread : parts.Pairwise Below
  small : ∀ part ∈ parts.dropLast, part.natAbs < 2 ^ e
  value_le : (value parts).natAbs ≤ bound

theorem Compact.nil (e bound : Nat) : Compact e bound [] :=
  ⟨.nil, by simp, Nat.zero_le bound⟩

/-- The parts up to any place of a compact expansion add up to little or to all of it. -/
theorem Compact.natAbs_add_value_le {e bound : Nat} {parts : List Int}
    (h : Compact e bound parts) {x : Int} (hx : x.natAbs ≤ 2 ^ e)
    (hsum : bound + x.natAbs ≤ 2 ^ (e + 52)) {before after : List Int} {part : Int}
    (hparts : parts = before ++ part :: after) :
    (x + value (before ++ [part])).natAbs ≤ 2 ^ (e + 52) := by
  have htwo : 2 ^ e + 2 ^ e ≤ 2 ^ (e + 52) := by
    rw [← Nat.two_mul, ← Nat.pow_succ']
    exact Nat.pow_le_pow_right (by decide) (by omega)
  cases after with
  | nil =>
    have hv := h.value_le
    rw [hparts] at hv
    omega
  | cons next after =>
    have hfront : before ++ [part] <+: parts.dropLast := by
      rw [hparts, List.dropLast_append_of_ne_nil (by simp), List.dropLast_cons_of_ne_nil (by simp)]
      exact ⟨(next :: after).dropLast, by simp⟩
    have hfrom : before ++ [part] <+: parts := hfront.trans (List.dropLast_prefix parts)
    have hlt : (value (before ++ [part])).natAbs < 2 ^ e :=
      natAbs_value_lt (h.spread.sublist hfrom.sublist) fun p hp => h.small p (hfront.subset hp)
    omega

theorem mem_of_mem_dropLast_filter {parts : List Int} {last p : Int}
    (h : p ∈ ((parts ++ [last]).filter fun part => part ≠ 0).dropLast) : p ∈ parts := by
  rw [List.filter_append] at h
  by_cases hlast : last = 0
  · have hf : [last].filter (fun part => part ≠ 0) = [] := by simp [hlast]
    rw [hf, List.append_nil] at h
    exact (List.mem_filter.mp (List.dropLast_subset _ h)).1
  · have hf : [last].filter (fun part => part ≠ 0) = [last] := by simp [hlast]
    rw [hf, List.dropLast_concat] at h
    exact (List.mem_filter.mp h).1

/-- No rounded sum reaches the limit before the exact sum does. -/
theorem Compact.grow {e bound bound' : Nat} {parts : List Int} (h : Compact e bound parts)
    (he : 2 ^ (e + 53) ≤ magnitudeLimit) {x : Int} (hgrid : OnGrid x.natAbs)
    (hx : x.natAbs ≤ 2 ^ e) (hb : bound + x.natAbs ≤ bound') (hlimit : bound' ≤ 2 ^ (e + 52)) :
    ∃ grown, grow x parts = some grown ∧ Compact e bound' grown := by
  have hrange := natAbs_swept_add_lt hgrid h.spread fun before part after hparts =>
    h.natAbs_add_value_le hx (Nat.le_trans hb hlimit) hparts
  have hgrow := grow_eq fun before part after hparts =>
    Nat.lt_of_lt_of_le (natAbs_roundUnits_lt (hrange before part after hparts)) he
  refine ⟨_, hgrow, (pairwise_sweep hgrid h.spread).sublist List.filter_sublist, ?_, ?_⟩
  · intro p hp
    obtain ⟨before, part, after, hparts, rfl⟩ :=
      exists_of_mem_remainders (mem_of_mem_dropLast_filter hp)
    exact natAbs_remainder_lt (hrange before part after hparts)
  · have hsum := grow_sum hgrow
    have hvalue := h.value_le
    omega

end NumericActions.Expansion
