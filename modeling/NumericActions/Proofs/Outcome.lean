/-!
# Outcomes of computations

A computation ends with a result or with a fault. Both are described at once, and the
description of a sequence of computations follows that of its parts.

* `Ends`: what holds of every result and of every fault.
* `ends_bind`, `ends_mapM`, `ends_forM`: sequences and iterations.
* `ends_forM_first`, `forM_of_first_error`: an iteration of checks ends at the first that fails.
* `mapM_of_first_error`, `exists_mapM_ok`, `mapM_eq_ite`: an iteration ends at the first item
  that fails, and has all results when there is none.
-/

namespace NumericActions

variable {ε α β : Type}

/-- Every result of a computation satisfies `P`, and every fault of it satisfies `Q`. -/
structure Ends (x : Except ε α) (Q : ε → Prop) (P : α → Prop) : Prop where
  ok : ∀ a, x = .ok a → P a
  error : ∀ e, x = .error e → Q e

section Ends

variable {Q : ε → Prop} {P P' : α → Prop}

theorem ends_ok {a : α} (h : P a) : Ends (.ok a : Except ε α) Q P := by
  constructor
  · intro b hb
    cases hb
    exact h
  · intro e he
    cases he

theorem ends_pure {a : α} (h : P a) : Ends (pure a : Except ε α) Q P := ends_ok h

theorem ends_error {e : ε} (h : Q e) : Ends (.error e : Except ε α) Q P := by
  constructor
  · intro b hb
    cases hb
  · intro e' he
    cases he
    exact h

theorem ends_bind {R : β → Prop} {x : Except ε α} {f : α → Except ε β} (hx : Ends x Q P)
    (hf : ∀ a, P a → Ends (f a) Q R) : Ends (x >>= f) Q R := by
  cases x with
  | ok a => exact hf a (hx.ok a rfl)
  | error e => exact ends_error (hx.error e rfl)

theorem bind_of_eq_ok {x : Except ε α} {a : α} (h : x = .ok a) (f : α → Except ε β) :
    x >>= f = f a := by
  rw [h]
  rfl

theorem ends_bind_pure {x : Except ε α} (h : Ends x Q P) (f : α → β) :
    Ends (x >>= fun a => pure (f a)) Q fun _ => True := by
  apply ends_bind h
  intro a _
  exact ends_pure trivial

theorem ends_mono {x : Except ε α} (h : Ends x Q P) (hp : ∀ a, P a → P' a) : Ends x Q P' := by
  constructor
  · intro a ha
    exact hp a (h.ok a ha)
  · exact h.error

theorem ends_weaken {x : Except ε α} (h : Ends x Q P) {Q' : ε → Prop} (hq : ∀ e, Q e → Q' e) :
    Ends x Q' P := by
  constructor
  · exact h.ok
  · intro e he
    exact hq e (h.error e he)

theorem ends_mapM {f : α → Except ε β} {R : β → Prop} {xs : List α}
    (h : ∀ x ∈ xs, Ends (f x) Q R) :
    Ends (xs.mapM f) Q fun ys => ys.length = xs.length ∧ ∀ y ∈ ys, R y := by
  induction xs with
  | nil => exact ends_pure ⟨rfl, by simp⟩
  | cons x xs ih =>
    rw [List.mapM_cons]
    apply ends_bind (h x (by simp))
    intro y hy
    have hrest := ih fun z hz => h z (List.mem_cons_of_mem x hz)
    apply ends_bind hrest
    intro ys hys
    refine ends_pure ⟨by simp [hys.1], fun z hz => ?_⟩
    rcases List.mem_cons.mp hz with rfl | hz
    · exact hy
    · exact hys.2 z hz

/-- An iteration of checks fails at the first one that does, and at its end it has made all of
them. -/
theorem ends_forM_first {f : α → Except ε PUnit} {R : α → Prop} {S : α → ε → Prop} {xs : List α}
    (h : ∀ x ∈ xs, Ends (f x) (S x) fun _ => R x) :
    Ends (xs.forM f)
      (fun e => ∃ before x after, xs = before ++ x :: after ∧ (∀ z ∈ before, R z) ∧ S x e)
      fun _ => ∀ x ∈ xs, R x := by
  induction xs with
  | nil => exact ends_pure (by simp)
  | cons x xs ih =>
    have hfirst : ∀ e, S x e → ∃ before y after, x :: xs = before ++ y :: after ∧
        (∀ z ∈ before, R z) ∧ S y e := fun e he => ⟨[], x, xs, rfl, by simp, he⟩
    apply ends_bind (ends_weaken (h x (by simp)) hfirst)
    intro _ hx
    have hrest := ih fun z hz => h z (List.mem_cons_of_mem x hz)
    refine ends_mono (ends_weaken hrest ?_) ?_
    · rintro e ⟨before, y, after, rfl, hbefore, he⟩
      exact ⟨x :: before, y, after, rfl, List.forall_mem_cons.mpr ⟨hx, hbefore⟩, he⟩
    · intro _ hxs
      exact List.forall_mem_cons.mpr ⟨hx, hxs⟩

theorem ends_forM {f : α → Except ε PUnit} {R : α → Prop} {xs : List α}
    (h : ∀ x ∈ xs, Ends (f x) Q fun _ => R x) :
    Ends (xs.forM f) Q fun _ => ∀ x ∈ xs, R x := by
  refine ends_weaken (ends_forM_first (S := fun _ => Q) h) ?_
  rintro e ⟨before, x, after, -, -, he⟩
  exact he

end Ends

theorem forM_eq_ok {f : α → Except ε PUnit} {xs : List α} (h : ∀ x ∈ xs, f x = .ok ⟨⟩) :
    xs.forM f = .ok ⟨⟩ := by
  induction xs with
  | nil => rfl
  | cons x xs ih =>
    have hxs := ih fun z hz => h z (List.mem_cons_of_mem x hz)
    show (f x >>= fun _ => xs.forM f) = _
    rw [h x (by simp), hxs]
    rfl

theorem forM_of_first_error {f : α → Except ε PUnit} {before after : List α} {x : α} {e : ε}
    (hbefore : ∀ z ∈ before, f z = .ok ⟨⟩) (hx : f x = .error e) :
    (before ++ x :: after).forM f = .error e := by
  induction before with
  | nil =>
    show (f x >>= fun _ => after.forM f) = _
    rw [hx]
    rfl
  | cons z before ih =>
    show (f z >>= fun _ => (before ++ x :: after).forM f) = _
    rw [hbefore z (by simp)]
    exact ih fun w hw => hbefore w (List.mem_cons_of_mem z hw)

theorem exists_eq_ok {x : Except ε α} (h : x.isOk) : ∃ a, x = .ok a := by
  cases x with
  | ok a => exact ⟨a, rfl⟩
  | error e => cases h

theorem mapError_eq_ok_iff {ε' : Type} {f : ε → ε'} {x : Except ε α} {a : α} :
    x.mapError f = .ok a ↔ x = .ok a := by
  cases x with
  | error e => exact ⟨nofun, nofun⟩
  | ok b =>
    show Except.ok b = .ok a ↔ Except.ok b = .ok a
    rw [Except.ok.injEq, Except.ok.injEq]

/-! ## The first failure of an iteration -/

theorem exists_mapM_ok {f : α → Except ε β} {xs : List α} (h : ∀ x ∈ xs, ∃ y, f x = .ok y) :
    ∃ ys, xs.mapM f = .ok ys ∧ ys.length = xs.length ∧
      ∀ i (hi : i < xs.length), ∃ y, ys[i]? = some y ∧ f xs[i] = .ok y := by
  induction xs with
  | nil => exact ⟨[], rfl, rfl, fun i hi => absurd hi (Nat.not_lt_zero i)⟩
  | cons x xs ih =>
    obtain ⟨y, hy⟩ := h x (by simp)
    obtain ⟨ys, hm, hl, hi⟩ := ih fun z hz => h z (List.mem_cons_of_mem x hz)
    refine ⟨y :: ys, ?_, by simp [hl], fun i hlt => ?_⟩
    · rw [List.mapM_cons, hy, hm]
      rfl
    · cases i with
      | zero => exact ⟨y, rfl, hy⟩
      | succ i => exact hi i (Nat.lt_of_succ_lt_succ hlt)

theorem mapM_of_first_error {f : α → Except ε β} {before after : List α} {x : α} {e : ε}
    (hbefore : ∀ z ∈ before, ∃ y, f z = .ok y) (hx : f x = .error e) :
    (before ++ x :: after).mapM f = .error e := by
  obtain ⟨ys, hys, -⟩ := exists_mapM_ok hbefore
  rw [List.mapM_append, hys, List.mapM_cons, hx]
  rfl

/-- If an item has a known result or else one fault that is the same for all of them, then so
has the iteration. -/
theorem mapM_eq_ite {f : α → Except ε β} {P : α → Prop} [DecidablePred P] {g : α → β} {e : ε}
    {xs : List α} (h : ∀ x ∈ xs, f x = if P x then .ok (g x) else .error e) :
    xs.mapM f = if ∀ x ∈ xs, P x then .ok (xs.map g) else .error e := by
  induction xs with
  | nil => rfl
  | cons x xs ih =>
    have hx := h x (by simp)
    have hxs := ih fun z hz => h z (List.mem_cons_of_mem x hz)
    rw [List.mapM_cons, hx, hxs]
    by_cases hp : P x
    · by_cases hps : ∀ z ∈ xs, P z
      · rw [if_pos hp, if_pos hps, if_pos (List.forall_mem_cons.mpr ⟨hp, hps⟩)]
        rfl
      · rw [if_pos hp, if_neg hps, if_neg fun hall => hps (List.forall_mem_cons.mp hall).2]
        rfl
    · rw [if_neg hp, if_neg fun hall => hp (List.forall_mem_cons.mp hall).1]
      rfl

end NumericActions
