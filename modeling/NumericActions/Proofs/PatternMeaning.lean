import NumericActions.Text.Pattern

/-!
# The meaning of patterns

`Pattern.ends` computes with lists of places and repeats a pattern only as long as it gets
on. What it finds is the usual meaning of patterns, and behind anchors and choices stand
words: a pattern without anchors leads over the words of a set, wherever it begins.

* `Pattern.Leads`: the meaning of patterns, one rule for each way to go on.
* `Pattern.mem_ends_iff`: the matcher finds what the rules allow, and nothing else.
* `Pattern.occursIn_anchored`: a pattern that begins at the start of a text is found there
  or not at all.
* `Pattern.ReadsWords`: the words of a pattern without anchors.
-/

namespace NumericActions.Text.Pattern

/-! ## Rules -/

/-- A pattern leads from a place to a place. -/
inductive Leads : Pattern → Place → Place → Prop where
  | start {rest : List Char} : Leads .start ⟨true, rest⟩ ⟨true, rest⟩
  | finish {isStart : Bool} : Leads .finish ⟨isStart, []⟩ ⟨isStart, []⟩
  /-- the place before a line feed that is the last character -/
  | finishFeed {isStart : Bool} : Leads .finish ⟨isStart, ['\n']⟩ ⟨isStart, ['\n']⟩
  | literal {isStart : Bool} {c : Char} {rest : List Char} :
    Leads (.literal c) ⟨isStart, c :: rest⟩ ⟨false, rest⟩
  | oneOf {isStart : Bool} {ranges : List CharRange} {c : Char} {rest : List Char}
    (accepted : ranges.any (·.contains c) = true) :
    Leads (.oneOf ranges) ⟨isStart, c :: rest⟩ ⟨false, rest⟩
  | sequence {p q : Pattern} {a b c : Place} (first : Leads p a b) (second : Leads q b c) :
    Leads (.sequence p q) a c
  | stay {p : Pattern} {a : Place} : Leads (.repeated p) a a
  | again {p : Pattern} {a b c : Place} (once : Leads p a b) (more : Leads (.repeated p) b c) :
    Leads (.repeated p) a c

/-- A pattern that leads to another place leads towards the end of the text. -/
theorem Leads.advances {p : Pattern} {a b : Place} (h : p.Leads a b) :
    b = a ∨ b.rest.length < a.rest.length := by
  induction h with
  | start => exact .inl rfl
  | finish => exact .inl rfl
  | finishFeed => exact .inl rfl
  | literal => exact .inr (Nat.lt_succ_self _)
  | oneOf => exact .inr (Nat.lt_succ_self _)
  | sequence _ _ first second =>
    rcases first with rfl | first
    · exact second
    · rcases second with rfl | second
      · exact .inr first
      · exact .inr (Nat.lt_trans second first)
  | stay => exact .inl rfl
  | again _ _ once more =>
    rcases once with rfl | once
    · exact more
    · rcases more with rfl | more
      · exact .inr once
      · exact .inr (Nat.lt_trans more once)

/-! ## The matcher -/

theorem mem_stepOver_iff {accepts : Char → Bool} {a b : Place} :
    b ∈ stepOver accepts a ↔
      ∃ c rest, a.rest = c :: rest ∧ accepts c = true ∧ b = ⟨false, rest⟩ := by
  obtain ⟨isStart, text⟩ := a
  unfold stepOver
  cases text with
  | nil => simp
  | cons c rest =>
    dsimp only
    split
    · rename_i hc
      constructor
      · intro h
        exact ⟨c, rest, rfl, hc, List.mem_singleton.mp h⟩
      · rintro ⟨d, others, heq, -, rfl⟩
        cases heq
        exact List.mem_singleton_self _
    · rename_i hc
      constructor
      · intro h
        cases h
      · rintro ⟨d, others, heq, hd, -⟩
        cases heq
        exact absurd hd hc

theorem mem_closure_succ_iff {step : Place → List Place} {bound : Nat} {a c : Place} :
    c ∈ closure step (bound + 1) a ↔
      c = a ∨ ∃ b ∈ step a, b.rest.length < a.rest.length ∧ c ∈ closure step bound b := by
  rw [closure]
  simp [and_assoc]

/-- More steps are allowed than needed without harm. -/
theorem mem_closure_of_le {step : Place → List Place} {fewer more : Nat} (hle : fewer ≤ more)
    {a b : Place} (h : b ∈ closure step fewer a) : b ∈ closure step more a := by
  induction fewer generalizing more a with
  | zero =>
    obtain rfl : b = a := by simpa [closure] using h
    cases more with
    | zero => exact h
    | succ more => exact mem_closure_succ_iff.mpr (.inl rfl)
  | succ fewer ih =>
    obtain ⟨more, rfl⟩ := Nat.exists_eq_succ_of_ne_zero (Nat.ne_of_gt (Nat.zero_lt_of_lt hle))
    rcases mem_closure_succ_iff.mp h with rfl | ⟨mid, hmid, hlt, hrest⟩
    · exact mem_closure_succ_iff.mpr (.inl rfl)
    · exact mem_closure_succ_iff.mpr (.inr ⟨mid, hmid, hlt, ih (Nat.le_of_succ_le_succ hle) hrest⟩)

theorem leads_repeated_of_mem_closure {p : Pattern} (hp : ∀ a b, b ∈ p.ends a → p.Leads a b)
    (bound : Nat) {a b : Place} (h : b ∈ closure p.ends bound a) : (repeated p).Leads a b := by
  induction bound generalizing a with
  | zero =>
    obtain rfl : b = a := by simpa [closure] using h
    exact .stay
  | succ bound ih =>
    rcases mem_closure_succ_iff.mp h with rfl | ⟨mid, hmid, -, hrest⟩
    · exact .stay
    · exact .again (hp a mid hmid) (ih hrest)

/-- Everything that the matcher finds is allowed by the rules. -/
theorem leads_of_mem_ends {p : Pattern} {a b : Place} (h : b ∈ p.ends a) : p.Leads a b := by
  induction p generalizing a b with
  | start =>
    obtain ⟨isStart, rest⟩ := a
    cases isStart with
    | false => simp [ends] at h
    | true =>
      obtain rfl : b = ⟨true, rest⟩ := by simpa [ends] using h
      exact .start
  | finish =>
    obtain ⟨isStart, rest⟩ := a
    unfold ends at h
    split at h
    · rename_i hrest
      obtain rfl : b = ⟨isStart, rest⟩ := by simpa using h
      rcases hrest with rfl | rfl
      · exact .finish
      · exact .finishFeed
    · simp at h
  | literal d =>
    obtain ⟨isStart, text⟩ := a
    obtain ⟨c, rest, rfl, hc, rfl⟩ := mem_stepOver_iff.mp h
    obtain rfl : c = d := by simpa using hc
    exact .literal
  | oneOf ranges =>
    obtain ⟨isStart, text⟩ := a
    obtain ⟨c, rest, rfl, hc, rfl⟩ := mem_stepOver_iff.mp h
    exact .oneOf hc
  | sequence p q ihp ihq =>
    obtain ⟨mid, hmid, hb⟩ := List.mem_flatMap.mp h
    exact .sequence (ihp hmid) (ihq hb)
  | repeated p ih => exact leads_repeated_of_mem_closure (fun _ _ => ih) _ h

/-- The matcher finds everything that the rules allow. A repetition that stays where it is
is left out by the matcher, and nothing is lost. -/
theorem Leads.mem_ends {p : Pattern} {a b : Place} (h : p.Leads a b) : b ∈ p.ends a := by
  induction h with
  | start => simp [ends]
  | finish => simp [ends]
  | finishFeed => simp [ends]
  | literal => exact mem_stepOver_iff.mpr ⟨_, _, rfl, by simp, rfl⟩
  | oneOf accepted => exact mem_stepOver_iff.mpr ⟨_, _, rfl, accepted, rfl⟩
  | sequence _ _ first second => exact List.mem_flatMap.mpr ⟨_, first, second⟩
  | @stay p a => exact mem_closure_of_le (Nat.zero_le _) (by simp [closure])
  | @again p a b c once _ hb hc =>
    rcases once.advances with rfl | hlt
    · exact hc
    · obtain ⟨bound, hbound⟩ := Nat.exists_eq_succ_of_ne_zero (Nat.ne_of_gt (Nat.zero_lt_of_lt hlt))
      have hrest : c ∈ closure p.ends bound b := mem_closure_of_le (by omega) hc
      show c ∈ closure p.ends a.rest.length a
      rw [hbound]
      exact mem_closure_succ_iff.mpr (.inr ⟨b, hb, hlt, hrest⟩)

theorem mem_ends_iff {p : Pattern} {a b : Place} : b ∈ p.ends a ↔ p.Leads a b :=
  ⟨leads_of_mem_ends, Leads.mem_ends⟩

theorem leads_sequence_iff {p q : Pattern} {a c : Place} :
    (sequence p q).Leads a c ↔ ∃ b, p.Leads a b ∧ q.Leads b c := by
  constructor
  · intro h
    cases h with
    | sequence first second => exact ⟨_, first, second⟩
  · rintro ⟨b, first, second⟩
    exact .sequence first second

theorem leads_finish_iff {a b : Place} :
    finish.Leads a b ↔ (a.rest = [] ∨ a.rest = ['\n']) ∧ b = a := by
  constructor
  · intro h
    cases h with
    | finish => exact ⟨.inl rfl, rfl⟩
    | finishFeed => exact ⟨.inr rfl, rfl⟩
  · obtain ⟨isStart, rest⟩ := a
    rintro ⟨rfl | rfl, rfl⟩
    · exact .finish
    · exact .finishFeed

/-! ## Anchored patterns -/

theorem isStart_of_mem_laterPlaces {text : List Char} {place : Place}
    (h : place ∈ laterPlaces text) : place.isStart = false := by
  induction text with
  | nil => cases h
  | cons c rest ih =>
    rcases List.mem_cons.mp h with rfl | h
    · rfl
    · exact ih h

theorem occursIn_iff {p : Pattern} {text : String} :
    p.occursIn text = true ↔ ∃ a ∈ places text.toList, ∃ b, p.Leads a b := by
  simp only [occursIn, List.any_eq_true, Bool.not_eq_true', List.isEmpty_eq_false_iff_exists_mem,
    mem_ends_iff]

theorem occursIn_anchored {p : Pattern} {text : String} :
    (sequence .start p).occursIn text = true ↔ ∃ b, p.Leads ⟨true, text.toList⟩ b := by
  rw [occursIn_iff]
  constructor
  · rintro ⟨a, ha, c, h⟩
    obtain ⟨b, first, second⟩ := leads_sequence_iff.mp h
    cases first
    rcases List.mem_cons.mp ha with ha | ha
    · cases ha
      exact ⟨c, second⟩
    · cases isStart_of_mem_laterPlaces ha
  · rintro ⟨b, h⟩
    exact ⟨_, List.mem_cons_self, b, .sequence .start h⟩

/-! ## Words -/

/-- From every place the pattern leads over the given words that begin there, and it leads
nowhere else. -/
def ReadsWords (p : Pattern) (words : List Char → Prop) : Prop :=
  ∀ isStart text b, p.Leads ⟨isStart, text⟩ b ↔
    ∃ word rest, words word ∧ text = word ++ rest ∧ b = ⟨isStart && word.isEmpty, rest⟩

/-- The start is left with the first character that is read. -/
theorem isStart_append (isStart : Bool) (u v : List Char) :
    (isStart && (u ++ v).isEmpty) = (isStart && u.isEmpty && v.isEmpty) := by
  cases u <;> simp

theorem readsWords_literal (c : Char) : (literal c).ReadsWords (· = [c]) := by
  intro isStart text b
  constructor
  · intro h
    cases h with
    | @literal _ _ rest => exact ⟨[c], rest, rfl, rfl, by simp⟩
  · rintro ⟨word, rest, rfl, rfl, rfl⟩
    simpa using Leads.literal

theorem readsWords_oneOf (ranges : List CharRange) :
    (oneOf ranges).ReadsWords fun word =>
      ∃ c, ranges.any (·.contains c) = true ∧ word = [c] := by
  intro isStart text b
  constructor
  · intro h
    cases h with
    | @oneOf _ _ c rest accepted => exact ⟨[c], rest, ⟨c, accepted, rfl⟩, rfl, by simp⟩
  · rintro ⟨word, rest, ⟨c, accepted, rfl⟩, rfl, rfl⟩
    simpa using Leads.oneOf accepted

section

variable {p q : Pattern} {P Q : List Char → Prop}

theorem ReadsWords.sequence (hp : p.ReadsWords P) (hq : q.ReadsWords Q) :
    (sequence p q).ReadsWords fun word => ∃ u v, P u ∧ Q v ∧ word = u ++ v := by
  intro isStart text b
  constructor
  · intro h
    obtain ⟨mid, first, second⟩ := leads_sequence_iff.mp h
    obtain ⟨u, rest, hu, rfl, rfl⟩ := (hp _ _ _).mp first
    obtain ⟨v, rest, hv, rfl, rfl⟩ := (hq _ _ _).mp second
    exact ⟨u ++ v, rest, ⟨u, v, hu, hv, rfl⟩, by simp, by rw [isStart_append]⟩
  · rintro ⟨word, rest, ⟨u, v, hu, hv, rfl⟩, rfl, rfl⟩
    refine .sequence ((hp _ _ _).mpr ⟨u, v ++ rest, hu, by simp, rfl⟩) ?_
    exact (hq _ _ _).mpr ⟨v, rest, hv, rfl, by rw [isStart_append]⟩

/-- A repeated pattern leads over any number of its words, one behind the other. -/
theorem ReadsWords.repeated (hp : p.ReadsWords P) :
    (repeated p).ReadsWords fun word =>
      ∃ parts : List (List Char), (∀ part ∈ parts, P part) ∧ word = parts.flatten := by
  intro isStart text b
  constructor
  · intro h
    generalize hr : Pattern.repeated p = r at h
    generalize ha : (⟨isStart, text⟩ : Place) = a at h
    induction h generalizing isStart text with
    | stay => exact ⟨[], text, ⟨[], by simp, rfl⟩, rfl, by simp [← ha]⟩
    | again once more _ ih =>
      cases hr
      subst ha
      obtain ⟨u, rest, hu, rfl, rfl⟩ := (hp _ _ _).mp once
      obtain ⟨word, rest, ⟨parts, hparts, rfl⟩, rfl, rfl⟩ := ih _ _ rfl rfl
      refine ⟨u ++ parts.flatten, rest, ⟨u :: parts, ?_, rfl⟩, by simp, by rw [isStart_append]⟩
      exact List.forall_mem_cons.mpr ⟨hu, hparts⟩
    | _ => cases hr
  · rintro ⟨word, rest, ⟨parts, hparts, rfl⟩, rfl, rfl⟩
    induction parts generalizing isStart with
    | nil => simpa using Leads.stay
    | cons part parts ih =>
      obtain ⟨hpart, hparts⟩ := List.forall_mem_cons.mp hparts
      have once := (hp isStart _ _).mpr ⟨part, parts.flatten ++ rest, hpart, rfl, rfl⟩
      have more := ih (isStart && part.isEmpty) hparts
      rw [List.flatten_cons, isStart_append, List.append_assoc]
      exact .again once more

theorem ReadsWords.congr (hp : p.ReadsWords P) (h : ∀ word, P word ↔ Q word) :
    p.ReadsWords Q := by
  intro isStart text b
  simp only [hp isStart text b, h]

end

theorem readsWords_repeated_oneOf (ranges : List CharRange) :
    (repeated (oneOf ranges)).ReadsWords fun word =>
      word.all (fun c => ranges.any (·.contains c)) = true := by
  refine (readsWords_oneOf ranges).repeated.congr fun word => ?_
  constructor
  · rintro ⟨parts, hparts, rfl⟩
    refine List.all_eq_true.mpr fun c hc => ?_
    obtain ⟨part, hpart, hc⟩ := List.mem_flatten.mp hc
    obtain ⟨d, accepted, rfl⟩ := hparts part hpart
    rwa [List.mem_singleton.mp hc]
  · intro h
    refine ⟨word.map ([·]), ?_, by rw [← List.flatMap_def, List.flatMap_singleton']⟩
    intro part hpart
    obtain ⟨c, hc, rfl⟩ := List.mem_map.mp hpart
    exact ⟨c, List.all_eq_true.mp h c hc, rfl⟩

end NumericActions.Text.Pattern
