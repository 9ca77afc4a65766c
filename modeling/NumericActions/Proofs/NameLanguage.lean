import NumericActions.Action.Spec
import NumericActions.Contract.Basic
import NumericActions.Proofs.PatternMeaning

/-!
# The language of names

What a name is, is said twice: a specification splits a text at its slashes and looks at
every part, and the contracts look for a pattern in the text. The pattern ends before a line
feed too, so it is found in the names and in the names with one line feed behind them.

* `isName_iff`: the texts that a specification takes for names.
* `readsWords_names`: the pattern between its anchors leads over the names.
* `occursIn_namePattern`: the texts in which the pattern is found.
* `Contract.namePatterns_iff`: both contracts of names, and where they agree with the
  specification.
-/

namespace NumericActions

open Text (Pattern)
open Text.Pattern

/-! ## Segments -/

theorem isNameChar_of_isSegment {part : List Char} (h : isSegment part = true) {c : Char}
    (hc : c ∈ part) : isNameChar c = true := by
  cases part with
  | nil => cases hc
  | cons d cs =>
    obtain ⟨hstart, hall⟩ := Bool.and_eq_true_iff.mp h
    rcases List.mem_cons.mp hc with rfl | hc
    · simp [isNameChar, hstart]
    · exact List.all_eq_true.mp hall c hc

theorem slash_notMem_of_isSegment {part : List Char} (h : isSegment part = true) :
    '/' ∉ part := by
  intro hm
  cases isNameChar_of_isSegment h hm

theorem joinSegments_cons (part : List Char) (parts : List (List Char)) :
    joinSegments (part :: parts) = part ++ (parts.map ('/' :: ·)).flatten := by
  induction parts generalizing part with
  | nil => simp [joinSegments]
  | cons next parts ih => simp [joinSegments, ih]

/-- The texts all of whose parts are segments are the segments with slashes between them. -/
theorem forall_segments_iff (text : List Char) :
    (∀ part ∈ segments text, isSegment part = true) ↔
      ∃ part parts, (∀ p ∈ part :: parts, isSegment p = true) ∧
        text = part ++ (parts.map ('/' :: ·)).flatten := by
  constructor
  · intro h
    cases hs : segments text with
    | nil => exact absurd hs (segments_ne_nil text)
    | cons part parts =>
      refine ⟨part, parts, hs ▸ h, ?_⟩
      rw [← joinSegments_cons, ← hs, joinSegments_segments]
  · rintro ⟨part, parts, h, rfl⟩
    rw [← joinSegments_cons, segments_joinSegments (List.cons_ne_nil part parts)]
    · exact h
    · exact fun p hp => slash_notMem_of_isSegment (h p hp)

theorem isNameChar_or_slash {text : List Char}
    (h : ∀ part ∈ segments text, isSegment part = true) {c : Char} (hc : c ∈ text) :
    isNameChar c = true ∨ c = '/' := by
  obtain ⟨part, parts, hparts, rfl⟩ := (forall_segments_iff text).mp h
  rcases List.mem_append.mp hc with hc | hc
  · exact .inl (isNameChar_of_isSegment (hparts part List.mem_cons_self) hc)
  · obtain ⟨word, hword, hc⟩ := List.mem_flatten.mp hc
    obtain ⟨p, hp, rfl⟩ := List.mem_map.mp hword
    rcases List.mem_cons.mp hc with rfl | hc
    · exact .inr rfl
    · exact .inl (isNameChar_of_isSegment (hparts p (List.mem_cons_of_mem part hp)) hc)

/-! ## Names -/

/-- A text that a specification takes for the name of an action. -/
def IsName (text : String) : Prop := ∃ name, Field.name (.text text) = .ok name

theorem badSegment?_eq_none_iff {text : List Char} :
    badSegment? text = none ↔ ∀ part ∈ segments text, isSegment part = true := by
  simp [badSegment?]

theorem isName_iff {text : String} :
    IsName text ↔ ∀ part ∈ segments text.toList, isSegment part = true := by
  rw [← badSegment?_eq_none_iff]
  unfold IsName
  rw [Field.name_text]
  unfold ActionName.of?
  by_cases hempty : text.isEmpty = true
  · -- an empty text has one part, which is empty too
    obtain rfl : text = "" := String.isEmpty_iff.mp hempty
    simp [badSegment?, segments, isSegment]
  · rw [if_neg hempty]
    split
    · rename_i h
      exact ⟨fun _ => h, fun _ => ⟨_, rfl⟩⟩
    · rename_i segment h
      constructor
      · rintro ⟨name, hname⟩
        cases hname
      · intro hnone
        rw [hnone] at h
        cases h

theorem not_isName_push (text : String) : ¬ IsName (text.push '\n') := by
  intro h
  have hm : '\n' ∈ (text.push '\n').toList := by simp
  rcases isNameChar_or_slash (isName_iff.mp h) hm with hc | hc
  · cases hc
  · cases hc

/-! ## The pattern -/

theorem contains_nameStart (c : Char) :
    [Text.CharRange.between 'a' 'z', .between '0' '9'].any (·.contains c) = isNameStart c := by
  simp [Text.CharRange.contains, isNameStart]

theorem contains_nameChar (c : Char) :
    [Text.CharRange.between 'a' 'z', .between '0' '9', .single '_', .escaped '-'].any
      (·.contains c) = isNameChar c := by
  simp [Text.CharRange.contains, isNameStart, isNameChar, Bool.or_assoc]

theorem readsWords_segment :
    Contract.segmentPattern.ReadsWords fun word => isSegment word = true := by
  have hstart := readsWords_oneOf [.between 'a' 'z', .between '0' '9']
  have hchars := readsWords_repeated_oneOf
    [.between 'a' 'z', .between '0' '9', .single '_', .escaped '-']
  simp only [contains_nameStart] at hstart
  simp only [contains_nameChar] at hchars
  refine (hstart.sequence hchars).congr fun word => ?_
  constructor
  · rintro ⟨u, v, ⟨c, hc, rfl⟩, hv, rfl⟩
    exact Bool.and_eq_true_iff.mpr ⟨hc, hv⟩
  · intro h
    cases word with
    | nil => cases h
    | cons c cs =>
      obtain ⟨hc, hcs⟩ := Bool.and_eq_true_iff.mp h
      exact ⟨[c], cs, ⟨c, hc, rfl⟩, hcs, rfl⟩

/-- The pattern without its anchors. -/
theorem readsWords_names :
    (Pattern.sequence Contract.segmentPattern
      (.repeated (.sequence (.literal '/') Contract.segmentPattern))).ReadsWords
      fun word => ∀ part ∈ segments word, isSegment part = true := by
  have htail := ((readsWords_literal '/').sequence readsWords_segment).repeated
  refine (readsWords_segment.sequence htail).congr fun word => ?_
  rw [forall_segments_iff]
  constructor
  · rintro ⟨part, v, hpart, ⟨words, hwords, rfl⟩, rfl⟩
    -- every further word is a slash and a segment
    refine ⟨part, words.map List.tail, List.forall_mem_cons.mpr ⟨hpart, ?_⟩, ?_⟩
    · intro p hp
      obtain ⟨word, hword, rfl⟩ := List.mem_map.mp hp
      obtain ⟨u, v, rfl, hv, rfl⟩ := hwords word hword
      exact hv
    · have hslash : (words.map List.tail).map ('/' :: ·) = words := by
        rw [List.map_map]
        refine (List.map_congr_left fun word hword => ?_).trans (List.map_id words)
        obtain ⟨u, v, rfl, -, rfl⟩ := hwords word hword
        rfl
      rw [hslash]
  · rintro ⟨part, parts, hparts, rfl⟩
    obtain ⟨hpart, hparts⟩ := List.forall_mem_cons.mp hparts
    refine ⟨part, _, hpart, ⟨parts.map ('/' :: ·), ?_, rfl⟩, rfl⟩
    intro word hword
    obtain ⟨p, hp, rfl⟩ := List.mem_map.mp hword
    exact ⟨['/'], p, rfl, hparts p hp, rfl⟩

theorem occursIn_namePattern {text : String} :
    Contract.namePattern.occursIn text = true ↔
      IsName text ∨ ∃ name, IsName name ∧ text = name.push '\n' := by
  unfold Contract.namePattern
  rw [occursIn_anchored]
  simp only [isName_iff]
  constructor
  · rintro ⟨b, h⟩
    obtain ⟨a, first, rest⟩ := leads_sequence_iff.mp h
    obtain ⟨c, second, last⟩ := leads_sequence_iff.mp rest
    obtain ⟨word, rest, hword, htext, rfl⟩ :=
      (readsWords_names _ _ _).mp (.sequence first second)
    rcases (leads_finish_iff.mp last).1 with hrest | hrest
    · refine .inl ?_
      rwa [htext, show rest = [] from hrest, List.append_nil]
    · refine .inr ⟨String.ofList word, by rwa [String.toList_ofList], ?_⟩
      rw [← String.toList_inj, htext, show rest = ['\n'] from hrest]
      simp
  · have hleads : ∀ word rest, (∀ part ∈ segments word, isSegment part = true) →
        (rest = [] ∨ rest = ['\n']) → ∃ b,
          (Pattern.sequence Contract.segmentPattern (.sequence (.repeated
            (.sequence (.literal '/') Contract.segmentPattern)) .finish)).Leads
            ⟨true, word ++ rest⟩ b := by
      intro word rest hword hrest
      have h := (readsWords_names true _ _).mpr ⟨word, rest, hword, rfl, rfl⟩
      obtain ⟨mid, first, second⟩ := leads_sequence_iff.mp h
      exact ⟨_, .sequence first (.sequence second (leads_finish_iff.mpr ⟨hrest, rfl⟩))⟩
    rintro (h | ⟨name, h, rfl⟩)
    · have h := hleads _ [] h (.inl rfl)
      rwa [List.append_nil] at h
    · have h := hleads _ ['\n'] h (.inr rfl)
      rwa [String.toList_push]

namespace Schema

/-- The patterns that a schema states for the value of a key. -/
def patternsOf (schema : Schema) (key : String) : List Pattern :=
  schema.flatMap fun keyword =>
    match keyword with
    | .properties entries => ((entries.lookup key).getD []).filterMap fun keyword =>
      match keyword with
      | .pattern p => some p
      | _ => none
    | _ => []

end Schema

/-! ## The contracts of names -/

namespace Contract

/-- The contract of specifications and the contract of invocations state one and the same
pattern for a name. It is found in a text exactly if the text is a name or a name with one
line feed behind it. So a contract and the specification agree on all texts but the names
with a line feed behind them. -/
theorem namePatterns_iff (text : String) :
    ∃ p : Pattern, specification.schema.patternsOf "name" = [p] ∧
      invocation.schema.patternsOf "action" = [p] ∧
      p.text = "^[a-z0-9][a-z0-9_\\-]*(/[a-z0-9][a-z0-9_\\-]*)*$" ∧
      (p.occursIn text = true ↔ IsName text ∨ ∃ name, IsName name ∧ text = name.push '\n') ∧
      ((p.occursIn text = true ↔ IsName text) ↔
        ¬ ∃ name, IsName name ∧ text = name.push '\n') := by
  refine ⟨namePattern, rfl, rfl, rfl, occursIn_namePattern, ?_⟩
  rw [occursIn_namePattern]
  constructor
  · rintro h ⟨name, hname, rfl⟩
    exact not_isName_push name (h.mp (.inr ⟨name, hname, rfl⟩))
  · intro h
    exact ⟨fun hor => hor.resolve_right h, .inl⟩

/-- A name with a line feed behind it obeys the contract of invocations and the pattern in
the contract of specifications, but no specification takes it. -/
theorem not_namePatterns_line_feed :
    ∃ p : Pattern, specification.schema.patternsOf "name" = [p] ∧
      invocation.schema.patternsOf "action" = [p] ∧
      p.occursIn "a\n" = true ∧ ¬ IsName "a\n" := by
  refine ⟨namePattern, rfl, rfl, by decide, not_isName_push "a"⟩

end Contract

end NumericActions
