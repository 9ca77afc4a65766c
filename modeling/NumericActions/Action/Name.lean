/-!
# Action names

A name is a path of segments with a slash between two of them. A segment has small
letters, digits, underscores and hyphens, and begins with a letter or a digit.

* `joinSegments_segments`, `segments_joinSegments`: a text and its segments determine
  each other.
* `ActionName.of?`: the texts that are names.
* `ActionName.scope`, `ActionName.shortName`: all segments but the last, and the last.
* `qualify`: a short name put into a scope.
-/

namespace NumericActions

/-! ## Segments -/

def consFirst (c : Char) : List (List Char) → List (List Char)
  | [] => [[c]]
  | segment :: rest => (c :: segment) :: rest

/-- The parts of a text between its slashes. There is always at least one. -/
def segments : List Char → List (List Char)
  | [] => [[]]
  | c :: cs => if c = '/' then [] :: segments cs else consFirst c (segments cs)

def joinSegments : List (List Char) → List Char
  | [] => []
  | [segment] => segment
  | segment :: rest => segment ++ '/' :: joinSegments rest

def isNameStart (c : Char) : Bool :=
  ('a' ≤ c && c ≤ 'z') || ('0' ≤ c && c ≤ '9')

def isNameChar (c : Char) : Bool := isNameStart c || c = '_' || c = '-'

def isSegment : List Char → Bool
  | [] => false
  | c :: cs => isNameStart c && cs.all isNameChar

/-- The first part of a text that is not a segment of a name. -/
def badSegment? (text : List Char) : Option (List Char) :=
  (segments text).find? fun segment => !isSegment segment

theorem segments_ne_nil (text : List Char) : segments text ≠ [] := by
  cases text with
  | nil => simp [segments]
  | cons c cs =>
    unfold segments
    split
    · simp
    · unfold consFirst
      split <;> simp

theorem joinSegments_consFirst (c : Char) (parts : List (List Char)) :
    joinSegments (consFirst c parts) = c :: joinSegments parts := by
  cases parts with
  | nil => rfl
  | cons p ps => cases ps <;> rfl

theorem joinSegments_segments (text : List Char) : joinSegments (segments text) = text := by
  induction text with
  | nil => rfl
  | cons c cs ih =>
    unfold segments
    split
    · rename_i hc
      cases hs : segments cs with
      | nil => exact absurd hs (segments_ne_nil cs)
      | cons p ps => rw [joinSegments, ← hs, ih, hc, List.nil_append]; simp
    · rw [joinSegments_consFirst, ih]

theorem segments_of_not_mem {part : List Char} (h : '/' ∉ part) : segments part = [part] := by
  induction part with
  | nil => rfl
  | cons c cs ih =>
    simp only [List.mem_cons, not_or] at h
    rw [segments, if_neg (Ne.symm h.1), ih h.2, consFirst]

theorem segments_append_slash {part : List Char} (h : '/' ∉ part) (text : List Char) :
    segments (part ++ '/' :: text) = part :: segments text := by
  induction part with
  | nil => simp [segments]
  | cons c cs ih =>
    simp only [List.mem_cons, not_or] at h
    rw [List.cons_append, segments, if_neg (Ne.symm h.1), ih h.2, consFirst]

theorem segments_joinSegments {parts : List (List Char)} (hne : parts ≠ [])
    (h : ∀ part ∈ parts, '/' ∉ part) : segments (joinSegments parts) = parts := by
  induction parts with
  | nil => exact absurd rfl hne
  | cons p ps ih =>
    cases ps with
    | nil => exact segments_of_not_mem (h p (by simp))
    | cons q qs =>
      rw [joinSegments, segments_append_slash (h p (by simp)),
        ih (by simp) fun part hp => h part (List.mem_cons_of_mem _ hp)]
      simp

/-! ## Names -/

/-- A text all of whose parts are segments of a name. -/
structure ActionName where
  text : String
  valid : badSegment? text.toList = none
  deriving DecidableEq

namespace ActionName

/-- The name that a text is, or its first part that cannot stand in a name. -/
def of? (text : String) : Except String ActionName :=
  match h : badSegment? text.toList with
  | none => .ok ⟨text, h⟩
  | some segment => .error (String.ofList segment)

/-- All segments but the last. A name of one segment has an empty scope. -/
def scope (name : ActionName) : String :=
  String.ofList (joinSegments (segments name.text.toList).dropLast)

def shortName (name : ActionName) : String :=
  String.ofList ((segments name.text.toList).getLast (segments_ne_nil _))

end ActionName

def defaultScope : String := "math"

/-- A short name in a scope; in the empty scope it stands alone. -/
def qualify (scope short : String) : String :=
  if scope.isEmpty then short else scope ++ "/" ++ short

end NumericActions
