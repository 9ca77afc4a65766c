/-!
# Patterns

A pattern is looked for at every place of a text. A place is between two characters, so
a pattern leads from a place to all places where it can end.

* `Pattern.ends`: the places where a pattern can end.
* `Pattern.occursIn`: whether it leads anywhere from some place of a text.
* `Pattern.text`: the pattern as it is written.
-/

namespace NumericActions.Text

inductive CharRange where
  | between (first last : Char)
  | single (c : Char)
  /-- a single character that is written behind a backslash -/
  | escaped (c : Char)

namespace CharRange

def contains : CharRange → Char → Bool
  | .between first last, c => first ≤ c && c ≤ last
  | .single d, c => c = d
  | .escaped d, c => c = d

def text : CharRange → List Char
  | .between first last => [first, '-', last]
  | .single c => [c]
  | .escaped c => ['\\', c]

end CharRange

inductive Pattern where
  /-- the place before the first character -/
  | start
  /-- the place behind the last character, or before a line feed that is the last one -/
  | finish
  | literal (c : Char)
  | oneOf (ranges : List CharRange)
  | sequence (first second : Pattern)
  /-- the pattern any number of times -/
  | repeated (p : Pattern)

/-- A place in a text: whether nothing is before it, and the characters behind it. -/
structure Place where
  isStart : Bool
  rest : List Char

namespace Pattern

/-! ## Matching -/

/-- The place behind the next character, which must pass a test. -/
def stepOver (accepts : Char → Bool) (place : Place) : List Place :=
  match place.rest with
  | [] => []
  | c :: rest => if accepts c then [⟨false, rest⟩] else []

/-- The places that at most so many steps lead to. A step that stays where it is leads
to nothing new. -/
def closure (step : Place → List Place) : Nat → Place → List Place
  | 0, place => [place]
  | bound + 1, place =>
    let advanced := (step place).filter fun next => next.rest.length < place.rest.length
    place :: advanced.flatMap (closure step bound)

/-- The places where a pattern that begins at a place can end. -/
def ends : Pattern → Place → List Place
  | .start, place => if place.isStart then [place] else []
  | .finish, place => if place.rest = [] ∨ place.rest = ['\n'] then [place] else []
  | .literal c, place => stepOver (· = c) place
  | .oneOf ranges, place => stepOver (fun c => ranges.any (·.contains c)) place
  | .sequence first second, place => (first.ends place).flatMap second.ends
  | .repeated p, place => closure p.ends place.rest.length place

def laterPlaces : List Char → List Place
  | [] => []
  | _ :: rest => ⟨false, rest⟩ :: laterPlaces rest

def places (text : List Char) : List Place := ⟨true, text⟩ :: laterPlaces text

def occursIn (p : Pattern) (text : String) : Bool :=
  (places text.toList).any fun place => !(p.ends place).isEmpty

/-! ## Written form -/

/-- A pattern as it is written. A sequence that is repeated stands in brackets. -/
def chars : Pattern → List Char
  | .start => ['^']
  | .finish => ['$']
  | .literal c => [c]
  | .oneOf ranges => '[' :: ranges.flatMap CharRange.text ++ [']']
  | .sequence first second => first.chars ++ second.chars
  | .repeated (.sequence first second) => '(' :: first.chars ++ second.chars ++ [')', '*']
  | .repeated p => p.chars ++ ['*']

def text (p : Pattern) : String := String.ofList p.chars

end Pattern

end NumericActions.Text
