import NumericActions.Text.Printable

/-!
# Quoted text

A text is shown between quotes so that every character of it can be seen: a character
without a visible form is written by its code point in base sixteen. Single quotes are
used unless the text holds a single quote and no double one.

* `escape_of_isPrintable`: a printable character other than the backslash and the quote
  stands for itself.
-/

namespace NumericActions.Text

/-- `n` in base sixteen with at least `width` digits. -/
def hexadecimal (width n : Nat) : List Char :=
  let digits := Nat.toDigits 16 n
  List.replicate (width - digits.length) '0' ++ digits

/-- A code point behind a backslash, with two, four or eight digits as it needs. -/
def escapeCode (n : Nat) : List Char :=
  if n < 0x100 then '\\' :: 'x' :: hexadecimal 2 n
  else if n < 0x10000 then '\\' :: 'u' :: hexadecimal 4 n
  else '\\' :: 'U' :: hexadecimal 8 n

def escape (quote c : Char) : List Char :=
  if c = '\\' ∨ c = quote then ['\\', c]
  else if c = '\n' then ['\\', 'n']
  else if c = '\r' then ['\\', 'r']
  else if c = '\t' then ['\\', 't']
  else if isPrintable c then [c]
  else escapeCode c.toNat

def chooseQuote (cs : List Char) : Char :=
  if cs.contains '\'' && !cs.contains '"' then '"' else '\''

def quotedChars (cs : List Char) : List Char :=
  let quote := chooseQuote cs
  quote :: cs.flatMap (escape quote) ++ [quote]

def quoted (s : String) : String := String.ofList (quotedChars s.toList)

/-- A byte of a byte string: visible characters stand for themselves. -/
def escapeByte (quote : Char) (b : UInt8) : List Char :=
  let c := Char.ofNat b.toNat
  if c = '\\' ∨ c = quote then ['\\', c]
  else if c = '\n' then ['\\', 'n']
  else if c = '\r' then ['\\', 'r']
  else if c = '\t' then ['\\', 't']
  else if 0x20 ≤ b.toNat ∧ b.toNat < 0x7f then [c]
  else '\\' :: 'x' :: hexadecimal 2 b.toNat

def quotedBytes (bytes : List UInt8) : String :=
  let quote := chooseQuote (bytes.map fun b => Char.ofNat b.toNat)
  String.ofList ('b' :: quote :: bytes.flatMap (escapeByte quote) ++ [quote])

theorem escape_of_isPrintable {quote c : Char} (h : isPrintable c = true) (hb : c ≠ '\\')
    (hq : c ≠ quote) : escape quote c = [c] := by
  have hn : ∀ d : Char, d.toNat < 0x20 → c ≠ d := by
    intro d hd hcd
    rw [hcd, not_isPrintable_of_lt hd] at h
    cases h
  simp [escape, h, hb, hq, hn '\n' (by decide), hn '\r' (by decide), hn '\t' (by decide)]

end NumericActions.Text
