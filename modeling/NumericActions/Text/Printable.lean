/-!
# Printable characters

Controls, format characters, separators other than the space, and private-use
characters have no visible form of their own. The ranges are those of the Unicode
general categories `Cc`, `Cf`, `Zs`, `Zl`, `Zp` and `Co`.

* `not_isPrintable_of_lt`: no control character below the space is printable.
-/

namespace NumericActions.Text

/-- The first and the last code point of each range without a visible form. -/
def invisibleRanges : List (Nat × Nat) :=
  [(0x0000, 0x001f), (0x007f, 0x00a0), (0x00ad, 0x00ad), (0x0600, 0x0605),
   (0x061c, 0x061c), (0x06dd, 0x06dd), (0x070f, 0x070f), (0x0890, 0x0891),
   (0x08e2, 0x08e2), (0x1680, 0x1680), (0x180e, 0x180e), (0x2000, 0x200f),
   (0x2028, 0x202f), (0x205f, 0x2064), (0x2066, 0x206f), (0x3000, 0x3000),
   (0xe000, 0xf8ff), (0xfeff, 0xfeff), (0xfff9, 0xfffb), (0x110bd, 0x110bd),
   (0x110cd, 0x110cd), (0x13430, 0x1343f), (0x1bca0, 0x1bca3), (0x1d173, 0x1d17a),
   (0xe0001, 0xe0001), (0xe0020, 0xe007f), (0xf0000, 0xffffd), (0x100000, 0x10fffd)]

/-- Whether a character has a visible form; the space counts as visible. -/
def isPrintable (c : Char) : Bool :=
  !invisibleRanges.any fun (first, last) => first ≤ c.toNat && c.toNat ≤ last

theorem not_isPrintable_of_lt {c : Char} (h : c.toNat < 0x20) : isPrintable c = false := by
  simp only [isPrintable, invisibleRanges, List.any_cons, Bool.not_eq_false', Bool.or_eq_true]
  left
  simp
  omega

end NumericActions.Text
