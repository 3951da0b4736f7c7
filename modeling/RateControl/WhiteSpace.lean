-- SUMMARY: The characters with the Unicode property White_Space.

/-! # White space

A rate equation may hold white space anywhere, and it means nothing. White space is what Unicode gives
the property White_Space. -/

namespace RateControl

/-- The ranges of code points with the property White_Space. -/
def whiteSpaceRanges : List (Nat × Nat) :=
  [(0x0009, 0x000D), (0x0020, 0x0020), (0x0085, 0x0085), (0x00A0, 0x00A0), (0x1680, 0x1680),
   (0x2000, 0x200A), (0x2028, 0x2029), (0x202F, 0x202F), (0x205F, 0x205F), (0x3000, 0x3000)]

/-- Whether a character has the property White_Space. -/
def isWhiteSpace (c : Char) : Bool :=
  whiteSpaceRanges.any fun (lo, hi) => lo ≤ c.toNat && c.toNat ≤ hi

/-- The text without its white space. -/
def compact (s : String) : List Char := s.toList.filter (!isWhiteSpace ·)

end RateControl
