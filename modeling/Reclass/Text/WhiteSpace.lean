/-!
# White space

The characters with the Unicode property `White_Space`, and trimming by them. Names are trimmed by
this property; program text has a space class of its own, built on it.
-/

namespace Reclass.Text

/-- The characters with the Unicode property `White_Space`. -/
def isWhiteSpace (c : Char) : Bool :=
  let n := c.toNat
  (0x9 ≤ n && n ≤ 0xd) || n == 0x20 || n == 0x85 || n == 0xa0 || n == 0x1680 ||
    (0x2000 ≤ n && n ≤ 0x200a) || n == 0x2028 || n == 0x2029 || n == 0x202f || n == 0x205f ||
    n == 0x3000

/-- A text without the white space at its start. -/
def trimLeft (s : List Char) : List Char := s.dropWhile isWhiteSpace

/-- A text without the white space at its two ends. -/
def trim (s : List Char) : List Char := (trimLeft (trimLeft s).reverse).reverse

end Reclass.Text
