/-!
# Blank characters

The characters with the Unicode property White_Space. Settings are trimmed of them, and
they are skipped between the parts of a timestamp. Core's `Char.isWhitespace` knows
only the four of ASCII that occur in source text.
-/

namespace SealedLog.Text

/-- Whether a character has the property White_Space. -/
def isBlank (c : Char) : Bool :=
  let n := c.toNat
  (9 ≤ n && n ≤ 13) || n == 0x20 || n == 0x85 || n == 0xa0 || n == 0x1680 ||
    (0x2000 ≤ n && n ≤ 0x200a) || n == 0x2028 || n == 0x2029 || n == 0x202f ||
    n == 0x205f || n == 0x3000

/-- The characters from the first that is not blank on. -/
def skipBlanks (cs : List Char) : List Char :=
  cs.dropWhile isBlank

/-- Without the blank characters at either end. -/
def trim (cs : List Char) : List Char :=
  (skipBlanks (skipBlanks cs).reverse).reverse

end SealedLog.Text
