/-!
# Blank characters

The characters that count as white space in text, by the Unicode property of that name, and what is
done with them: trimming the ends of a text and indenting its lines.

## Main definitions

* `isBlank`: the property.
* `trim`: text without blanks at its ends.
* `indent`: every line moved to the right, blank lines apart.
-/

namespace PhraseStructure.Text

/-- The Unicode property `White_Space`. -/
def isBlank (c : Char) : Bool :=
  let n := c.toNat
  (0x09 ≤ n && n ≤ 0x0d) || n == 0x20 || n == 0x85 || n == 0xa0 || n == 0x1680 ||
    (0x2000 ≤ n && n ≤ 0x200a) || n == 0x2028 || n == 0x2029 || n == 0x202f || n == 0x205f ||
    n == 0x3000

/-- The text without the blanks at its front and at its end. -/
def trim (cs : List Char) : List Char :=
  ((cs.dropWhile isBlank).reverse.dropWhile isBlank).reverse

/-- Puts `margin` before every line that has something to see. -/
def indent (margin text : String) : String :=
  "\n".intercalate <| (text.splitOn "\n").map fun line =>
    if line.toList.all isBlank then line else margin ++ line

end PhraseStructure.Text
