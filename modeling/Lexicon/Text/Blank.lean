import Lexicon.Text.Basic

namespace Lexicon

/-!
# White space

* `isBlank` — the characters with the White_Space property of Unicode.
* `trim` — a text without the white space at its ends.
-/

/-- Whether a character has the White_Space property of Unicode. -/
def isBlank (c : Char) : Bool :=
  let v := c.toNat
  (0x09 ≤ v && v ≤ 0x0D) || v == 0x20 || v == 0x85 || v == 0xA0 || v == 0x1680
    || (0x2000 ≤ v && v ≤ 0x200A) || v == 0x2028 || v == 0x2029 || v == 0x202F
    || v == 0x205F || v == 0x3000

/-- Cuts the white space off both ends. -/
def trim (text : Text) : Text :=
  ((text.dropWhile isBlank).reverse.dropWhile isBlank).reverse

end Lexicon
