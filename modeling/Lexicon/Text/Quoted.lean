import Lexicon.Text.Basic
import Lexicon.Text.Quoted.Table

namespace Lexicon

/-!
# Quoted text

Messages quote the words they speak of.  Quotes and backslashes are escaped, and so is
every character that would not show.

* `isHidden` — the characters that are written by number.
* `quoted` — a text between double quotes, escaped.
-/

/-- Whether a range of an ascending list holds the value. -/
def rangesHold : List (Nat × Nat) → Nat → Bool
  | [], _ => false
  | (first, last) :: ranges, v =>
    if v < first then false else if v ≤ last then true else rangesHold ranges v

/-- Whether a character does not show on its own. -/
def isHidden (c : Char) : Bool :=
  rangesHold hiddenRanges c.toNat

/-- Writes one character as it stands in a quoted text. -/
def escape (c : Char) : Text :=
  match c with
  | '\x00' => ['\\', '0']
  | '\t' => ['\\', 't']
  | '\r' => ['\\', 'r']
  | '\n' => ['\\', 'n']
  | '"' => ['\\', '"']
  | '\\' => ['\\', '\\']
  | c =>
    if isHidden c then ['\\', 'u', '\x7b'] ++ Nat.toDigits 16 c.toNat ++ ['\x7d'] else [c]

/-- Writes a text between double quotes, each character escaped where it has to be. -/
def quoted (text : Text) : Text :=
  '"' :: text.flatMap escape ++ ['"']

end Lexicon
