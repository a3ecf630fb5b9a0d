import Lexicon.Error

namespace Lexicon

/-!
# Word lists

A word list gives the word at an index, in the order of the list.  Reading may move a cursor
or fail, so it answers with the list as it is afterwards.

* `WordList` — what every list offers.
* `ensureAscending` — whether words ascend, and where they first do not.
-/

/-- A list of words that can be read at any index below its size. -/
class WordList (L : Type) where
  /-- The order that the words ascend in. -/
  order : L → WordOrder
  /-- The number of words. -/
  size : L → Nat
  /-- Reads the word at an index. -/
  fetch : L → Nat → Except ListError Word × L
  /-- Gives back what the list holds of the system. -/
  close : L → L

/-! ### Sortedness -/

/-- Checks the words from `index` on against the word before them. -/
def ensureAscendingAfter (order : WordOrder) : (index : Nat) → (previous : Word) → List Word →
    Except ListError Unit
  | _, _, [] => .ok ()
  | index, previous, word :: rest =>
    if order.compare previous word == .gt then .error (.unsorted index previous word)
    else ensureAscendingAfter order (index + 1) word rest

/-- Checks that no word sorts before the one in front of it; equal neighbours are in order. -/
def ensureAscending (order : WordOrder) : List Word → Except ListError Unit
  | [] => .ok ()
  | word :: rest => ensureAscendingAfter order 1 word rest

end Lexicon
