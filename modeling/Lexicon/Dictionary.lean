import Lexicon.Bloom.Folded
import Lexicon.Ternary.Tree
import Lexicon.WordList.InMemory
import Lexicon.WordList.Mapped
import Lexicon.WordList.Search
import Lexicon.WordList.Stored

namespace Lexicon

/-!
# Dictionaries

A dictionary tells whether a word is known.

* `positionIn`, `isIn` — answers by binary search in a word list.
* `Dictionary` — any of the structures that can answer.
* `Dictionary.search` — the answer.
-/

/-! ### Word lists as dictionaries -/

/-- Index of a word in a list. -/
def positionIn {L : Type} [WordList L] (list : L) (word : Word) :
    Except DictionaryError (Option Nat) × L :=
  let (found, list) := binarySearch list word
  (found.mapError .list, list)

/-- Whether a word is in a list. -/
def isIn {L : Type} [WordList L] (list : L) (word : Word) : Except DictionaryError Bool × L :=
  let (found, list) := positionIn list word
  (found.map Option.isSome, list)

/-! ### Dictionaries of any kind -/

/-- A structure that tells whether a word is known. -/
inductive Dictionary where
  /-- A list in memory. -/
  | inMemory (list : InMemory)
  /-- A list in an open file. -/
  | stored (list : Stored)
  /-- A list in mapped memory. -/
  | mapped (list : Mapped)
  /-- A search tree. -/
  | tree (tree : Ternary.Tree)
  /-- A filter, which may take an unknown word for a known one. -/
  | filter (folded : Bloom.FoldedFilter)

/-- Whether a word is known. -/
def Dictionary.search (word : Word) : Dictionary → Except DictionaryError Bool × Dictionary
  | inMemory list => let (known, list) := isIn list word; (known, inMemory list)
  | stored list => let (known, list) := isIn list word; (known, stored list)
  | mapped list => let (known, list) := isIn list word; (known, mapped list)
  | tree t => (.ok (t.contains word), tree t)
  | filter folded => (.ok (folded.search word), filter folded)

end Lexicon
