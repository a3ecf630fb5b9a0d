import Lexicon.Text.Case
import Lexicon.Text.Utf8

namespace Lexicon

/-!
# Word order

Every sorted structure of the library follows one order of words, chosen once: exact, or
blind to case under some case mapping.

* `WordOrder` — the two policies.
* `WordOrder.fold`, `WordOrder.key` — the form of a character or a word that is compared.
* `WordOrder.compareChar`, `WordOrder.compare` — comparison of characters and of words.
* `WordOrder.compareKeys` — comparison of words by the bytes of their keys.
-/

/-- A word is a text that is looked up as a whole. -/
abbrev Word := Text

/-- How words compare: letter for letter, or after folding case. -/
inductive WordOrder where
  /-- Words differ as soon as a character differs. -/
  | exact
  /-- Words that fold to the same characters are equal. -/
  | folding (cases : CaseMap)

namespace WordOrder

/-- The order for a choice of case sensitivity, with the case mappings of Unicode. -/
def ofCaseSensitive (sensitive : Bool) : WordOrder :=
  if sensitive then .exact else .folding .unicode

/-- Whether the order tells the cases of a letter apart. -/
def isCaseSensitive : WordOrder → Bool
  | exact => true
  | folding _ => false

/-- Form of a character that is compared. -/
def fold : WordOrder → Char → Char
  | exact, c => c
  | folding cases, c => cases.fold c

/-- Form of a word that is compared. -/
def key (order : WordOrder) (word : Word) : Word :=
  word.map order.fold

/-- Compares two characters by the scalar values of their folded forms. -/
def compareChar (order : WordOrder) (a b : Char) : Ordering :=
  if a = b then .eq else Ord.compare (order.fold a) (order.fold b)

/-- Compares two words: exact words by their encoded bytes, others character by character,
    where a word comes after its beginnings. -/
def compare : WordOrder → Word → Word → Ordering
  | exact, a, b => List.compareLex Ord.compare (Utf8.encode a) (Utf8.encode b)
  | folding cases, a, b => List.compareLex (folding cases).compareChar a b

/-- Compares two words by the encoded bytes of their folded forms. -/
def compareKeys (order : WordOrder) (a b : Word) : Ordering :=
  List.compareLex Ord.compare (Utf8.encode (order.key a)) (Utf8.encode (order.key b))

end WordOrder

end Lexicon
