import Lexicon.Order
import Lexicon.Sort.Bubble
import Lexicon.Sort.Insertion
import Lexicon.Sort.Quick
import Lexicon.Sort.Selection

namespace Lexicon

/-!
# Sorters

The ways to put the words of a list in order.

* `Sorter.sortBy` — sorts by any comparison, in its state.
* `Sorter.sort` — sorts by a word order.
-/

/-- A way to sort. -/
inductive Sorter where
  /-- Lets the greatest word rise, pass by pass. -/
  | bubble
  /-- Chooses the least word each time. -/
  | selection
  /-- Inserts each word into the sorted ones before it. -/
  | insertion
  /-- Partitions around a pivot. -/
  | quick
  /-- Merges by folded words, keeping the places of equal words. -/
  | stable

namespace Sorter

/-- Sorts by a comparison.  Merging needs answers that agree with each other, so the stable
    sorter partitions instead when it is given a comparison that need not have them. -/
def sortBy {σ α : Type} (sorter : Sorter) (ask : Comparison σ α) (words : List α) :
    StateM σ (List α) :=
  match sorter with
  | bubble => Sort.bubble ask words
  | selection => Sort.selection ask words
  | insertion => Sort.insertion ask words
  | quick => Sort.quick ask words
  | stable => Sort.quick ask words

/-- Sorts by a pure comparison. -/
def sortWith {α : Type} (sorter : Sorter) (compare : α → α → Ordering) (words : List α) :
    List α :=
  (sorter.sortBy (Comparison.ofOrder compare) words ()).1

/-- Sorts by a word order. -/
def sort (sorter : Sorter) (order : WordOrder) (words : List Word) : List Word :=
  match sorter with
  | stable => words.mergeSort fun a b => (order.compareKeys a b).isLE
  | _ => sorter.sortWith order.compare words

end Sorter

end Lexicon
