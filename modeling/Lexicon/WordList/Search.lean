import Lexicon.WordList.Basic

namespace Lexicon

/-!
# Binary search

* `searchBetween` — looks for a word among the indices of a half-open range.
* `binarySearch` — looks for a word in a whole list.
-/

variable {L : Type} [WordList L]

/-- Looks for a word at the indices from `low` to before `high`, the middle first. -/
def searchBetween (order : WordOrder) (list : L) (word : Word) (low high : Nat) :
    Except ListError (Option Nat) × L :=
  if low < high then
    let middle := low + (high - low) / 2
    match WordList.fetch list middle with
    | (.error e, list) => (.error e, list)
    | (.ok found, list) =>
      match order.compare found word with
      | .lt => searchBetween order list word (middle + 1) high
      | .gt => searchBetween order list word low middle
      | .eq => (.ok (some middle), list)
  else (.ok none, list)
termination_by high - low

/-- Index of some word of the list that compares equal, or the first error of reading one.  The
    order and the size are those of the list before anything is read. -/
def binarySearch (list : L) (word : Word) : Except ListError (Option Nat) × L :=
  searchBetween (WordList.order list) list word 0 (WordList.size list)

end Lexicon
