import Lexicon.Sort.Basic

namespace Lexicon.Sort

/-!
# Insertion sort

* `settle` — puts a word into its place among sorted words that are held last one first.
* `insertion` — settles the words one after the other.
-/

variable {σ α : Type}

/-- Moves a word down past every settled word that exceeds it.  The settled words stand last
    one first. -/
def settle (ask : Comparison σ α) (word : α) : List α → StateM σ (List α)
  | [] => return [word]
  | top :: settled => do
    if (← ask top word) == .gt then
      return top :: (← settle ask word settled)
    else
      return word :: top :: settled

/-- Sorts by inserting each word into the sorted words before it. -/
def insertion (ask : Comparison σ α) (words : List α) : StateM σ (List α) := do
  let settled ← words.foldlM (fun settled word => settle ask word settled) []
  return settled.reverse

end Lexicon.Sort
