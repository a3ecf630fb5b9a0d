import Lexicon.Proofs.Sort.InPlace.Bubble
import Lexicon.Proofs.Sort.InPlace.Insertion
import Lexicon.Proofs.Sort.InPlace.Quick
import Lexicon.Proofs.Sort.InPlace.Selection
import Lexicon.Proofs.Sort.Sorter

namespace Lexicon.Sorter

/-!
# Sorters are safe for every comparison

A comparison may contradict itself, and may answer anything at any time.  A sorter then need not
put the words in order, but it keeps within them and comes to an end.

* `sortInPlace` — sorts by positions, with a failure wherever one is out of range.
* `sortInPlace_eq` — it is the sorter, and fails nowhere.
* `sortInPlace_safe` — so every sort in place ends with the words that it was given.
-/

variable {σ α : Type}

/-- Sorts by a comparison in place. -/
def sortInPlace (sorter : Sorter) (ask : Comparison σ α) (words : List α) :
    Sort.Attempt σ (List α) :=
  match sorter with
  | bubble => Sort.InPlace.bubble ask words
  | selection => Sort.InPlace.selection ask words
  | insertion => Sort.InPlace.insertion ask words
  | quick => Sort.InPlace.quick ask words
  | stable => Sort.InPlace.quick ask words

theorem sortInPlace_eq (sorter : Sorter) (ask : Comparison σ α) (words : List α) :
    sorter.sortInPlace ask words = Sort.Attempt.of (sorter.sortBy ask words) := by
  cases sorter with
  | bubble => exact Sort.InPlace.bubble_eq ask words
  | selection => exact Sort.InPlace.selection_eq ask words
  | insertion => exact Sort.InPlace.insertion_eq ask words
  | quick => exact Sort.InPlace.quick_eq ask words
  | stable => exact Sort.InPlace.quick_eq ask words

/-- **Safety of sorters.** Whatever a comparison answers, and whatever it remembers of earlier
    questions, a sort in place succeeds: no position that it reads, swaps or rotates is out of
    range, no difference falls below zero, and no nested call has as far to go as the one that it
    comes from.  The words are those that it was given. -/
theorem sortInPlace_safe (sorter : Sorter) (ask : Comparison σ α) (words : List α) (state : σ) :
    ∃ sorted after, sorter.sortInPlace ask words state = some (sorted, after) ∧
      sorter.sortBy ask words state = (sorted, after) ∧ sorted.Perm words := by
  refine ⟨_, _, ?_, rfl, sorter.sortBy_perm ask words state⟩
  rw [sortInPlace_eq]
  rfl

end Lexicon.Sorter
