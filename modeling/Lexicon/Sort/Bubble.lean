import Lexicon.Sort.Basic

namespace Lexicon.Sort

/-!
# Bubble sort

* `carry` — one pass, which carries the greater of each pair of neighbours to the end.
* `bubble` — passes over ever fewer words, until one finds nothing to move.
-/

variable {σ α : Type}

/-- Carries a word through the words after it, changing places with each that it exceeds and
    changing hands where it does not.  The word that arrives is set apart; the flag tells
    whether any two words changed places. -/
def carry (ask : Comparison σ α) (word : α) : (rest : List α) →
    StateM σ (Picked α rest.length × Bool)
  | [] => return (⟨word, [], rfl⟩, false)
  | next :: rest => do
    if (← ask word next) == .gt then
      let (arrived, _) ← carry ask word rest
      return (⟨arrived.word, next :: arrived.others, by simp [arrived.length_others]⟩, true)
    else
      let (arrived, moved) ← carry ask next rest
      return (⟨arrived.word, word :: arrived.others, by simp [arrived.length_others]⟩, moved)

/-- Sorts the words in front of those that earlier passes have settled. -/
def bubbleBefore (ask : Comparison σ α) (words settled : List α) : StateM σ (List α) :=
  match words with
  | [] => return settled
  | word :: rest => do
    let (arrived, moved) ← carry ask word rest
    if moved then
      have := arrived.length_others
      bubbleBefore ask arrived.others (arrived.word :: settled)
    else
      return arrived.others ++ arrived.word :: settled
termination_by words.length

/-- Sorts by passes that let the greatest word rise to the end. -/
def bubble (ask : Comparison σ α) (words : List α) : StateM σ (List α) :=
  bubbleBefore ask words []

end Lexicon.Sort
