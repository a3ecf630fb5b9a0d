import Lexicon.Sort.Basic

namespace Lexicon.Sort

/-!
# Selection sort

* `choose` — finds the least word of a list and puts the first one into its place.
* `selection` — chooses the least of all words, then of the others, and so on.
-/

variable {σ α : Type}

/-- Looks for a word below `least`.  If there is one, the last such is set apart and `first`
    takes its place among the others. -/
def choose (ask : Comparison σ α) (first least : α) : (rest : List α) →
    StateM σ (Option (Picked α rest.length))
  | [] => return none
  | word :: rest => do
    if (← ask word least) == .lt then
      match ← choose ask first word rest with
      -- `word` stayed the least: it changes places with `first`.
      | none => return some ⟨word, first :: rest, rfl⟩
      | some p => return some ⟨p.word, word :: p.others, by simp [p.length_others]⟩
    else
      match ← choose ask first least rest with
      | none => return none
      | some p => return some ⟨p.word, word :: p.others, by simp [p.length_others]⟩

/-- Sorts by choosing the least of the remaining words each time. -/
def selection (ask : Comparison σ α) (words : List α) : StateM σ (List α) :=
  match words with
  | [] => return []
  | first :: rest => do
    match ← choose ask first first rest with
    | none => return first :: (← selection ask rest)
    | some p =>
      have := p.length_others
      return p.word :: (← selection ask p.others)
termination_by words.length

end Lexicon.Sort
