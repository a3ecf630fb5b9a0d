import Lexicon.Proofs.Order.Laws
import Lexicon.WordList.InMemory

namespace Lexicon

/-!
# Lists of words in order

A list in memory takes words that are in order already, and no others.

* `FirstDrop` — the first word that sorts before the word in front of it.
* `ensureAscending_cases` — the check accepts words that ascend, and reports the first drop of
  others.
* `ensureAscending_eq_ok_iff` — hence it accepts exactly the words that ascend.
* `InMemory.ofSorted_of_ascends` — the list that it lets pass.
-/

/-- The word at the index sorts before the word in front of it, and no earlier word does. -/
structure FirstDrop (order : WordOrder) (words : List Word) (index : Nat) (previous word : Word) :
    Prop where
  /-- There is a word in front. -/
  index_pos : 0 < index
  /-- The word in front. -/
  previous_eq : words[index - 1]? = some previous
  /-- The word that drops. -/
  word_eq : words[index]? = some word
  /-- It sorts before the word in front. -/
  compare_eq : order.compare previous word = .gt
  /-- All words in front are in order. -/
  ascends_take : order.Ascends (words.take index)

variable {order : WordOrder} {words : List Word}

/-- Words with a drop are not in order. -/
theorem FirstDrop.not_ascends {index : Nat} {previous word : Word}
    (h : FirstDrop order words index previous word) : ¬order.Ascends words := by
  intro hascends
  obtain ⟨hlast, hprevious⟩ := List.getElem?_eq_some_iff.mp h.previous_eq
  obtain ⟨hindex, hword⟩ := List.getElem?_eq_some_iff.mp h.word_eq
  have hpair := List.pairwise_iff_getElem.mp hascends (index - 1) index hlast hindex
    (Nat.sub_lt h.index_pos Nat.one_pos)
  rw [hprevious, hword] at hpair
  exact hpair h.compare_eq

/-- The check of the words behind some that are in order. -/
theorem ensureAscendingAfter_cases (order : WordOrder) (before : List Word) (previous : Word)
    (rest : List Word) (hbefore : order.Ascends (before ++ [previous])) :
    (order.Ascends (before ++ previous :: rest) ∧
        ensureAscendingAfter order (before.length + 1) previous rest = .ok ()) ∨
      ∃ index last word, FirstDrop order (before ++ previous :: rest) index last word ∧
        ensureAscendingAfter order (before.length + 1) previous rest
          = .error (.unsorted index last word) := by
  induction rest generalizing before previous with
  | nil => exact .inl ⟨hbefore, rfl⟩
  | cons word rest ih =>
    rw [ensureAscendingAfter]
    by_cases hcompare : order.compare previous word = .gt
    · refine .inr ⟨before.length + 1, previous, word, ⟨?_, ?_, ?_, hcompare, ?_⟩, ?_⟩
      · exact Nat.succ_pos _
      · simp
      · simp
      · rw [List.append_cons, List.take_append_of_le_length (by simp)]
        exact hbefore.sublist (List.take_sublist _ _)
      · rw [if_pos (beq_iff_eq.mpr hcompare)]
    · rw [if_neg (mt beq_iff_eq.mp hcompare)]
      -- The next word is in order as well and takes the place of the last one.
      have hnext : order.Ascends ((before ++ [previous]) ++ [word]) :=
        (order.ascends_concat_iff _ _).mpr ⟨hbefore, by simpa using hcompare⟩
      have hrest := ih (before ++ [previous]) word hnext
      rwa [List.length_append, List.length_singleton, ← List.append_cons] at hrest

/-- **The check of a list.** It accepts words in order; of others it reports the first that drops
    below the word in front of it. -/
theorem ensureAscending_cases (order : WordOrder) (words : List Word) :
    (order.Ascends words ∧ ensureAscending order words = .ok ()) ∨
      ∃ index previous word, FirstDrop order words index previous word ∧
        ensureAscending order words = .error (.unsorted index previous word) := by
  cases words with
  | nil => exact .inl ⟨List.Pairwise.nil, rfl⟩
  | cons word words =>
    exact ensureAscendingAfter_cases order [] word words (List.pairwise_singleton _ _)

/-- The check accepts exactly the words that ascend. -/
theorem ensureAscending_eq_ok_iff (order : WordOrder) (words : List Word) :
    ensureAscending order words = .ok () ↔ order.Ascends words := by
  obtain ⟨hascends, hcheck⟩ | ⟨index, previous, word, hdrop, hcheck⟩ :=
    ensureAscending_cases order words
  · simp [hcheck, hascends]
  · simp [hcheck, hdrop.not_ascends]

/-- Words in order make up a list in memory. -/
theorem InMemory.ofSorted_of_ascends (h : order.Ascends words) :
    InMemory.ofSorted order words = .ok ⟨order, words.toArray⟩ := by
  rw [ofSorted, (ensureAscending_eq_ok_iff order words).mpr h]

end Lexicon
