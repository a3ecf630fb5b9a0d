import Lexicon.Bloom.Folded
import Lexicon.Proofs.Bloom.Filter
import Lexicon.Proofs.Order.Laws
import Lexicon.Proofs.Success
import Lexicon.Proofs.WordList.Walk

namespace Lexicon.Bloom

/-!
# Filters of folded words take no known word for an unknown one

* `FoldedFilter.search_foldl_insert` — a word is found in all its spellings after it was added.
* `FoldedFilter.search_of_ofList`, `FoldedFilter.exists_ofList` — the filter of a list finds all
  words of the list.
-/

namespace FoldedFilter

variable {folded : FoldedFilter} {query : Word}

/-- A word is found in all its spellings after it was added. -/
theorem search_insert_of_equal {word : Word} (h : folded.order.compare word query = .eq) :
    (folded.insert word).search query = true := by
  -- Spellings that compare equal have the same key, and only keys are added and looked up.
  show (folded.filter.insert (folded.order.key word)).contains (folded.order.key query) = true
  rw [(folded.order.compare_eq_eq_iff word query).mp h]
  exact Filter.contains_insert_self _ _

theorem search_insert_of_search (h : folded.search query = true) (word : Word) :
    (folded.insert word).search query = true :=
  Filter.contains_insert_of_contains folded.filter h (folded.order.key word)

theorem search_foldl_insert_of_search (h : folded.search query = true) (words : List Word) :
    (words.foldl insert folded).search query = true := by
  induction words generalizing folded with
  | nil => exact h
  | cons word words ih => exact ih (search_insert_of_search h word)

/-- Each of some words is found in all its spellings after they were added. -/
theorem search_foldl_insert {words : List Word}
    (h : ∃ word ∈ words, folded.order.compare word query = .eq) :
    (words.foldl insert folded).search query = true := by
  induction words generalizing folded with
  | nil => simp at h
  | cons word words ih =>
    rcases (List.exists_mem_cons_iff _ _ _).mp h with heq | hlater
    · exact search_foldl_insert_of_search (search_insert_of_equal heq) words
    · exact ih hlater

/-- The filter of a list, whenever there is one, finds all words that were read from the list. -/
theorem search_of_ofList {L : Type} [WordList L] {list after : L} {hasher : Hasher} {rate : Float}
    {folded : FoldedFilter} (h : FoldedFilter.ofList hasher rate list = (.ok folded, after)) :
    ∃ read, ((Walk.ofList false list).words list).1 = .ok read ∧
      ∀ word ∈ read, ∀ query, (WordList.order list).compare word query = .eq →
        folded.search query = true := by
  unfold FoldedFilter.ofList at h
  cases hsizing : Sizing.ofRate (WordList.size list) rate with
  | error e => simp [hsizing] at h
  | ok sizing =>
    simp only [hsizing, Walk.fold_eq, Prod.mk.injEq, mapError_eq_ok_iff, map_eq_ok_iff] at h
    obtain ⟨⟨read, hread, rfl⟩, -⟩ := h
    exact ⟨read, hread, fun word hword query heq => search_foldl_insert ⟨word, hword, heq⟩⟩

/-- The filter of a list, if there is a size for it, finds all words of the list. -/
theorem exists_ofList {L : Type} [WordList L] {list : L} {order : WordOrder}
    {words : List Word} (h : WordList.Holds list order words) (hasher : Hasher) {rate : Float}
    {sizing : Sizing} (hsizing : Sizing.ofRate words.length rate = .ok sizing) :
    ∃ folded after, FoldedFilter.ofList hasher rate list = (.ok folded, after) ∧
      ∀ query, (∃ word ∈ words, order.compare word query = .eq) → folded.search query = true := by
  obtain ⟨after, hfold⟩ := h.fold_ascending FoldedFilter.insert
    ⟨Filter.empty sizing hasher, WordList.order list⟩
  have hfolded : FoldedFilter.ofList hasher rate list = (.ok (words.foldl FoldedFilter.insert
      ⟨Filter.empty sizing hasher, WordList.order list⟩), after) := by
    simp only [FoldedFilter.ofList, h.size_now, hsizing, hfold]
    rfl
  obtain ⟨read, hread, hsearch⟩ := search_of_ofList hfolded
  -- The words that were read to build the filter are all words of the list.
  obtain rfl : words = read := Except.ok.inj (h.words_ascending.symm.trans hread)
  refine ⟨_, after, hfolded, ?_⟩
  rintro query ⟨word, hword, heq⟩
  exact hsearch word hword query (by rwa [h.order_now])

end FoldedFilter

end Lexicon.Bloom
