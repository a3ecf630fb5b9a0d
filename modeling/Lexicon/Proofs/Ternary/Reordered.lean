import Lexicon.Proofs.Order.Agreement
import Lexicon.Proofs.Ternary.Balance
import Lexicon.Proofs.Ternary.Beginnings
import Lexicon.Proofs.Ternary.Matching
import Lexicon.Proofs.Ternary.Near

namespace Lexicon.Ternary.Tree

/-!
# Trees do not depend on the order of their words

Words that are added in ascending order make a chain, and in median order a tree that is shallow.  A
search leaves out other subtrees in each shape, but what it answers depends on the words alone.

* `Alike` — trees with the same counts and the same answers.
* `alike_ofWords` — words with the same keys make trees that are alike.
* `trees_blind_to_insertion_order` — so does a list in median and in ascending order.
-/

variable {order : WordOrder} {added others : List Word}

/-- Two trees that answer everything alike, except for the spelling of words in an order that is
    blind to case. -/
structure Alike (tree tree' : Tree) : Prop where
  /-- They count the same number of words. -/
  size_eq : tree.size = tree'.size
  /-- They have the same number of nodes. -/
  nodeCount_eq : tree.nodeCount = tree'.nodeCount
  /-- They find the same words. -/
  contains_eq : ∀ query, tree.contains query = tree'.contains query
  /-- They list words with the same keys. -/
  keys_eq : tree.words.map tree.order.key = tree'.words.map tree'.order.key
  /-- They list the same words, if they tell cases apart. -/
  words_eq : tree.order.isCaseSensitive = true → tree.words = tree'.words
  /-- They list the same words to a pattern. -/
  matching_eq : ∀ pattern, tree.matching pattern = tree'.matching pattern
  /-- They list the same words near a query. -/
  near_eq : ∀ query distance, tree.near query distance = tree'.near query distance

/-! ### Words with the same keys -/

section Keys

variable (h : ∀ key, key ∈ added.map order.key ↔ key ∈ others.map order.key)

include h

theorem contains_congr (query : Word) :
    (ofWords order added).contains query = (ofWords order others).contains query := by
  have hfound : ∀ words : List Word, (∃ word ∈ words, order.compare word query = .eq) ↔
      order.key query ∈ words.map order.key := by
    intro words
    simp only [order.compare_eq_eq_iff, List.mem_map]
  rw [Bool.eq_iff_iff, contains_ofWords_iff, contains_ofWords_iff, hfound, hfound, h]

/-- The keys of the words that a tree lists ascend, so they are known from their members. -/
theorem map_key_words_congr :
    (ofWords order added).words.map order.key = (ofWords order others).words.map order.key := by
  refine WordOrder.eq_of_mem_iff (map_key_words_pairwise order added)
    (map_key_words_pairwise order others) fun key => ?_
  rw [mem_map_key_words_iff, mem_map_key_words_iff, h]

theorem size_congr : (ofWords order added).size = (ofWords order others).size := by
  -- The size is the number of words that are listed, and so of their keys.
  have hlength := congrArg List.length (map_key_words_congr h)
  rwa [List.length_map, List.length_map, (sound_ofWords order added).length_words,
    (sound_ofWords order others).length_words] at hlength

/-- Words with the same keys have the same beginnings. -/
theorem nodeCount_congr :
    (ofWords order added).nodeCount = (ofWords order others).nodeCount := by
  have hbeginnings : ∀ words, beginnings order words
      = {start | start ≠ [] ∧ ∃ key ∈ words.map order.key, start <+: key} := by
    intro words
    simp [beginnings]
  rw [nodeCount_ofWords, nodeCount_ofWords, hbeginnings, hbeginnings]
  simp only [h]

/-- Where keys are the words themselves, the same words are listed. -/
theorem words_congr (hcase : order.isCaseSensitive = true) :
    (ofWords order added).words = (ofWords order others).words := by
  cases order with
  | exact => simpa using map_key_words_congr h
  | folding cases => exact nomatch hcase

/-- Words with the same keys make trees that are alike. -/
theorem alike_ofWords : (ofWords order added).Alike (ofWords order others) where
  size_eq := size_congr h
  nodeCount_eq := nodeCount_congr h
  contains_eq := contains_congr h
  keys_eq := by
    rw [order_ofWords, order_ofWords]
    exact map_key_words_congr h
  words_eq hcase := by
    rw [order_ofWords] at hcase
    exact words_congr h hcase
  matching_eq pattern := by
    cases order with
    | exact => rw [matching_eq_filter, matching_eq_filter, words_congr h rfl]
    -- Trees that are blind to case refuse the search, whatever their words.
    | folding cases => simp [matching, WordOrder.isCaseSensitive]
  near_eq query distance := by
    cases order with
    | exact => rw [near_eq_filter, near_eq_filter, words_congr h rfl]
    | folding cases => simp [near, WordOrder.isCaseSensitive]

end Keys

/-! ### Lists -/

/-- The tree of a list in ascending order is that of its words as they stand. -/
theorem ofList_ascending {L : Type} [WordList L] {list : L} {words : List Word}
    (h : WordList.Holds list order words) :
    ∃ after, ofList false list = (.ok (ofWords order words), after) := by
  obtain ⟨after, hfold⟩ := h.fold_ascending insert (empty order)
  refine ⟨after, ?_⟩
  rw [ofList, h.order_now]
  exact hfold

/-- A tree of ascending words lists them without their repetitions. -/
theorem words_ofWords_ascending (h : WordOrder.exact.Ascends added) :
    (ofWords .exact added).words = added.dedup := by
  -- Both lists ascend strictly, and ascending lists are known from their members.
  have hwords := map_key_words_pairwise .exact added
  have hdedup := h.dedup_keys
  have hmem := mem_map_key_words_iff .exact added
  simp only [WordOrder.map_key_exact] at hwords hdedup hmem
  refine WordOrder.eq_of_mem_iff hwords hdedup fun word => ?_
  rw [hmem, List.mem_dedup]

/-- **Trees are blind to the order of their words.** Words with the same keys, in any order and any
    number, make trees that are alike.  So a sorted list makes trees that are alike in median and in
    ascending order, which list its words without repetitions if they tell cases apart. -/
theorem trees_blind_to_insertion_order :
    (∀ (order : WordOrder) (added others : List Word),
        (∀ key, key ∈ added.map order.key ↔ key ∈ others.map order.key) →
        (ofWords order added).Alike (ofWords order others)) ∧
      ∀ (L : Type) [WordList L] (list : L) (order : WordOrder) (words : List Word),
        WordList.Holds list order words → order.Ascends words →
        ∃ inMedian ascending afterMedian afterAscending,
          ofList true list = (.ok inMedian, afterMedian) ∧
            ofList false list = (.ok ascending, afterAscending) ∧
            inMedian.Alike ascending ∧
            (∀ query, ascending.contains query = true ↔
              ∃ word ∈ words, order.compare word query = .eq) ∧
            (order.isCaseSensitive = true →
              inMedian.words = words.dedup ∧ ascending.words = words.dedup) := by
  refine ⟨fun order added others h => alike_ofWords h, ?_⟩
  intro L _ list order words hholds hsorted
  obtain ⟨afterMedian, hmedian⟩ := ofList_median hholds
  obtain ⟨afterAscending, hascending⟩ := ofList_ascending hholds
  -- Median order only exchanges words, so that their keys are the same.
  have hkeys : ∀ key, key ∈ (inMedianOrder words).map order.key ↔ key ∈ words.map order.key :=
    fun key => ((inMedianOrder_perm words).map order.key).mem_iff
  refine ⟨_, _, afterMedian, afterAscending, hmedian, hascending, alike_ofWords hkeys,
    contains_ofWords_iff order words, fun hcase => ?_⟩
  have hwords : (ofWords order words).words = words.dedup := by
    cases order with
    | exact => exact words_ofWords_ascending hsorted
    | folding cases => exact nomatch hcase
  exact ⟨(words_congr hkeys hcase).trans hwords, hwords⟩

/-- Words that are added again in another case, and a list with repetitions and the empty word. -/
theorem trees_blind_to_repetitions :
    ((∀ key, key ∈ [['a'], ['A', 'b'], ['A']].map (WordOrder.folding .unicode).key ↔
        key ∈ [['a', 'B'], ['A']].map (WordOrder.folding .unicode).key) ∧
      (ofWords (.folding .unicode) [['a'], ['A', 'b'], ['A']]).Alike
        (ofWords (.folding .unicode) [['a', 'B'], ['A']])) ∧
      WordOrder.exact.Ascends [[], ['a'], ['a'], ['b']] ∧
      ∃ inMedian ascending afterMedian afterAscending,
        ofList true (InMemory.mk .exact #[[], ['a'], ['a'], ['b']]) = (.ok inMedian, afterMedian) ∧
          ofList false (InMemory.mk .exact #[[], ['a'], ['a'], ['b']])
            = (.ok ascending, afterAscending) ∧
          inMedian.Alike ascending ∧ inMedian.words = [[], ['a'], ['b']] := by
  have hkeys : ∀ key, key ∈ [['a'], ['A', 'b'], ['A']].map (WordOrder.folding .unicode).key ↔
      key ∈ [['a', 'B'], ['A']].map (WordOrder.folding .unicode).key := by
    have hfirst : [['a'], ['A', 'b'], ['A']].map (WordOrder.folding .unicode).key
        = [['a'], ['a', 'b'], ['a']] := by decide +kernel
    have hsecond : [['a', 'B'], ['A']].map (WordOrder.folding .unicode).key
        = [['a', 'b'], ['a']] := by decide +kernel
    intro key
    rw [hfirst, hsecond]
    simp only [List.mem_cons, List.not_mem_nil, or_false]
    tauto
  have hsorted : WordOrder.exact.Ascends [[], ['a'], ['a'], ['b']] := by
    unfold WordOrder.Ascends
    decide +kernel
  obtain ⟨inMedian, ascending, afterMedian, afterAscending, hmedian, hascending, halike, -,
      hwords⟩ := trees_blind_to_insertion_order.2 InMemory ⟨.exact, #[[], ['a'], ['a'], ['b']]⟩
    .exact _ (WordList.holds_inMemory _) hsorted
  exact ⟨⟨hkeys, trees_blind_to_insertion_order.1 _ _ _ hkeys⟩, hsorted, inMedian, ascending,
    afterMedian, afterAscending, hmedian, hascending, halike, (hwords rfl).1⟩

end Lexicon.Ternary.Tree
