import Lexicon.Proofs.MedianOrder.Height
import Lexicon.Proofs.Ternary.Growth
import Lexicon.Proofs.Ternary.Tree
import Lexicon.Proofs.WordList.Search
import Lexicon.Proofs.WordList.Walk
import Mathlib.Data.List.MinMax

namespace Lexicon.Ternary.Tree

open SearchTree Node

/-!
# Trees that are built in median order

The words of a sorted list, added in median order, make a tree that is about as shallow as a search
tree of their indices: no way down has more links to the sides, and the other links go on from one
character of a word to the next.

* `longest` — the length of the longest word.
* `grown_ofWords` — the tree of the words at some indices has grown from them.
* `inMedianOrder`, `ofList_median` — the words in median order, and the tree that a list makes of
  them.
* `ofList_median_balanced` — links to the sides, and depth, of such a tree.
-/

variable {order : WordOrder} {words : List Word}

/-- The greatest number of characters of a word, where no words have none. -/
def longest (words : List Word) : Nat :=
  (words.map List.length).foldr max 0

theorem length_le_longest {word : Word} (h : word ∈ words) : word.length ≤ longest words :=
  List.le_max_of_le' 0 (List.mem_map_of_mem h) le_rfl

/-- The word at an index, and the empty word behind the last. -/
def wordAt (words : List Word) (index : Nat) : Word :=
  words[index]?.getD []

theorem length_wordAt_le (words : List Word) (index : Nat) :
    (wordAt words index).length ≤ longest words := by
  unfold wordAt
  cases hword : words[index]? with
  | none => exact Nat.zero_le _
  | some word => exact length_le_longest (List.mem_of_getElem? hword)

/-- The words of a sorted list ascend with their indices. -/
theorem ascendsBy_wordAt (h : order.Ascends words) {visited : List Nat}
    (hvisited : ∀ index ∈ visited, index < words.length) :
    AscendsBy order (wordAt words) visited := by
  intro i hi j hj hij
  have hi := hvisited i hi
  have hj := hvisited j hj
  rw [wordAt, wordAt, List.getElem?_eq_getElem hi, List.getElem?_eq_getElem hj]
  exact h.ne_gt hj hij

/-- The tree of the words at some indices has grown from those that are not empty. -/
theorem grown_ofWords (order : WordOrder) (words : List Word) (visited : List Nat) :
    Grown order (wordAt words) (visited.filter fun i => !(wordAt words i).isEmpty)
      (ofWords order (visited.filterMap (words[·]?))).root := by
  -- From the back, as a word is added to the tree of those before it.
  induction visited using List.reverseRecOn with
  | nil => exact .leaf
  | append_singleton visited index ih =>
    rw [filter_concat, List.filterMap_append]
    cases hword : words[index]? with
    | none =>
      have hempty : wordAt words index = [] := by rw [wordAt, hword]; rfl
      simpa [hempty, hword] using ih
    | some word =>
      have hat : wordAt words index = word := by rw [wordAt, hword]; rfl
      rw [List.filterMap_cons_some hword, List.filterMap_nil, ofWords_concat, hat]
      cases word with
      -- The empty word has no node, and is not among the indices.
      | nil => exact ih
      | cons c rest =>
        have hgrown := ih.insert hat (ofWords order (visited.filterMap (words[·]?))).nodeCount
        simpa [Tree.insert] using hgrown

/-! ### Median order -/

/-- The words of a list, those in the middle first. -/
def inMedianOrder (words : List Word) : List Word :=
  (MedianOrder.indices words.length).filterMap (words[·]?)

theorem inMedianOrder_perm (words : List Word) : (inMedianOrder words).Perm words := by
  have hperm := (MedianOrder.indices_perm words.length).filterMap (words[·]?)
  rwa [WordList.filterMap_range_getElem?] at hperm

/-- The links to the sides on a way down are no more than a search tree of the indices is high. -/
theorem sideHeight_inMedianOrder_le (h : order.Ascends words) (hword : words.length < 2 ^ 64) :
    (ofWords order (inMedianOrder words)).root.sideHeight ≤ words.length.log2 + 1 := by
  have hascends : AscendsBy order (wordAt words) (MedianOrder.indices words.length) :=
    ascendsBy_wordAt h fun index hindex =>
      List.mem_range.mp ((MedianOrder.indices_perm _).subset hindex)
  -- Leaving out the empty words does not make a search tree any higher, as they come first.
  calc (ofWords order (inMedianOrder words)).root.sideHeight
      ≤ (ofKeys ((MedianOrder.indices words.length).filter
          fun i => !(wordAt words i).isEmpty)).height :=
        (grown_ofWords order words _).sideHeight_le (hascends.filter _)
    _ ≤ (ofKeys (MedianOrder.indices words.length)).height :=
        height_filter_le hascends.convex_nonempty
    _ ≤ words.length.log2 + 1 := MedianOrder.height_ofKeys_indices_le hword

variable {L : Type} [WordList L] {list : L}

/-- The tree of a list in median order is that of its words in this order. -/
theorem ofList_median (h : WordList.Holds list order words) :
    ∃ after, ofList true list = (.ok (ofWords order (inMedianOrder words)), after) := by
  have hindices : (Walk.ofList true list).indices = MedianOrder.indices words.length := by
    rw [← h.size_now]
    rfl
  obtain ⟨after, hfold⟩ := h.fold insert (empty order) (Walk.ofList true list) fun index hindex =>
    List.mem_range.mp ((MedianOrder.indices_perm _).subset (hindices ▸ hindex))
  rw [hindices] at hfold
  refine ⟨after, ?_⟩
  rw [ofList, h.order_now]
  exact hfold

/-- **Balance.** A list that holds ascending words makes, in median order, a tree of these words in
    which no way down has more links to the sides than the logarithm of their number, and which is
    no deeper than that and the length of the longest word together. -/
theorem ofList_median_balanced (h : WordList.Holds list order words) (hsorted : order.Ascends words)
    (hword : words.length < 2 ^ 64) :
    ∃ tree after, ofList true list = (.ok tree, after) ∧
      (∀ query, tree.contains query = true ↔ ∃ word ∈ words, order.compare word query = .eq) ∧
      (∀ path, tree.root.follow path ≠ .leaf → path.countP Link.isSide ≤ words.length.log2) ∧
      tree.depth ≤ longest words + words.length.log2 := by
  obtain ⟨after, htree⟩ := ofList_median h
  have hside := sideHeight_inMedianOrder_le hsorted hword
  refine ⟨_, after, htree, fun query => ?_, fun path hpath => ?_, ?_⟩
  · rw [contains_ofWords_iff]
    exact exists_congr fun word => and_congr_left' (inMedianOrder_perm words).mem_iff
  · exact Nat.le_of_lt_succ ((countP_isSide_lt hpath).trans_le hside)
  · -- The links that go on are one less than the characters of a word, the others one less than
    -- the side height; with the first node that makes the depth.
    have hheight := (grown_ofWords order words (MedianOrder.indices words.length)).height_le
      fun index _ => length_wordAt_le words index
    exact hheight.trans (Nat.sub_le_sub_right (Nat.add_le_add_left hside _) 1)

/-- Words that are listed twice, that differ in case only, or that are empty. -/
def tiedWords : List Word :=
  [[], [], ['a'], ['A'], ['a', 'b'], ['A', 'B'], ['b']]

/-- Ties among the words do no harm to the balance. -/
theorem ofList_median_balanced_tied :
    (WordOrder.folding .unicode).Ascends tiedWords ∧ tiedWords.length < 2 ^ 64 ∧
      ∃ tree after,
        ofList true (InMemory.mk (.folding .unicode) tiedWords.toArray) = (.ok tree, after) ∧
          (∀ path, tree.root.follow path ≠ .leaf → path.countP Link.isSide ≤ 2) ∧
          tree.depth ≤ 2 + 2 := by
  have hsorted : (WordOrder.folding .unicode).Ascends tiedWords := by
    unfold WordOrder.Ascends
    decide +kernel
  have hword : tiedWords.length < 2 ^ 64 := by decide
  obtain ⟨tree, after, htree, -, hside, hdepth⟩ :=
    ofList_median_balanced (WordList.holds_inMemory ⟨.folding .unicode, tiedWords.toArray⟩)
      hsorted hword
  exact ⟨hsorted, hword, tree, after, htree, hside, hdepth⟩

end Lexicon.Ternary.Tree
