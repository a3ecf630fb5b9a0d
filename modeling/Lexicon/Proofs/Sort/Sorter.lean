import Lexicon.Proofs.Order.Laws
import Lexicon.Proofs.Sort.Bubble
import Lexicon.Proofs.Sort.Insertion
import Lexicon.Proofs.Sort.Quick
import Lexicon.Proofs.Sort.Selection
import Lexicon.Proofs.WordList.Ascending
import Lexicon.Sort.Sorter

namespace Lexicon.Sorter

open Std

/-!
# Sorters put words in order

* `sortBy_perm` — whatever the comparison answers, no sorter loses a word.
* `sortBy_pairwise` — if it agrees with a total preorder, every sorter sorts.
* `stable_sort_eq` — the stable sorter merges by the order of words.
* `sort_perm`, `sort_ascends` — every sorter sorts by a word order.
* `every_sorter_sorts` — all sorters, by any total preorder and by word orders.
-/

variable {σ α : Type} {compare : α → α → Ordering}

/-! ### Sorting by a comparison -/

/-- Whatever the comparison answers, no sorter loses a word or brings one in. -/
theorem sortBy_perm (sorter : Sorter) (ask : Comparison σ α) (words : List α) :
    Ensures (sorter.sortBy ask words) (·.Perm words) := by
  cases sorter with
  | bubble => exact Sort.bubble_perm ask words
  | selection => exact Sort.selection_perm ask words
  | insertion => exact Sort.insertion_perm ask words
  | quick => exact Sort.quick_perm ask words
  | stable => exact Sort.quick_perm ask words

/-- If the comparison agrees with a total preorder, every sorter sorts. -/
theorem sortBy_pairwise [TransCmp compare] {ask : Comparison σ α} (hask : Agrees ask compare)
    (sorter : Sorter) (words : List α) :
    Ensures (sorter.sortBy ask words) (·.Pairwise fun a b => compare a b ≠ .gt) := by
  cases sorter with
  | bubble => exact Sort.bubble_pairwise hask words
  | selection => exact Sort.selection_pairwise hask words
  | insertion => exact Sort.insertion_pairwise hask words
  | quick => exact Sort.quick_pairwise hask words
  | stable => exact Sort.quick_pairwise hask words

theorem sortWith_perm (sorter : Sorter) (compare : α → α → Ordering) (words : List α) :
    (sorter.sortWith compare words).Perm words :=
  sorter.sortBy_perm (Comparison.ofOrder compare) words ()

theorem sortWith_pairwise [TransCmp compare] (sorter : Sorter) (words : List α) :
    (sorter.sortWith compare words).Pairwise fun a b => compare a b ≠ .gt :=
  sorter.sortBy_pairwise (agrees_ofOrder compare) words ()

/-! ### Sorting by a word order -/

/-- The stable sorter merges by keys, which is to merge by words. -/
theorem stable_sort_eq (order : WordOrder) (words : List Word) :
    stable.sort order words = words.mergeSort fun a b => (order.compare a b).isLE := by
  have hkeys : order.compareKeys = order.compare := funext₂ order.compareKeys_eq
  rw [Sorter.sort, hkeys]

theorem sort_perm (sorter : Sorter) (order : WordOrder) (words : List Word) :
    (sorter.sort order words).Perm words := by
  cases sorter with
  | stable => exact List.mergeSort_perm words _
  | _ => exact sortWith_perm _ order.compare words

theorem sort_ascends (sorter : Sorter) (order : WordOrder) (words : List Word) :
    order.Ascends (sorter.sort order words) := by
  cases sorter with
  | stable =>
    rw [stable_sort_eq]
    exact (List.pairwise_mergeSort (fun _ _ _ => TransCmp.isLE_trans) isLE_or_isLE words).imp
      Ordering.ne_gt_iff_isLE.mpr
  | _ => exact sortWith_pairwise _ words

/-- **Every sorter sorts.** By a comparison that is a total preorder, as by a word order, a sorter
    gives the words that it was given, none of them before one that it exceeds; a list in memory
    that is built with the sorter holds the words that it was built of, and could have been built of
    them sorted. -/
theorem every_sorter_sorts (sorter : Sorter) (compare : α → α → Ordering) [TransCmp compare]
    (words : List α) (order : WordOrder) (entries : List Word) :
    ((sorter.sortWith compare words).Perm words ∧
        (sorter.sortWith compare words).Pairwise fun a b => compare a b ≠ .gt) ∧
      ((sorter.sort order entries).Perm entries ∧ order.Ascends (sorter.sort order entries)) ∧
      (InMemory.sortedBy sorter order entries).words.toList.Perm entries ∧
      InMemory.ofSorted order (InMemory.sortedBy sorter order entries).words.toList
        = .ok (InMemory.sortedBy sorter order entries) := by
  have hperm := sorter.sort_perm order entries
  have hascends := sorter.sort_ascends order entries
  exact ⟨⟨sorter.sortWith_perm compare words, sorter.sortWith_pairwise words⟩,
    ⟨hperm, hascends⟩, hperm, InMemory.ofSorted_of_ascends hascends⟩

/-- Words in the order of their lengths, which is a preorder and tells few words apart. -/
theorem quick_sorts_by_length :
    TransCmp (compareOn (List.length (α := Char))) ∧
      (quick.sortWith (compareOn List.length) ["pear".toList, "fig".toList, "date".toList]).Perm
        ["pear".toList, "fig".toList, "date".toList] ∧
      (quick.sortWith (compareOn List.length)
        ["pear".toList, "fig".toList, "date".toList]).Pairwise fun a b =>
          compareOn List.length a b ≠ .gt :=
  ⟨inferInstance, (every_sorter_sorts quick (compareOn List.length)
    ["pear".toList, "fig".toList, "date".toList] .exact []).1⟩

end Lexicon.Sorter
