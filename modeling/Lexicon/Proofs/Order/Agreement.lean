import Lexicon.Proofs.Sort.Sorter
import Lexicon.Proofs.Ternary.Tree
import Mathlib.Data.List.Dedup
import Mathlib.Data.List.Sort

namespace Lexicon

open Std

/-!
# One order everywhere

Words are compared in several ways: by bytes, by characters, by the keys that the stable sorter
keeps, and character by character on the way down a tree.  All of them are one order.

* `WordOrder.compare_key` — words compare as their keys do, letter for letter.
* `Ternary.Tree.map_key_words_ofWords` — a tree lists the words as a sorter does, one of each kind.
* `WordOrder.one_order_everywhere` — all comparisons are the same total preorder.
-/

/-- Words compare as their keys do, letter for letter. -/
theorem WordOrder.compare_key (order : WordOrder) (a b : Word) :
    exact.compare (order.key a) (order.key b) = order.compare a b :=
  order.compareKeys_eq a b

/-! ### Words of a tree -/

/-- Words that ascend without repetition are known from their members. -/
theorem WordOrder.eq_of_mem_iff {l l' : List Word}
    (h : l.Pairwise fun a b => exact.compare a b = .lt)
    (h' : l'.Pairwise fun a b => exact.compare a b = .lt) (hmem : ∀ a, a ∈ l ↔ a ∈ l') : l = l' := by
  have hle : ∀ a b : Word, exact.compare a b = .lt → exact.compare a b ≠ .gt := by
    intro a b hlt
    simp [hlt]
  have hne : ∀ a b : Word, exact.compare a b = .lt → a ≠ b := by
    rintro a b hlt rfl
    have hself : exact.compare a a = .eq := ReflCmp.compare_self
    rw [hself] at hlt
    exact nomatch hlt
  have hperm : l.Perm l' :=
    (List.perm_ext_iff_of_nodup (h.imp (hne _ _)) (h'.imp (hne _ _))).mpr hmem
  exact eq_of_perm_of_ascends hperm (h.imp (hle _ _)) (h'.imp (hle _ _))

/-- Keys in order, each once. -/
theorem WordOrder.Ascends.dedup_keys {order : WordOrder} {words : List Word}
    (h : order.Ascends words) :
    (words.map order.key).dedup.Pairwise fun a b => exact.compare a b = .lt := by
  have hkeys : (words.map order.key).Pairwise fun a b => exact.compare a b ≠ .gt := by
    refine List.pairwise_map.mpr (h.imp fun {a b} hle => ?_)
    rwa [order.compare_key]
  -- Keys that are equal in the exact order are the same, and none stands there twice.
  refine ((hkeys.sublist (List.dedup_sublist _)).and (List.nodup_dedup _)).imp ?_
  rintro a b ⟨hle, hne⟩
  cases hcompare : exact.compare a b with
  | lt => rfl
  | eq => exact absurd ((compare_exact_eq_iff a b).mp hcompare) hne
  | gt => exact absurd hcompare hle

namespace Ternary.Tree

/-- A key is one of a tree if it is the key of a word that was added. -/
theorem mem_map_key_words_iff (order : WordOrder) (words : List Word) (key : Word) :
    key ∈ (ofWords order words).words.map order.key ↔ key ∈ words.map order.key := by
  simp only [List.mem_map]
  constructor
  · rintro ⟨stored, hstored, rfl⟩
    obtain ⟨word, hword, heq⟩ := exists_of_mem_words_ofWords hstored
    exact ⟨word, hword, (order.compare_eq_eq_iff word stored).mp heq⟩
  · rintro ⟨word, hword, rfl⟩
    obtain ⟨stored, hstored, heq⟩ := exists_mem_words_ofWords order hword
    exact ⟨stored, hstored, (order.compare_eq_eq_iff stored word).mp heq⟩

/-- The keys of the words that a tree lists ascend strictly. -/
theorem map_key_words_pairwise (order : WordOrder) (words : List Word) :
    ((ofWords order words).words.map order.key).Pairwise
      fun a b => WordOrder.exact.compare a b = .lt := by
  have hwords := (sound_ofWords order words).words_pairwise
  rw [order_ofWords] at hwords
  refine List.pairwise_map.mpr (hwords.imp fun {a b} hlt => ?_)
  rwa [order.compare_key]

/-- A tree lists the keys of its words as they are sorted, each once. -/
theorem map_key_words_ofWords (order : WordOrder) (words : List Word) :
    (ofWords order words).words.map order.key
      = ((words.mergeSort fun a b => (order.compare a b).isLE).map order.key).dedup := by
  rw [← Sorter.stable_sort_eq]
  refine WordOrder.eq_of_mem_iff (map_key_words_pairwise order words)
    (Sorter.stable.sort_ascends order words).dedup_keys fun key => ?_
  rw [mem_map_key_words_iff, List.mem_dedup]
  exact ((Sorter.stable.sort_perm order words).map order.key).mem_iff.symm

end Ternary.Tree

/-- **One order everywhere.** Words compare as the bytes of their folded forms do, and as their
    folded characters do, one after the other, a word coming after its beginnings.  The stable
    sorter, which keeps keys, sorts by this order, and a tree lists its words by it, one of each
    class of equal words.  The order is total and transitive, and words are equal in it exactly if
    they fold to the same word. -/
theorem WordOrder.one_order_everywhere (order : WordOrder) :
    (∀ a b, order.compare a b
        = List.compareLex Ord.compare (Utf8.encode (order.key a)) (Utf8.encode (order.key b))) ∧
      (∀ a b, order.compare a b = List.compareLex order.compareChar a b) ∧
      (∀ words, Sorter.stable.sort order words
        = words.mergeSort fun a b => (order.compare a b).isLE) ∧
      (∀ words, (Ternary.Tree.ofWords order words).words.map order.key
        = ((words.mergeSort fun a b => (order.compare a b).isLE).map order.key).dedup) ∧
      (∀ a b, order.compare b a = (order.compare a b).swap) ∧
      (∀ a b, (order.compare a b).isLE = true ∨ (order.compare b a).isLE = true) ∧
      (∀ a b c, (order.compare a b).isLE = true → (order.compare b c).isLE = true →
        (order.compare a c).isLE = true) ∧
      ∀ a b, order.compare a b = .eq ↔ order.key a = order.key b := by
  refine ⟨?_, order.compare_eq_compareLex, Sorter.stable_sort_eq order,
    Ternary.Tree.map_key_words_ofWords order, ?_, ?_, ?_, order.compare_eq_eq_iff⟩
  · intro a b
    exact (order.compareKeys_eq a b).symm
  · intro a b
    exact OrientedCmp.eq_swap
  · intro a b
    have htotal : ((order.compare a b).isLE || (order.compare b a).isLE) = true := isLE_or_isLE a b
    rwa [Bool.or_eq_true] at htotal
  · intro a b c
    exact TransCmp.isLE_trans

end Lexicon
