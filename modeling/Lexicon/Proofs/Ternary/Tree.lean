import Lexicon.Proofs.Ternary.Words
import Lexicon.Ternary.Tree
import Mathlib.Data.Set.Card

namespace Lexicon.Ternary.Tree

open Std

/-!
# Search trees as sets of words

A tree is the set of the words that were added, where words that are equal in its order count
as one.

* `Sound` — the nodes are in order, and every word is counted once.
* `Sound.insert`, `contains_insert` — what adding a word does to a tree.
* `Sound.contains_iff`, `Sound.words_pairwise`, `Sound.length_words` — what a tree says of its
  words.
* `words_ofWords_exact` — the words of a tree that tells cases apart.
* `ofWords_is_set` — the tree of some words is the set of their classes.
-/

variable {tree : Tree}

/-- A tree whose nodes are in order and whose words are counted. -/
structure Sound (tree : Tree) : Prop where
  /-- The nodes are in order. -/
  ordered : tree.root.Ordered tree.order
  /-- Every word is counted. -/
  size_eq : tree.size = tree.hasEmptyWord.toNat + tree.root.endCount

/-! ### Adding words -/

@[simp] theorem order_insert (tree : Tree) (word : Word) :
    (tree.insert word).order = tree.order := by
  cases word <;> rfl

theorem sound_empty (order : WordOrder) : (empty order).Sound where
  ordered := trivial
  size_eq := rfl

/-- Adding a word keeps a tree sound. -/
theorem Sound.insert (h : tree.Sound) (word : Word) : (tree.insert word).Sound := by
  cases word with
  | nil =>
    refine ⟨h.ordered, ?_⟩
    show tree.size + (!tree.hasEmptyWord).toNat = 1 + tree.root.endCount
    rw [h.size_eq]
    cases tree.hasEmptyWord with
    | false => simp only [Bool.toNat_false, Bool.not_false, Bool.toNat_true]; omega
    | true => simp
  | cons c rest =>
    refine ⟨h.ordered.insert tree.nodeCount c rest, ?_⟩
    show tree.size + (tree.root.isNew tree.order c rest).toNat = tree.hasEmptyWord.toNat
      + (tree.root.insert tree.order tree.nodeCount c rest).endCount
    rw [Node.endCount_insert, h.size_eq, Nat.add_assoc]

/-- After a word was added, it is found in all its spellings, and all others as before. -/
theorem contains_insert (tree : Tree) (word query : Word) :
    (tree.insert word).contains query
      = (tree.contains query || tree.order.compare word query == .eq) := by
  cases word with
  | nil => cases query <;> simp [Tree.insert, contains]
  | cons c rest =>
    cases query with
    | nil => simp [Tree.insert, contains]
    | cons d query => exact Node.contains_insert _ _ _ _ _ _ _

/-- What adding many words does to a tree. -/
theorem insertMany_spec (h : tree.Sound) (words : List Word) :
    (tree.insertMany words).Sound ∧ (tree.insertMany words).order = tree.order ∧
      ∀ query, (tree.insertMany words).contains query = true ↔
        tree.contains query = true ∨ ∃ word ∈ words, tree.order.compare word query = .eq := by
  induction words generalizing tree with
  | nil => exact ⟨h, rfl, by simp [insertMany]⟩
  | cons word words ih =>
    obtain ⟨hsound, horder, hcontains⟩ := ih (h.insert word)
    refine ⟨hsound, horder.trans (order_insert tree word), fun query => ?_⟩
    rw [order_insert] at hcontains
    refine (hcontains query).trans ?_
    rw [contains_insert, Bool.or_eq_true, beq_iff_eq, List.exists_mem_cons_iff, or_assoc]

theorem sound_ofWords (order : WordOrder) (words : List Word) : (ofWords order words).Sound :=
  (insertMany_spec (sound_empty order) words).1

@[simp] theorem order_ofWords (order : WordOrder) (words : List Word) :
    (ofWords order words).order = order :=
  (insertMany_spec (sound_empty order) words).2.1

theorem ofWords_concat (order : WordOrder) (words : List Word) (word : Word) :
    ofWords order (words ++ [word]) = (ofWords order words).insert word :=
  List.foldl_append

/-- The nodes of some words, as one word after the other was added to them. -/
theorem root_induction {order : WordOrder} {P : Nat → Node → Prop} (hleaf : P 0 .leaf)
    (hinsert : ∀ {next : Nat} {node : Node} (c : Char) (rest : List Char), P next node →
      P (next + node.missing order c rest) (node.insert order next c rest))
    (added : List Word) : P (ofWords order added).nodeCount (ofWords order added).root := by
  -- From the back, as the last word was added to the tree of those in front of it.
  induction added using List.reverseRecOn with
  | nil => exact hleaf
  | append_singleton added word ih =>
    rw [ofWords_concat]
    cases word with
    | nil => exact ih
    | cons c rest =>
      simp only [Tree.insert, order_ofWords]
      exact hinsert c rest ih

/-- A tree of words finds those that equal one of them. -/
theorem contains_ofWords_iff (order : WordOrder) (words : List Word) (query : Word) :
    (ofWords order words).contains query = true ↔
      ∃ word ∈ words, order.compare word query = .eq := by
  have hnone : (empty order).contains query = false := by cases query <;> rfl
  refine ((insertMany_spec (sound_empty order) words).2.2 query).trans ?_
  rw [hnone]
  simp [empty]

/-! ### The words of a tree -/

theorem mem_words_iff {word : Word} :
    word ∈ tree.words ↔ (tree.hasEmptyWord = true ∧ word = []) ∨ word ∈ tree.root.words := by
  unfold words emptyWordIf
  cases tree.hasEmptyWord <;> simp

/-- There are as many words as were counted. -/
theorem Sound.length_words (h : tree.Sound) : tree.words.length = tree.size := by
  rw [h.size_eq, ← Node.length_words]
  unfold words emptyWordIf
  cases tree.hasEmptyWord with
  | false => simp
  | true => exact Nat.add_comm _ 1

/-- The words of a tree ascend strictly. -/
theorem Sound.words_pairwise (h : tree.Sound) :
    tree.words.Pairwise fun a b => tree.order.compare a b = .lt := by
  rw [words, List.pairwise_append]
  refine ⟨?_, h.ordered.words_pairwise, ?_⟩
  · unfold emptyWordIf
    split_ifs <;> simp
  · intro a ha b hb
    obtain ⟨c, rest, rfl, -⟩ := Node.exists_of_mem_words hb
    have hnil : a = [] := by
      unfold emptyWordIf at ha
      split_ifs at ha
      · exact List.mem_singleton.mp ha
      · simp at ha
    rw [hnil, WordOrder.compare_nil_cons]

/-- A word is found exactly if a listed one equals it. -/
theorem Sound.contains_iff (h : tree.Sound) (query : Word) :
    tree.contains query = true ↔ ∃ word ∈ tree.words, tree.order.compare word query = .eq := by
  cases query with
  | nil =>
    constructor
    · intro hempty
      exact ⟨[], mem_words_iff.mpr (.inl ⟨hempty, rfl⟩), WordOrder.compare_nil_nil _⟩
    · rintro ⟨word, hword, heq⟩
      rcases mem_words_iff.mp hword with ⟨hempty, -⟩ | hword
      · exact hempty
      · obtain ⟨c, rest, rfl, -⟩ := Node.exists_of_mem_words hword
        simp at heq
  | cons c rest =>
    refine (h.ordered.contains_iff c rest).trans ⟨?_, ?_⟩
    · rintro ⟨word, hword, heq⟩
      exact ⟨word, mem_words_iff.mpr (.inr hword), heq⟩
    · rintro ⟨word, hword, heq⟩
      rcases mem_words_iff.mp hword with ⟨-, rfl⟩ | hword
      · simp at heq
      · exact ⟨word, hword, heq⟩

/-- No two words of a tree are equal in its order. -/
theorem Sound.eq_of_compare_eq (h : tree.Sound) {a b : Word} (ha : a ∈ tree.words)
    (hb : b ∈ tree.words) (heq : tree.order.compare a b = .eq) : a = b := by
  have hsymm : Std.Symm fun a b : Word => tree.order.compare a b ≠ .eq :=
    ⟨fun a b hab hba => hab (OrientedCmp.eq_symm hba)⟩
  -- Words that ascend strictly are apart in the order, whichever of two comes first.
  have hne : tree.words.Pairwise fun a b => tree.order.compare a b ≠ .eq :=
    h.words_pairwise.imp fun hlt heq => by simp [hlt] at heq
  by_contra hab
  exact hne.forall ha hb hab heq

theorem Sound.nodup_words (h : tree.Sound) : tree.words.Nodup := by
  refine h.words_pairwise.imp ?_
  intro a b hlt hab
  have hself : tree.order.compare b b = .eq := ReflCmp.compare_self
  rw [hab, hself] at hlt
  exact absurd hlt (by decide)

/-! ### The tree of some words -/

/-- Each word of a tree equals one that was added. -/
theorem exists_of_mem_words_ofWords {order : WordOrder} {words : List Word} {stored : Word}
    (h : stored ∈ (ofWords order words).words) :
    ∃ word ∈ words, order.compare word stored = .eq := by
  refine (contains_ofWords_iff order words stored).mp ?_
  exact ((sound_ofWords order words).contains_iff stored).mpr ⟨stored, h, ReflCmp.compare_self⟩

/-- Each word that was added equals one of the tree. -/
theorem exists_mem_words_ofWords (order : WordOrder) {words : List Word} {word : Word}
    (h : word ∈ words) :
    ∃ stored ∈ (ofWords order words).words, order.compare stored word = .eq := by
  have hfound := (contains_ofWords_iff order words word).mpr ⟨word, h, ReflCmp.compare_self⟩
  simpa using ((sound_ofWords order words).contains_iff word).mp hfound

/-- A tree that tells cases apart has the words that were added, once each and in the order of the
    code points. -/
theorem words_ofWords_exact (added : List Word) :
    (ofWords .exact added).words.Pairwise (· < ·) ∧
      ∀ word, word ∈ (ofWords .exact added).words ↔ word ∈ added := by
  have hascends := (sound_ofWords .exact added).words_pairwise
  rw [order_ofWords] at hascends
  refine ⟨hascends.imp fun h => (WordOrder.compare_exact_lt_iff _ _).mp h, fun word => ⟨?_, ?_⟩⟩
  · intro hword
    obtain ⟨word', hword', heq⟩ := exists_of_mem_words_ofWords hword
    rwa [← (WordOrder.compare_exact_eq_iff _ _).mp heq]
  · intro hword
    obtain ⟨stored, hstored, heq⟩ := exists_mem_words_ofWords .exact hword
    rwa [← (WordOrder.compare_exact_eq_iff _ _).mp heq]

/-- The different elements of a list without repetitions are as many as the list is long. -/
theorem ncard_mem_of_nodup {α : Type} {l : List α} (h : l.Nodup) :
    {a | a ∈ l}.ncard = l.length := by
  classical
  rw [← List.coe_toFinset, Set.ncard_coe_finset, List.toFinset_card_of_nodup h]

/-- A tree counts the classes of the words that were added. -/
theorem size_ofWords (order : WordOrder) (words : List Word) :
    (ofWords order words).size = (Quotient.mk order.equal '' {word | word ∈ words}).ncard := by
  have hsound := sound_ofWords order words
  -- Words that ascend strictly are of different classes, so to count words is to count classes.
  have hnodup : ((ofWords order words).words.map (Quotient.mk order.equal)).Nodup := by
    refine List.pairwise_map.mpr (hsound.words_pairwise.imp ?_)
    intro a b hlt hclass
    have heq : order.compare a b = .eq := Quotient.exact hclass
    simp [heq] at hlt
  have hclasses : Quotient.mk order.equal '' {word | word ∈ words}
      = {c | c ∈ (ofWords order words).words.map (Quotient.mk order.equal)} := by
    ext c
    simp only [Set.mem_image, Set.mem_ofPred_eq, List.mem_map]
    constructor
    · rintro ⟨word, hword, rfl⟩
      obtain ⟨stored, hstored, heq⟩ := exists_mem_words_ofWords order hword
      exact ⟨stored, hstored, Quotient.sound heq⟩
    · rintro ⟨stored, hstored, rfl⟩
      obtain ⟨word, hword, heq⟩ := exists_of_mem_words_ofWords hstored
      exact ⟨word, hword, Quotient.sound heq⟩
  rw [hclasses, ncard_mem_of_nodup hnodup, List.length_map, hsound.length_words]

/-- **Search trees are sets.** After any words were added to an empty tree, it finds the words
    that equal one of them, counts their classes, and lists one word of each class, in strictly
    ascending order. -/
theorem ofWords_is_set (order : WordOrder) (added : List Word) :
    (∀ query, (ofWords order added).contains query = true ↔
        ∃ word ∈ added, order.compare word query = .eq) ∧
      (ofWords order added).size = (Quotient.mk order.equal '' {word | word ∈ added}).ncard ∧
      (ofWords order added).words.Pairwise (fun a b => order.compare a b = .lt) ∧
      (∀ word ∈ added, ∃! stored, stored ∈ (ofWords order added).words ∧
        order.compare stored word = .eq) ∧
      ∀ stored ∈ (ofWords order added).words, ∃ word ∈ added,
        order.compare stored word = .eq := by
  have hsound := sound_ofWords order added
  refine ⟨contains_ofWords_iff order added, size_ofWords order added, ?_, ?_, ?_⟩
  · simpa using hsound.words_pairwise
  · intro word hword
    obtain ⟨stored, hstored, heq⟩ := exists_mem_words_ofWords order hword
    refine ⟨stored, ⟨hstored, heq⟩, ?_⟩
    -- Two listed words that equal the same word equal each other.
    rintro other ⟨hother, heq'⟩
    refine hsound.eq_of_compare_eq hother hstored ?_
    rw [order_ofWords]
    exact TransCmp.eq_trans heq' (OrientedCmp.eq_symm heq)
  · intro stored hstored
    obtain ⟨word, hword, heq⟩ := exists_of_mem_words_ofWords hstored
    exact ⟨word, hword, OrientedCmp.eq_symm heq⟩

end Lexicon.Ternary.Tree
