import Lexicon.Proofs.Ternary.Insert
import Lexicon.Ternary.Query

namespace Lexicon.Ternary.Node

open Std

/-!
# The words of a search tree

* `mem_words_branch`, `words_branch`, `exists_of_mem_words` — which words a node lists.
* `length_words` — there are as many as nodes where a word ends.
* `Ordered.words_pairwise` — nodes in order list ascending words, no two of them equal.
* `Ordered.contains_iff` — a word is found exactly if a listed one equals it.
-/

variable {order : WordOrder}

theorem mem_words_branch {id : Nat} {char : Char} {isEnd : Bool} {lo eq hi : Node} {word : Word} :
    word ∈ (branch id char isEnd lo eq hi).words ↔
      word ∈ lo.words ∨ (isEnd = true ∧ word = [char]) ∨ (∃ rest ∈ eq.words, word = char :: rest) ∨
        word ∈ hi.words := by
  cases isEnd <;> simp [words, eq_comm]

/-- The words of a node are those to its sides and, between them, those that begin with its
    character. -/
theorem words_branch (id : Nat) (char : Char) (isEnd : Bool) (lo eq hi : Node) :
    (branch id char isEnd lo eq hi).words =
      lo.words ++ ((if isEnd then [[]] else []) ++ eq.words).map (char :: ·) ++ hi.words := by
  cases isEnd <;> simp [words]

/-- A word of a node begins with one of the characters for its first place. -/
theorem exists_of_mem_words {node : Node} {word : Word} (h : word ∈ node.words) :
    ∃ c rest, word = c :: rest ∧ c ∈ node.heads := by
  induction node with
  | leaf => simp [words] at h
  | branch id char isEnd lo eq hi ihlo iheq ihhi =>
    rcases mem_words_branch.mp h with hlo | ⟨-, rfl⟩ | ⟨rest, -, rfl⟩ | hhi
    · obtain ⟨c, rest, hword, hc⟩ := ihlo hlo
      exact ⟨c, rest, hword, List.mem_append_left _ hc⟩
    · exact ⟨char, [], rfl, by simp [heads]⟩
    · exact ⟨char, rest, rfl, by simp [heads]⟩
    · obtain ⟨c, rest, hword, hc⟩ := ihhi hhi
      exact ⟨c, rest, hword, List.mem_append_right _ (List.mem_cons_of_mem _ hc)⟩

/-- Each node where a word ends lists one word. -/
theorem length_words (node : Node) : node.words.length = node.endCount := by
  induction node with
  | leaf => rfl
  | branch id char isEnd lo eq hi ihlo iheq ihhi =>
    cases isEnd <;> simp [words, endCount, ihlo, iheq, ihhi] <;> omega

/-! ### Order of the words -/

/-- Words compare as their first characters, if these are not equal. -/
theorem compare_of_heads {c d : Char} {side : Ordering} (h : order.compareChar c d = side)
    (hside : side ≠ .eq) (rest rest' : List Char) :
    order.compare (c :: rest) (d :: rest') = side := by
  rw [WordOrder.compare_cons_cons, h]
  cases side with
  | eq => exact absurd rfl hside
  | lt => rfl
  | gt => rfl

/-- Words that begin alike compare by the rest. -/
theorem compare_cons_self (c : Char) (rest rest' : List Char) :
    order.compare (c :: rest) (c :: rest') = order.compare rest rest' :=
  compare_of_same ReflCmp.compare_self ReflCmp.compare_self rest rest'

/-- The words of a node ascend strictly. -/
theorem Ordered.words_pairwise {node : Node} (h : node.Ordered order) :
    node.words.Pairwise fun a b => order.compare a b = .lt := by
  induction node with
  | leaf => exact List.Pairwise.nil
  | branch id char isEnd lo eq hi ihlo iheq ihhi =>
    obtain ⟨hlo, hhi, hloOrdered, heqOrdered, hhiOrdered⟩ := h
    -- The words to the sides come before and after all words that begin with the character.
    have hbefore : ∀ a ∈ lo.words, ∀ rest, order.compare a (char :: rest) = .lt := by
      intro a ha rest
      obtain ⟨c, rest', rfl, hc⟩ := exists_of_mem_words ha
      exact compare_of_heads (hlo c hc) (by decide) _ _
    have hafter : ∀ b ∈ hi.words, ∀ rest, order.compare (char :: rest) b = .lt := by
      intro b hb rest
      obtain ⟨c, rest', rfl, hc⟩ := exists_of_mem_words hb
      exact compare_of_heads (OrientedCmp.lt_of_gt (hhi c hc)) (by decide) _ _
    have hown : ∀ a ∈ (if isEnd then [[char]] else []), a = [char] := by
      cases isEnd <;> simp
    rw [words, List.pairwise_append, List.pairwise_append, List.pairwise_append, List.pairwise_map]
    refine ⟨⟨⟨ihlo hloOrdered, ?_, ?_⟩, ?_, ?_⟩, ihhi hhiOrdered, ?_⟩
    · cases isEnd <;> simp
    · intro a ha b hb
      rw [hown b hb]
      exact hbefore a ha []
    · refine (iheq heqOrdered).imp ?_
      intro a b hab
      rwa [compare_cons_self]
    · intro a ha b hb
      obtain ⟨rest, hrest, rfl⟩ := List.mem_map.mp hb
      rcases List.mem_append.mp ha with ha | ha
      · exact hbefore a ha rest
      · -- The word that ends here comes before those that go on.
        obtain ⟨c, rest', rfl, -⟩ := exists_of_mem_words hrest
        rw [hown a ha, compare_cons_self, WordOrder.compare_nil_cons]
    · intro a ha b hb
      rcases List.mem_append.mp ha with ha | ha
      · rcases List.mem_append.mp ha with ha | ha
        · exact TransCmp.lt_trans (hbefore a ha []) (hafter b hb [])
        · rw [hown a ha]
          exact hafter b hb []
      · obtain ⟨rest, -, rfl⟩ := List.mem_map.mp ha
        exact hafter b hb rest

/-! ### Words that are found -/

/-- Of the words of a node, only those on the side of a query can equal it. -/
theorem Ordered.mem_words_of_compare_eq {id : Nat} {char : Char} {isEnd : Bool} {lo eq hi : Node}
    (h : (branch id char isEnd lo eq hi).Ordered order) {word : Word}
    (hword : word ∈ (branch id char isEnd lo eq hi).words) {c : Char} {rest : List Char}
    (heq : order.compare word (c :: rest) = .eq) :
    (order.compareChar c char = .lt ∧ word ∈ lo.words) ∨
      (order.compareChar c char = .gt ∧ word ∈ hi.words) ∨
      (order.compareChar c char = .eq ∧
        ((isEnd = true ∧ rest = []) ∨
          ∃ word' ∈ eq.words, order.compare word' rest = .eq)) := by
  obtain ⟨hlo, hhi, -⟩ := h
  have hself : order.compareChar char char = .eq := ReflCmp.compare_self
  -- Equal words begin on the same side of the character, which tells where the word comes from.
  rcases mem_words_branch.mp hword with hword | ⟨hend, rfl⟩ | ⟨word', hword', rfl⟩ | hword
  · obtain ⟨d, rest', rfl, hd⟩ := exists_of_mem_words hword
    exact .inl ⟨(side_of_compare_eq heq char).symm.trans (hlo d hd), hword⟩
  · have hside := (side_of_compare_eq heq char).symm.trans hself
    rw [compare_of_same hself hside] at heq
    refine .inr (.inr ⟨hside, .inl ⟨hend, ?_⟩⟩)
    cases rest with
    | nil => rfl
    | cons d rest => simp at heq
  · have hside := (side_of_compare_eq heq char).symm.trans hself
    rw [compare_of_same hself hside] at heq
    exact .inr (.inr ⟨hside, .inr ⟨word', hword', heq⟩⟩)
  · obtain ⟨d, rest', rfl, hd⟩ := exists_of_mem_words hword
    exact .inr (.inl ⟨(side_of_compare_eq heq char).symm.trans (hhi d hd), hword⟩)

/-- A word is found exactly if a listed one equals it. -/
theorem Ordered.contains_iff {node : Node} (h : node.Ordered order) (c : Char)
    (rest : List Char) :
    node.contains order c rest = true ↔
      ∃ word ∈ node.words, order.compare word (c :: rest) = .eq := by
  have hself : ∀ c, order.compareChar c c = .eq := fun _ => ReflCmp.compare_self
  fun_induction contains order node c rest with
  | case1 => simp [words]
  | case2 own char isEnd lo eq hi c rest hside ih =>
    refine (ih h.2.2.1).trans ⟨?_, ?_⟩
    · rintro ⟨word, hword, heq⟩
      exact ⟨word, mem_words_branch.mpr (.inl hword), heq⟩
    · rintro ⟨word, hword, heq⟩
      have := h.mem_words_of_compare_eq hword heq
      simp only [hside, reduceCtorEq, true_and, false_and, or_false] at this
      exact ⟨word, this, heq⟩
  | case3 own char isEnd lo eq hi c rest hside ih =>
    refine (ih h.2.2.2.2).trans ⟨?_, ?_⟩
    · rintro ⟨word, hword, heq⟩
      exact ⟨word, mem_words_branch.mpr (.inr (.inr (.inr hword))), heq⟩
    · rintro ⟨word, hword, heq⟩
      have := h.mem_words_of_compare_eq hword heq
      simp only [hside, reduceCtorEq, true_and, false_and, false_or, or_false] at this
      exact ⟨word, this, heq⟩
  | case4 own char isEnd lo eq hi c hside =>
    constructor
    · intro hend
      refine ⟨[char], mem_words_branch.mpr (.inr (.inl ⟨hend, rfl⟩)), ?_⟩
      rw [compare_of_same (hself char) hside, WordOrder.compare_nil_nil]
    · rintro ⟨word, hword, heq⟩
      have := h.mem_words_of_compare_eq hword heq
      simp only [hside, reduceCtorEq, true_and, false_and, false_or] at this
      rcases this with ⟨hend, -⟩ | ⟨word', hword', heq'⟩
      · exact hend
      · -- A word that goes on behind the character is longer than the query.
        obtain ⟨d, rest, rfl, -⟩ := exists_of_mem_words hword'
        simp at heq'
  | case5 own char isEnd lo eq hi c hside d rest ih =>
    refine (ih h.2.2.2.1).trans ⟨?_, ?_⟩
    · rintro ⟨word, hword, heq⟩
      refine ⟨char :: word, mem_words_branch.mpr (.inr (.inr (.inl ⟨word, hword, rfl⟩))), ?_⟩
      rwa [compare_of_same (hself char) hside]
    · rintro ⟨word, hword, heq⟩
      have := h.mem_words_of_compare_eq hword heq
      simpa [hside] using this

end Lexicon.Ternary.Node
