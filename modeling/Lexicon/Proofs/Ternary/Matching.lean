import Lexicon.Proofs.Ternary.Tree

namespace Lexicon.Ternary

/-!
# Words that match a pattern

* `admits` — whether a pattern admits a word, place by place.
* `Node.Ordered.matching_eq_filter` — no subtree is left out that holds a word which the pattern
  admits.
* `Node.matchingFrom`, `Tree.matchingByPlace` — the search as it reads the pattern, by the number
  of the place; `Node.matchingFrom_eq` says that it never reads behind the last place.
* `Tree.matching_ofWords` — a search by a pattern is a filter of the words of the tree.
-/

/-- Whether a pattern is as long as a word and has, in every place, a wildcard or the character of
    the word. -/
def admits (pattern word : Word) : Bool :=
  pattern.length == word.length && (pattern.zip word).all fun (c, d) => c == wildcard || c == d

@[simp] theorem admits_nil (word : Word) : admits [] word = word.isEmpty := by
  cases word <;> rfl

@[simp] theorem admits_cons_nil (c : Char) (pattern : Word) : admits (c :: pattern) [] = false :=
  rfl

theorem admits_cons_cons (c d : Char) (pattern word : Word) :
    admits (c :: pattern) (d :: word) = ((c == wildcard || c == d) && admits pattern word) := by
  have hlength : (pattern.length + 1 == word.length + 1) = (pattern.length == word.length) := by
    rw [Bool.eq_iff_iff, beq_iff_eq, beq_iff_eq, Nat.add_right_cancel_iff]
  simp only [admits, List.length_cons, List.zip_cons_cons, List.all_cons, hlength]
  ac_rfl

namespace Node

/-! ### What is left out -/

/-- A side that is left out, since the pattern has another character there, holds no word that the
    pattern admits. -/
theorem filter_admits_side {node : Node} {char : Char} {side : Ordering} (c : Char) (rest : Word)
    (h : ∀ d ∈ node.heads, WordOrder.exact.compareChar d char = side) :
    (if c == wildcard || compare c char == side then
        node.words.filter (admits (c :: rest)) else [])
      = node.words.filter (admits (c :: rest)) := by
  split_ifs with hvisited
  · rfl
  · simp only [Bool.or_eq_true, beq_iff_eq, not_or] at hvisited
    obtain ⟨hwild, hside⟩ := hvisited
    refine (List.filter_eq_nil_iff.mpr fun word hword => ?_).symm
    obtain ⟨d, word, rfl, hd⟩ := exists_of_mem_words hword
    -- The word begins on this side of the character, and the pattern does not.
    have hne : c ≠ d := by
      rintro rfl
      exact hside ((WordOrder.compareChar_eq .exact c char).symm.trans (h c hd))
    simp [admits_cons_cons, hwild, hne]

/-- The words that begin with a character are those whose rest the rest of the pattern admits. -/
theorem filter_admits_below (c char : Char) (rest : Word) (words : List Word) :
    (words.map (char :: ·)).filter (admits (c :: rest))
      = if c == wildcard || compare c char == .eq then
          (words.filter (admits rest)).map (char :: ·) else [] := by
  have hhere : (compare c char == .eq) = (c == char) := by
    rw [Bool.eq_iff_iff, beq_iff_eq, beq_iff_eq, Std.LawfulEqOrd.compare_eq_iff_eq]
  rw [hhere, List.filter_map]
  split_ifs with hmatch
  · congr 1
    refine List.filter_congr fun word _ => ?_
    rw [Function.comp_apply, admits_cons_cons, hmatch, Bool.true_and]
  · rw [List.map_eq_nil_iff, List.filter_eq_nil_iff]
    intro word _
    simp [admits_cons_cons, hmatch]

/-- A pattern that is used up admits no word of a node. -/
theorem filter_admits_nil (node : Node) : node.words.filter (admits []) = [] := by
  refine List.filter_eq_nil_iff.mpr fun word hword => ?_
  obtain ⟨c, rest, rfl, -⟩ := exists_of_mem_words hword
  simp

/-- A search by a pattern lists the words that it admits, and leaves none out. -/
theorem Ordered.matching_eq_filter {node : Node} (h : node.Ordered .exact) (c : Char)
    (rest : List Char) :
    node.matching c rest = node.words.filter (admits (c :: rest)) := by
  induction node generalizing c rest with
  | leaf => rfl
  | branch id char isEnd lo eq hi ihlo iheq ihhi =>
    obtain ⟨hlo, hhi, hloOrdered, heqOrdered, hhiOrdered⟩ := h
    rw [words_branch, List.filter_append, List.filter_append, filter_admits_below,
      ← filter_admits_side c rest hlo, ← filter_admits_side c rest hhi, ← ihlo hloOrdered,
      ← ihhi hhiOrdered]
    cases rest with
    | nil =>
      rw [List.filter_append, filter_admits_nil]
      cases isEnd <;> rfl
    | cons d rest =>
      -- A pattern that goes on does not admit the word that ends at the node.
      have hbelow : ((if isEnd then [[]] else []) ++ eq.words).filter (admits (d :: rest))
          = eq.matching d rest := by
        rw [List.filter_append, iheq heqOrdered]
        cases isEnd <;> rfl
      rw [hbelow]
      rfl

/-! ### Places of the pattern -/

/-- The words that match a pattern from a place on, where each node that is visited has the
    character at its place read; there are none to be had if a place behind the last one is read. -/
def matchingFrom (pattern : Word) : Node → (place : Nat) → Option (List Word)
  | leaf, _ => some []
  | branch _ char isEnd lo eq hi, place => do
    let c ← pattern[place]?
    let wild := c == wildcard
    let side := compare c char
    let before ← (if wild || side == .lt then lo.matchingFrom pattern place else some [])
    let here ← (if wild || side == .eq then
        if place + 1 = pattern.length then some (if isEnd then [[char]] else [])
        else (eq.matchingFrom pattern (place + 1)).map fun words => words.map (char :: ·)
      else some [])
    let after ← (if wild || side == .gt then hi.matchingFrom pattern place else some [])
    return before ++ here ++ after

/-- From a place of the pattern on, no place behind the last one is read. -/
theorem matchingFrom_eq {pattern : Word} (node : Node) {place : Nat} {c : Char} {rest : List Char}
    (h : pattern.drop place = c :: rest) :
    node.matchingFrom pattern place = some (node.matching c rest) := by
  induction node generalizing place c rest with
  | leaf => rfl
  | branch id char isEnd lo eq hi ihlo iheq ihhi =>
    have hread : pattern[place]? = some c := by
      rw [← List.head?_drop, h, List.head?_cons]
    have hnext : pattern.drop (place + 1) = rest := by
      rw [← List.tail_drop, h, List.tail_cons]
    have hlast : place + 1 = pattern.length ↔ rest = [] := by
      have hlength := congrArg List.length h
      rw [List.length_drop, List.length_cons] at hlength
      rw [← List.length_eq_zero_iff]
      omega
    cases rest with
    | nil =>
      simp only [matchingFrom, matching, hread, ihlo h, ihhi h, hlast, if_true, ← apply_ite some,
        Option.bind_eq_bind, Option.bind_some, Option.pure_def]
    | cons d rest =>
      simp only [matchingFrom, matching, hread, ihlo h, ihhi h, hlast, iheq hnext, reduceCtorEq,
        if_false, Option.map_some, ← apply_ite some, Option.bind_eq_bind, Option.bind_some,
        Option.pure_def]

end Node

namespace Tree

/-- The search by a pattern, where the character at each place of the pattern is read when a node
    is visited. -/
def matchingByPlace (tree : Tree) (pattern : Word) : Option (List Word) :=
  if pattern.isEmpty then some (tree.emptyWordIf true) else tree.root.matchingFrom pattern 0

/-- A search by a pattern reads no place behind the last one. -/
theorem matchingByPlace_eq {tree : Tree} (h : tree.order.isCaseSensitive = true) (pattern : Word) :
    ∃ words, tree.matching pattern = .ok words ∧ tree.matchingByPlace pattern = some words := by
  cases pattern with
  | nil => exact ⟨_, if_pos h, rfl⟩
  | cons c rest => exact ⟨_, if_pos h, Node.matchingFrom_eq tree.root rfl⟩

/-- A search by a pattern is a filter of the words of the tree. -/
theorem matching_eq_filter (added : List Word) (pattern : Word) :
    (ofWords .exact added).matching pattern
      = .ok ((ofWords .exact added).words.filter (admits pattern)) := by
  have hroot := (sound_ofWords .exact added).ordered
  rw [order_ofWords] at hroot
  rw [words, List.filter_append]
  cases pattern with
  | nil =>
    rw [Node.filter_admits_nil, List.append_nil]
    unfold matching emptyWordIf
    rw [order_ofWords]
    cases (ofWords .exact added).hasEmptyWord <;> rfl
  | cons c rest =>
    have hempty : ((ofWords .exact added).emptyWordIf true).filter (admits (c :: rest)) = [] := by
      unfold emptyWordIf
      split_ifs <;> rfl
    rw [hempty, List.nil_append, ← hroot.matching_eq_filter]
    unfold matching
    rw [order_ofWords]
    rfl

/-- **Searches by a pattern.** In a tree that tells cases apart, a search lists exactly the words
    that the pattern admits, once each and in the order of the tree, and never reads the pattern
    behind its last place. -/
theorem matching_ofWords (added : List Word) (pattern : Word) :
    (ofWords .exact added).matching pattern
        = .ok ((ofWords .exact added).words.filter (admits pattern)) ∧
      ((ofWords .exact added).words.filter (admits pattern)).Nodup ∧
      (ofWords .exact added).matchingByPlace pattern
        = some ((ofWords .exact added).words.filter (admits pattern)) := by
  have hfilter := matching_eq_filter added pattern
  have hcase : (ofWords .exact added).order.isCaseSensitive = true := by
    rw [order_ofWords]
    rfl
  obtain ⟨words, hwords, hplaces⟩ := matchingByPlace_eq hcase pattern
  refine ⟨hfilter, (sound_ofWords .exact added).nodup_words.filter _, ?_⟩
  rw [hplaces, Except.ok.inj (hwords.symm.trans hfilter)]

end Tree

end Lexicon.Ternary
