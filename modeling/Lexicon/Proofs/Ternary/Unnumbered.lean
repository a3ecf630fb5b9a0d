import Lexicon.Proofs.Ternary.Beginnings

namespace Lexicon.Ternary

/-!
# Trees without the numbers of their nodes

The numbers tell only in which order the nodes were made.  No search looks at them, and neither do
the measures and the picture of a tree.

* `Node.unnumbered` — the nodes without their numbers.
* `Node.words_unnumbered`, `Node.near_unnumbered` and their like — what does not depend on them.
* `Tree.SameShape`, `Tree.sameShape_ofWords` — trees that differ in the numbers at most.
-/

variable {order : WordOrder}

namespace Node

/-- The nodes with their characters, the ends of words and the links, all of one number. -/
def unnumbered : Node → Node
  | leaf => leaf
  | branch _ char isEnd lo eq hi => branch 0 char isEnd lo.unnumbered eq.unnumbered hi.unnumbered

theorem unnumbered_branch (id : Nat) (char : Char) (isEnd : Bool) (lo eq hi : Node) :
    (branch id char isEnd lo eq hi).unnumbered
      = branch 0 char isEnd lo.unnumbered eq.unnumbered hi.unnumbered :=
  rfl

@[simp] theorem count_unnumbered (node : Node) : node.unnumbered.count = node.count := by
  induction node with
  | leaf => rfl
  | branch id char isEnd lo eq hi ihlo iheq ihhi =>
    simp only [unnumbered_branch, count, ihlo, iheq, ihhi]

@[simp] theorem endCount_unnumbered (node : Node) : node.unnumbered.endCount = node.endCount := by
  induction node with
  | leaf => rfl
  | branch id char isEnd lo eq hi ihlo iheq ihhi =>
    simp only [unnumbered_branch, endCount, ihlo, iheq, ihhi]

@[simp] theorem height_unnumbered (node : Node) : node.unnumbered.height = node.height := by
  induction node with
  | leaf => rfl
  | branch id char isEnd lo eq hi ihlo iheq ihhi =>
    simp only [unnumbered_branch, height, ihlo, iheq, ihhi]

@[simp] theorem words_unnumbered (node : Node) : node.unnumbered.words = node.words := by
  induction node with
  | leaf => rfl
  | branch id char isEnd lo eq hi ihlo iheq ihhi =>
    simp only [unnumbered_branch, words, ihlo, iheq, ihhi]

@[simp] theorem lines_unnumbered (node : Node) (link : Text) (depth : Nat) :
    node.unnumbered.lines link depth = node.lines link depth := by
  induction node generalizing link depth with
  | leaf => rfl
  | branch id char isEnd lo eq hi ihlo iheq ihhi =>
    simp only [unnumbered_branch, lines, ihlo, iheq, ihhi]

@[simp] theorem contains_unnumbered (order : WordOrder) (node : Node) (c : Char)
    (rest : List Char) :
    node.unnumbered.contains order c rest = node.contains order c rest := by
  fun_induction contains order node c rest with
  | case1 => rfl
  | case2 id char isEnd lo eq hi c rest hside ih =>
    simp only [unnumbered_branch, contains, hside, ih]
  | case3 id char isEnd lo eq hi c rest hside ih =>
    simp only [unnumbered_branch, contains, hside, ih]
  | case4 id char isEnd lo eq hi c hside =>
    simp only [unnumbered_branch, contains, hside]
  | case5 id char isEnd lo eq hi c hside d rest ih =>
    simp only [unnumbered_branch, contains, hside, ih]

@[simp] theorem matching_unnumbered (node : Node) (c : Char) (rest : List Char) :
    node.unnumbered.matching c rest = node.matching c rest := by
  induction node generalizing c rest with
  | leaf => rfl
  | branch id char isEnd lo eq hi ihlo iheq ihhi =>
    cases rest <;> simp only [unnumbered_branch, matching, ihlo, iheq, ihhi]

@[simp] theorem near_unnumbered (node : Node) (query : List Char) (budget : Nat) :
    node.unnumbered.near query budget = node.near query budget := by
  induction node generalizing query budget with
  | leaf => rfl
  | branch id char isEnd lo eq hi ihlo iheq ihhi =>
    simp only [unnumbered_branch, near, ihlo, iheq, ihhi]

end Node

namespace Tree

/-- Trees that differ in the numbers of their nodes at most, and answer everything alike. -/
structure SameShape (tree tree' : Tree) : Prop where
  /-- The empty word was added to both, or to none. -/
  hasEmptyWord_eq : tree.hasEmptyWord = tree'.hasEmptyWord
  /-- They have the same characters, ends of words and links. -/
  root_eq : tree.root.unnumbered = tree'.root.unnumbered
  /-- They count the same number of words. -/
  size_eq : tree.size = tree'.size
  /-- They have the same number of nodes. -/
  nodeCount_eq : tree.nodeCount = tree'.nodeCount
  /-- They have the same depth. -/
  depth_eq : tree.depth = tree'.depth
  /-- They list the same words. -/
  words_eq : tree.words = tree'.words
  /-- They find the same words. -/
  contains_eq : ∀ query, tree.contains query = tree'.contains query
  /-- They list the same words to a pattern. -/
  matching_eq : ∀ pattern, tree.matching pattern = tree'.matching pattern
  /-- They list the same words near a query. -/
  near_eq : ∀ query distance, tree.near query distance = tree'.near query distance

theorem emptyWordIf_congr {tree tree' : Tree} (h : tree.hasEmptyWord = tree'.hasEmptyWord)
    (admitted : Bool) : tree.emptyWordIf admitted = tree'.emptyWordIf admitted := by
  rw [emptyWordIf, emptyWordIf, h]

/-- Trees of words have the same shape if their nodes have. -/
theorem sameShape_ofWords {added others : List Word}
    (hempty : (ofWords order added).hasEmptyWord = (ofWords order others).hasEmptyWord)
    (hroot : (ofWords order added).root.unnumbered = (ofWords order others).root.unnumbered) :
    (ofWords order added).SameShape (ofWords order others) where
  hasEmptyWord_eq := hempty
  root_eq := hroot
  size_eq := by
    -- The size is the number of ends of words, and one more for the empty word.
    have hends := congrArg Node.endCount hroot
    simp only [Node.endCount_unnumbered] at hends
    rw [(sound_ofWords order added).size_eq, (sound_ofWords order others).size_eq, hempty, hends]
  nodeCount_eq := by
    have hcount := congrArg Node.count hroot
    simp only [Node.count_unnumbered] at hcount
    rw [nodeCount_eq_count, nodeCount_eq_count, hcount]
  depth_eq := by simpa [depth] using congrArg Node.height hroot
  words_eq := by
    have hwords := congrArg Node.words hroot
    simp only [Node.words_unnumbered] at hwords
    rw [words, words, emptyWordIf_congr hempty, hwords]
  contains_eq query := by
    cases query with
    -- No node stands for the empty word.
    | nil => exact hempty
    | cons c rest =>
      have hfound := congrArg (Node.contains order · c rest) hroot
      simpa [contains] using hfound
  matching_eq pattern := by
    cases pattern with
    | nil => simp only [matching, order_ofWords, emptyWordIf_congr hempty]
    | cons c rest =>
      have hlisted := congrArg (Node.matching · c rest) hroot
      simp only [Node.matching_unnumbered] at hlisted
      simp only [matching, order_ofWords, hlisted]
  near_eq query distance := by
    have hlisted := congrArg (Node.near · query distance) hroot
    simp only [Node.near_unnumbered] at hlisted
    simp only [near, order_ofWords, emptyWordIf_congr hempty, hlisted]

end Tree

end Lexicon.Ternary
