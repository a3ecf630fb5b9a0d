import Lexicon.Error
import Lexicon.Ternary.Query
import Lexicon.Ternary.Render
import Lexicon.WordList.Walk

namespace Lexicon.Ternary

/-!
# Ternary search trees

A set of words under a word order.  Besides looking up words it lists those that match a pattern
or come near a query.  Words share the nodes of their common beginnings, and with them the casing
of the word that made these nodes.

* `Tree.insert`, `Tree.ofWords`, `Tree.ofList` — trees from words and from word lists.
* `Tree.contains`, `Tree.matching`, `Tree.near`, `Tree.words` — searches.
* `Tree.depth`, `Tree.outline` — a measure and a picture.
-/

/-- A set of words as nodes.  The empty word has no node to end at. -/
structure Tree where
  /-- The order of the words. -/
  order : WordOrder
  /-- The nodes, from the first one made. -/
  root : Node
  /-- The number of nodes, which is also the number of the next one. -/
  nodeCount : Nat
  /-- Whether the empty word was added. -/
  hasEmptyWord : Bool
  /-- The number of different words. -/
  size : Nat

namespace Tree

/-- A tree without words. -/
def empty (order : WordOrder) : Tree :=
  ⟨order, .leaf, 0, false, 0⟩

/-- Adds a word; a word that is there already changes nothing. -/
def insert (tree : Tree) (word : Word) : Tree :=
  match word with
  | [] => { tree with hasEmptyWord := true, size := tree.size + (!tree.hasEmptyWord).toNat }
  | c :: rest =>
    { tree with
      root := tree.root.insert tree.order tree.nodeCount c rest
      nodeCount := tree.nodeCount + tree.root.missing tree.order c rest
      size := tree.size + (tree.root.isNew tree.order c rest).toNat }

/-- Adds words one after the other. -/
def insertMany (tree : Tree) (words : List Word) : Tree :=
  words.foldl insert tree

/-- Tree of some words. -/
def ofWords (order : WordOrder) (words : List Word) : Tree :=
  (empty order).insertMany words

/-- Tree of all words of a list, added in median order or in ascending order. -/
def ofList {L : Type} [WordList L] (median : Bool) (list : L) : Except ListError Tree × L :=
  Walk.fold insert (empty (WordList.order list)) (Walk.ofList median list) list

/-- Number of nodes on the longest way down. -/
def depth (tree : Tree) : Nat :=
  tree.root.height

/-- Whether a word was added. -/
def contains (tree : Tree) (word : Word) : Bool :=
  match word with
  | [] => tree.hasEmptyWord
  | c :: rest => tree.root.contains tree.order c rest

/-- The empty word, when it was added and a search admits it. -/
def emptyWordIf (tree : Tree) (admitted : Bool) : List Word :=
  if tree.hasEmptyWord && admitted then [[]] else []

/-- Every word as its nodes spell it, in the order of the tree. -/
def words (tree : Tree) : List Word :=
  tree.emptyWordIf true ++ tree.root.words

/-- The words that match a pattern, where the tree tells cases apart. -/
def matching (tree : Tree) (pattern : Word) : Except DictionaryError (List Word) :=
  if tree.order.isCaseSensitive then
    match pattern with
    | [] => .ok (tree.emptyWordIf true)
    | c :: rest => .ok (tree.root.matching c rest)
  else .error (.unsupported .wildcard)

/-- The words within a distance of a query, where the tree tells cases apart. -/
def near (tree : Tree) (query : Word) (distance : Nat) : Except DictionaryError (List Word) :=
  if tree.order.isCaseSensitive then
    .ok (tree.emptyWordIf (query.length ≤ distance) ++ tree.root.near query distance)
  else .error (.unsupported .near)

/-- A picture of the tree, one node a line. -/
def outline (tree : Tree) : Text :=
  let emptyWord : List Text := if tree.hasEmptyWord then ["(empty word)".toList] else []
  (emptyWord ++ tree.root.lines "root".toList 0).flatMap (· ++ ['\n'])

end Tree

end Lexicon.Ternary
