import Lexicon.Order

namespace Lexicon.Ternary

/-!
# Nodes of a ternary search tree

Each node stands for one character at one place of a word.  Words with a character before or
after it at that place are found to its sides, and words that go on after it are found below.

* `Node` — a tree of nodes, each with its number in the order in which they were made.
* `Node.insert`, `Node.missing`, `Node.isNew` — adds a word, and tells how many nodes that
  makes and whether the word is a new one.
* `Node.contains` — whether a word was added.
* `Node.find?`, `Node.follow` — a node by its number, or by the links that lead to it.
-/

/-- A subtree, where `leaf` is the empty one. -/
inductive Node where
  /-- No node. -/
  | leaf
  /-- A node with its number, its character, whether a word ends there, and the subtrees of
      words with a lesser character, of words that go on, and of words with a greater one. -/
  | branch (id : Nat) (char : Char) (isEnd : Bool) (lo eq hi : Node)

namespace Node

/-- Whether there is no node. -/
def isLeaf : Node → Bool
  | leaf => true
  | branch .. => false

/-- Number of nodes. -/
def count : Node → Nat
  | leaf => 0
  | branch _ _ _ lo eq hi => 1 + lo.count + eq.count + hi.count

/-- Number of nodes where a word ends. -/
def endCount : Node → Nat
  | leaf => 0
  | branch _ _ isEnd lo eq hi => isEnd.toNat + lo.endCount + eq.endCount + hi.endCount

/-- Number of nodes on the longest way down, by links of any kind. -/
def height : Node → Nat
  | leaf => 0
  | branch _ _ _ lo eq hi => 1 + max lo.height (max eq.height hi.height)

/-! ### Words, given by their first character and the rest -/

/-- The nodes of a word that shares none with another, numbered from `id` on. -/
def spine (id : Nat) (c : Char) : List Char → Node
  | [] => branch id c true leaf leaf leaf
  | d :: rest => branch id c false leaf (spine (id + 1) d rest) leaf

/-- Adds a word, with new nodes numbered from `id` on.  Nodes that are there keep the character
    that they were made with, however the word spells it. -/
def insert (order : WordOrder) (id : Nat) : Node → Char → List Char → Node
  | leaf, c, rest => spine id c rest
  | branch own char isEnd lo eq hi, c, rest =>
    match order.compareChar c char with
    | .lt => branch own char isEnd (lo.insert order id c rest) eq hi
    | .gt => branch own char isEnd lo eq (hi.insert order id c rest)
    | .eq =>
      match rest with
      | [] => branch own char true lo eq hi
      | d :: rest => branch own char isEnd lo (eq.insert order id d rest) hi

/-- Number of nodes that adding a word makes. -/
def missing (order : WordOrder) : Node → Char → List Char → Nat
  | leaf, _, rest => rest.length + 1
  | branch _ char _ lo eq hi, c, rest =>
    match order.compareChar c char with
    | .lt => lo.missing order c rest
    | .gt => hi.missing order c rest
    | .eq =>
      match rest with
      | [] => 0
      | d :: rest => eq.missing order d rest

/-- Whether adding a word marks a node, new or not, where no word has ended so far. -/
def isNew (order : WordOrder) : Node → Char → List Char → Bool
  | leaf, _, _ => true
  | branch _ char isEnd lo eq hi, c, rest =>
    match order.compareChar c char with
    | .lt => lo.isNew order c rest
    | .gt => hi.isNew order c rest
    | .eq =>
      match rest with
      | [] => !isEnd
      | d :: rest => eq.isNew order d rest

/-- Whether a word was added, in any spelling that compares equal. -/
def contains (order : WordOrder) : Node → Char → List Char → Bool
  | leaf, _, _ => false
  | branch _ char isEnd lo eq hi, c, rest =>
    match order.compareChar c char with
    | .lt => lo.contains order c rest
    | .gt => hi.contains order c rest
    | .eq =>
      match rest with
      | [] => isEnd
      | d :: rest => eq.contains order d rest

/-- The nodes of a spine are as many as the characters of its word. -/
theorem count_spine (id : Nat) (c : Char) (rest : List Char) :
    (spine id c rest).count = rest.length + 1 := by
  induction rest generalizing id c with
  | nil => rfl
  | cons d rest ih => simp only [spine, count, ih, List.length_cons]; omega

/-- Adding a word makes the missing nodes and no others. -/
theorem count_insert (order : WordOrder) (id : Nat) (node : Node) (c : Char) (rest : List Char) :
    (node.insert order id c rest).count = node.count + node.missing order c rest := by
  fun_induction insert order id node c rest with
  | case1 c rest => simp only [count_spine, count, missing]; omega
  | case2 _ _ _ _ _ _ _ _ h ih => simp only [count, missing, h, ih]; omega
  | case3 _ _ _ _ _ _ _ _ h ih => simp only [count, missing, h, ih]; omega
  | case4 _ _ _ _ _ _ _ h => simp only [count, missing, h]; omega
  | case5 _ _ _ _ _ _ _ h _ _ ih => simp only [count, missing, h, ih]; omega

/-! ### Nodes by number and by place -/

/-- A link from a node to one of its subtrees. -/
inductive Link where
  /-- To words with a lesser character. -/
  | lo
  /-- To words that go on. -/
  | eq
  /-- To words with a greater character. -/
  | hi

/-- Subtree at the end of a link. -/
def child : Node → Link → Node
  | leaf, _ => leaf
  | branch _ _ _ lo _ _, .lo => lo
  | branch _ _ _ _ eq _, .eq => eq
  | branch _ _ _ _ _ hi, .hi => hi

/-- Subtree at the end of a path of links. -/
def follow (node : Node) (path : List Link) : Node :=
  path.foldl child node

/-- Subtree below the node with the given number, itself included. -/
def find? (id : Nat) : Node → Option Node
  | leaf => none
  | node@(branch own _ _ lo eq hi) =>
    if own = id then some node
    else (lo.find? id).or ((eq.find? id).or (hi.find? id))

/-- Number of the topmost node. -/
def id? : Node → Option Nat
  | leaf => none
  | branch id _ _ _ _ _ => some id

end Node

end Lexicon.Ternary
