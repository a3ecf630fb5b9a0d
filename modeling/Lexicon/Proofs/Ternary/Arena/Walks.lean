import Lexicon.Proofs.Ternary.Arena.Stored
import Lexicon.Proofs.Ternary.Matching

namespace Lexicon.Ternary

/-!
# Walks in an arena

The searches go from cell to cell by the numbers of the children, by recursion, by a loop, or by a
stack of cells that are yet to be visited.  In an arena that stores a tree they all end, read no
cell that is not there, and find what the searches of the tree find.

* `Arena.contains`, `Arena.words`, `Arena.matching`, `Arena.near`, `Arena.outline` — the searches
  and the picture.
* `Arena.depth` — the depth, by a stack.
* `Arena.wordsFrom_eq`, `Arena.deepest_push` and their like — what they come to below a cell.
* `Arena.Stores.words`, `Arena.Stores.depth` and their like — what they come to in all.
-/

namespace Cell

/-- Numbers of the children. -/
def children (cell : Cell) : List Nat :=
  cell.lo.toList ++ cell.eq.toList ++ cell.hi.toList

end Cell

namespace Arena

/-! ### Searches -/

/-- Whether a word was added below a cell. -/
def containsFrom (arena : Arena) (id? : Option Nat) (c : Char) (rest : List Char) :
    Option Bool := do
  match id? with
  | none => return false
  | some id =>
    let cell ← arena.cells[id]?
    match arena.order.compareChar c cell.char with
    | .lt => arena |>.containsFrom cell.lo c rest
    | .gt => arena |>.containsFrom cell.hi c rest
    | .eq =>
      match rest with
      | [] => return cell.isEnd
      | d :: rest => arena |>.containsFrom cell.eq d rest
partial_fixpoint

/-- Every word below a cell. -/
def wordsFrom (arena : Arena) (id? : Option Nat) : Option (List Word) := do
  match id? with
  | none => return []
  | some id =>
    let cell ← arena.cells[id]?
    let before ← arena |>.wordsFrom cell.lo
    let below ← arena |>.wordsFrom cell.eq
    let after ← arena |>.wordsFrom cell.hi
    return before ++ (if cell.isEnd then [[cell.char]] else []) ++ below.map (cell.char :: ·)
      ++ after
partial_fixpoint

/-- The words below a cell that match a pattern from a place on. -/
def matchingFrom (arena : Arena) (pattern : Word) (id? : Option Nat) (place : Nat) :
    Option (List Word) := do
  match id? with
  | none => return []
  | some id =>
    let cell ← arena.cells[id]?
    let c ← pattern[place]?
    let wild := c == wildcard
    let side := compare c cell.char
    let before ← (if wild || side == .lt then arena |>.matchingFrom pattern cell.lo place
      else some [])
    let here ← (if wild || side == .eq then
        if place + 1 = pattern.length then some (if cell.isEnd then [[cell.char]] else [])
        else do
          let below ← arena |>.matchingFrom pattern cell.eq (place + 1)
          return below.map (cell.char :: ·)
      else some [])
    let after ← (if wild || side == .gt then arena |>.matchingFrom pattern cell.hi place
      else some [])
    return before ++ here ++ after
partial_fixpoint

/-- The words below a cell that are within a budget of a query. -/
def nearFrom (arena : Arena) (id? : Option Nat) (query : List Char) (budget : Nat) :
    Option (List Word) := do
  match id? with
  | none => return []
  | some id =>
    let cell ← arena.cells[id]?
    let side := Node.sideOf query cell.char
    let before ← (if 0 < budget || side == .lt then arena |>.nearFrom cell.lo query budget
      else some [])
    let here ← (match Node.spend side budget with
      | none => some []
      | some left => do
        let below ← arena |>.nearFrom cell.eq query.tail left
        return (if cell.isEnd && decide (query.tail.length ≤ left) then [[cell.char]] else [])
          ++ below.map (cell.char :: ·))
    let after ← (if 0 < budget || side == .gt then arena |>.nearFrom cell.hi query budget
      else some [])
    return before ++ here ++ after
partial_fixpoint

/-- Lines of a picture: those of a cell, then of what is below it. -/
def linesFrom (arena : Arena) (link : Text) (depth : Nat) (id? : Option Nat) :
    Option (List Text) := do
  match id? with
  | none => return []
  | some id =>
    let cell ← arena.cells[id]?
    let lo ← arena |>.linesFrom "lo".toList (depth + 1) cell.lo
    let eq ← arena |>.linesFrom "eq".toList (depth + 1) cell.eq
    let hi ← arena |>.linesFrom "hi".toList (depth + 1) cell.hi
    return Node.line link depth cell.char cell.isEnd :: (lo ++ eq ++ hi)
partial_fixpoint

/-- The greatest depth that was seen and that is yet to be seen, where the stack has the cells that
    are yet to be visited, each with its depth. -/
def deepest (arena : Arena) (seen : Nat) (stack : List (Nat × Nat)) : Option Nat := do
  match stack with
  | [] => return seen
  | (id, depth) :: stack =>
    let cell ← arena.cells[id]?
    let found := cell.children.map fun child => (child, depth + 1)
    arena |>.deepest (max seen depth) (found.reverse ++ stack)
partial_fixpoint

/-- Whether a word was added. -/
def contains (arena : Arena) (word : Word) : Option Bool :=
  match word with
  | [] => some arena.hasEmptyWord
  | c :: rest => arena.containsFrom arena.root c rest

/-- The empty word, when it was added and a search admits it. -/
def emptyWordIf (arena : Arena) (admitted : Bool) : List Word :=
  if arena.hasEmptyWord && admitted then [[]] else []

/-- Every word as its cells spell it, in the order of the arena. -/
def words (arena : Arena) : Option (List Word) :=
  (arena.wordsFrom arena.root).map (arena.emptyWordIf true ++ ·)

/-- The words that match a pattern, where the arena tells cases apart. -/
def matching (arena : Arena) (pattern : Word) : Option (Except DictionaryError (List Word)) :=
  if arena.order.isCaseSensitive then
    if pattern.isEmpty then some (.ok (arena.emptyWordIf true))
    else (arena.matchingFrom pattern arena.root 0).map .ok
  else some (.error (.unsupported .wildcard))

/-- The words within a distance of a query, where the arena tells cases apart. -/
def near (arena : Arena) (query : Word) (distance : Nat) :
    Option (Except DictionaryError (List Word)) :=
  if arena.order.isCaseSensitive then
    (arena.nearFrom arena.root query distance).map fun words =>
      .ok (arena.emptyWordIf (query.length ≤ distance) ++ words)
  else some (.error (.unsupported .near))

/-- A picture of the arena, one cell a line. -/
def outline (arena : Arena) : Option Text :=
  let emptyWord : List Text := if arena.hasEmptyWord then ["(empty word)".toList] else []
  (arena.linesFrom "root".toList 0 arena.root).map fun lines =>
    (emptyWord ++ lines).flatMap (· ++ ['\n'])

/-- Number of cells on the longest way down. -/
def depth (arena : Arena) : Option Nat :=
  arena.deepest 0 (arena.root.toList.map fun id => (id, 1))

/-! ### Walks over stored nodes -/

variable {arena : Arena}

theorem containsFrom_eq {node : Node} (h : node.StoredIn arena.cells) (c : Char)
    (rest : List Char) :
    arena.containsFrom node.id? c rest = some (node.contains arena.order c rest) := by
  fun_induction Node.contains arena.order node c rest with
  | case1 => rw [Node.id?, containsFrom]; rfl
  | case2 id char isEnd lo eq hi c rest hside ih =>
    rw [Node.id?, containsFrom]
    simp [h.1, hside, ih h.2.1]
  | case3 id char isEnd lo eq hi c rest hside ih =>
    rw [Node.id?, containsFrom]
    simp [h.1, hside, ih h.2.2.2]
  | case4 id char isEnd lo eq hi c hside =>
    rw [Node.id?, containsFrom]
    simp [h.1, hside]
  | case5 id char isEnd lo eq hi c hside d rest ih =>
    rw [Node.id?, containsFrom]
    simp [h.1, hside, ih h.2.2.1]

theorem wordsFrom_eq {node : Node} (h : node.StoredIn arena.cells) :
    arena.wordsFrom node.id? = some node.words := by
  induction node with
  | leaf => rw [Node.id?, wordsFrom]; rfl
  | branch id char isEnd lo eq hi ihlo iheq ihhi =>
    obtain ⟨hcell, hlo, heq, hhi⟩ := h
    rw [Node.id?, wordsFrom]
    simp [hcell, ihlo hlo, iheq heq, ihhi hhi, Node.words]

theorem matchingFrom_eq {node : Node} (h : node.StoredIn arena.cells) (pattern : Word)
    (place : Nat) :
    arena.matchingFrom pattern node.id? place = node.matchingFrom pattern place := by
  induction node generalizing place with
  | leaf => rw [Node.id?, matchingFrom]; rfl
  | branch id char isEnd lo eq hi ihlo iheq ihhi =>
    obtain ⟨hcell, hlo, heq, hhi⟩ := h
    rw [Node.id?, matchingFrom]
    simp [hcell, ihlo hlo, iheq heq, ihhi hhi, Node.matchingFrom, Option.map_eq_bind]

theorem nearFrom_eq {node : Node} (h : node.StoredIn arena.cells) (query : List Char)
    (budget : Nat) :
    arena.nearFrom node.id? query budget = some (node.near query budget) := by
  induction node generalizing query budget with
  | leaf => rw [Node.id?, nearFrom]; rfl
  | branch id char isEnd lo eq hi ihlo iheq ihhi =>
    obtain ⟨hcell, hlo, heq, hhi⟩ := h
    rw [Node.id?, nearFrom]
    cases hspend : Node.spend (Node.sideOf query char) budget <;>
      simp [hcell, ihlo hlo, iheq heq, ihhi hhi, Node.near, hspend, ← apply_ite some]

theorem linesFrom_eq {node : Node} (h : node.StoredIn arena.cells) (link : Text) (depth : Nat) :
    arena.linesFrom link depth node.id? = some (node.lines link depth) := by
  induction node generalizing link depth with
  | leaf => rw [Node.id?, linesFrom]; rfl
  | branch id char isEnd lo eq hi ihlo iheq ihhi =>
    obtain ⟨hcell, hlo, heq, hhi⟩ := h
    rw [Node.id?, linesFrom]
    simp [hcell, ihlo hlo, iheq heq, ihhi hhi, Node.lines]

theorem reverse_map_toList (f : Nat → Nat × Nat) (id? : Option Nat) :
    (id?.toList.map f).reverse = id?.toList.map f := by
  cases id? <;> rfl

/-- Once the nodes on top of the stack were visited, the greatest depth has come to their height. -/
theorem deepest_push {node : Node} (h : node.StoredIn arena.cells) {seen depth : Nat}
    (hseen : depth ≤ seen) (stack : List (Nat × Nat)) :
    arena.deepest seen (node.id?.toList.map (fun id => (id, depth + 1)) ++ stack)
      = arena.deepest (max seen (depth + node.height)) stack := by
  induction node generalizing seen depth stack with
  | leaf => simp [Node.id?, Node.height, hseen]
  | branch id char isEnd lo eq hi ihlo iheq ihhi =>
    obtain ⟨hcell, hlo, heq, hhi⟩ := h
    have hdepth : depth + 1 ≤ max seen (depth + 1) := le_max_right _ _
    -- The children are visited from the last one on, each with all that is below it.
    have hvisit : arena.deepest seen ((id, depth + 1) :: stack)
        = arena.deepest (max seen (depth + 1))
            (hi.id?.toList.map (fun id => (id, depth + 1 + 1)) ++
              (eq.id?.toList.map (fun id => (id, depth + 1 + 1)) ++
                (lo.id?.toList.map (fun id => (id, depth + 1 + 1)) ++ stack))) := by
      rw [deepest]
      simp [hcell, Cell.children, reverse_map_toList]
    refine hvisit.trans ?_
    rw [ihhi hhi hdepth, iheq heq (hdepth.trans (le_max_left _ _)),
      ihlo hlo ((hdepth.trans (le_max_left _ _)).trans (le_max_left _ _)), Node.height]
    congr 1
    omega

/-! ### Walks over a stored tree -/

variable {tree : Tree}

theorem Stores.emptyWordIf (h : arena.Stores tree) (admitted : Bool) :
    arena.emptyWordIf admitted = tree.emptyWordIf admitted := by
  rw [Arena.emptyWordIf, Tree.emptyWordIf, h.hasEmptyWord_eq]

theorem Stores.contains (h : arena.Stores tree) (word : Word) :
    arena.contains word = some (tree.contains word) := by
  cases word with
  | nil => exact congrArg some h.hasEmptyWord_eq
  | cons c rest =>
    rw [Arena.contains, h.root_eq, containsFrom_eq h.stored, h.order_eq, Tree.contains]

theorem Stores.words (h : arena.Stores tree) : arena.words = some tree.words := by
  rw [Arena.words, h.root_eq, wordsFrom_eq h.stored, Option.map_some, h.emptyWordIf, Tree.words]

theorem Stores.matching (h : arena.Stores tree) (pattern : Word) :
    arena.matching pattern = some (tree.matching pattern) := by
  rw [Arena.matching, h.order_eq, h.root_eq, h.emptyWordIf, matchingFrom_eq h.stored]
  cases pattern with
  | nil => simp [Tree.matching, apply_ite some]
  | cons c rest =>
    have hread : tree.root.matchingFrom (c :: rest) 0 = some (tree.root.matching c rest) :=
      Node.matchingFrom_eq tree.root rfl
    simp [Tree.matching, apply_ite some, hread]

theorem Stores.near (h : arena.Stores tree) (query : Word) (distance : Nat) :
    arena.near query distance = some (tree.near query distance) := by
  rw [Arena.near, Tree.near, h.order_eq, h.root_eq, nearFrom_eq h.stored, h.emptyWordIf]
  simp [apply_ite some]

theorem Stores.outline (h : arena.Stores tree) : arena.outline = some tree.outline := by
  rw [Arena.outline, Tree.outline, h.root_eq, linesFrom_eq h.stored, h.hasEmptyWord_eq]
  rfl

theorem Stores.depth (h : arena.Stores tree) : arena.depth = some tree.depth := by
  -- With the topmost node alone on the stack, the greatest depth comes to the height of the tree.
  have hpush := deepest_push h.stored (Nat.le_refl 0) []
  rw [List.append_nil] at hpush
  rw [Arena.depth, h.root_eq, hpush, deepest, Tree.depth]
  simp

end Arena

end Lexicon.Ternary
