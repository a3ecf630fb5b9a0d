import Lexicon.Ternary.Tree

namespace Lexicon.Ternary

open Node (Link)

/-!
# Search trees in an arena

The nodes of a tree can be kept in one array, each with its children by their numbers.  Here every
number is checked when a cell is read or changed.  There is no result where a number is out of
range, nor where a loop or a recursion goes on for ever.

* `Cell`, `Arena` — nodes with numbers for children, and the array that they are kept in.
* `Arena.childOrNew`, `Arena.settle`, `Arena.insert`, `Arena.ofWords` — adds words, cell by cell.
-/

/-- A node whose children are known by their numbers. -/
structure Cell where
  /-- The character. -/
  char : Char
  /-- Whether a word ends there. -/
  isEnd : Bool
  /-- The topmost cell of the words with a lesser character. -/
  lo : Option Nat
  /-- The topmost cell of the words that go on. -/
  eq : Option Nat
  /-- The topmost cell of the words with a greater character. -/
  hi : Option Nat

namespace Cell

/-- A cell without children, where no word has ended so far. -/
def ofChar (char : Char) : Cell :=
  ⟨char, false, none, none, none⟩

/-- Number of the child at the end of a link. -/
def child (cell : Cell) : Link → Option Nat
  | .lo => cell.lo
  | .eq => cell.eq
  | .hi => cell.hi

/-- The cell with another child at the end of a link. -/
def attach (cell : Cell) (link : Link) (id : Nat) : Cell :=
  match link with
  | .lo => { cell with lo := some id }
  | .eq => { cell with eq := some id }
  | .hi => { cell with hi := some id }

end Cell

/-- A set of words as cells, each of which has its place in the array for a number. -/
structure Arena where
  /-- The order of the words. -/
  order : WordOrder
  /-- The cells, in the order in which they were made. -/
  cells : Array Cell
  /-- The topmost cell. -/
  root : Option Nat
  /-- Whether the empty word was added. -/
  hasEmptyWord : Bool
  /-- The number of different words. -/
  size : Nat

namespace Arena

/-! ### Adding words -/

/-- Changes a cell. -/
def update (arena : Arena) (id : Nat) (change : Cell → Cell) : Option Arena := do
  let cell ← arena.cells[id]?
  return { arena with cells := arena.cells.setIfInBounds id (change cell) }

/-- Makes a cell for a character. -/
def alloc (arena : Arena) (c : Char) : Arena × Nat :=
  ({ arena with cells := arena.cells.push (.ofChar c) }, arena.cells.size)

/-- The child at the end of a link, made for a character if there is none yet. -/
def childOrNew (arena : Arena) (parent : Nat) (link : Link) (c : Char) : Option (Arena × Nat) := do
  let cell ← arena.cells[parent]?
  match cell.child link with
  | some id => return (arena, id)
  | none =>
    let (arena, id) := arena.alloc c
    let arena ← arena.update parent (·.attach link id)
    return (arena, id)

/-- Marks a cell as the end of a word, which is counted if none has ended there so far. -/
def mark (arena : Arena) (id : Nat) : Option Arena := do
  let cell ← arena.cells[id]?
  let arena ← arena.update id ({ · with isEnd := true })
  return { arena with size := arena.size + (!cell.isEnd).toNat }

/-- Goes on from a cell, with the place of the word that it stands for, to the end of the word. -/
def settle (arena : Arena) (word : Word) (current place : Nat) : Option Arena := do
  let c ← word[place]?
  let cell ← arena.cells[current]?
  match arena.order.compareChar c cell.char with
  | .lt =>
    let (arena, child) ← arena.childOrNew current .lo c
    arena |>.settle word child place
  | .gt =>
    let (arena, child) ← arena.childOrNew current .hi c
    arena |>.settle word child place
  | .eq =>
    -- Only a link to `eq` goes on to the next character of the word.
    if place + 1 = word.length then arena.mark current
    else
      let d ← word[place + 1]?
      let (arena, child) ← arena.childOrNew current .eq d
      arena |>.settle word child (place + 1)
partial_fixpoint

/-- An arena without words. -/
def empty (order : WordOrder) : Arena :=
  ⟨order, #[], none, false, 0⟩

/-- The topmost cell, made for a character if there is none yet. -/
def rootOrNew (arena : Arena) (c : Char) : Arena × Nat :=
  match arena.root with
  | some id => (arena, id)
  | none =>
    let (arena, id) := arena.alloc c
    ({ arena with root := some id }, id)

/-- Adds a word. -/
def insert (arena : Arena) (word : Word) : Option Arena :=
  match word with
  | [] => some { arena with
      hasEmptyWord := true
      size := arena.size + (!arena.hasEmptyWord).toNat }
  | first :: _ =>
    let (arena, top) := arena.rootOrNew first
    arena.settle word top 0

/-- The arena of some words, added one after the other. -/
def ofWords (order : WordOrder) (words : List Word) : Option Arena :=
  words.foldlM insert (empty order)

end Arena

end Lexicon.Ternary
