import Lexicon.Proofs.Ternary.Arena.WellFormed
import Lexicon.Proofs.Ternary.Extension

namespace Lexicon.Ternary

open Node (Link)

/-!
# Adding words only extends an arena

A word that is added leaves each cell at its number, with its character and its children, and ends
at one place.  A word that was there before, in any spelling, leaves the whole arena as it is.

* `Cell.Extends`, `Arena.EndsAt` — cells that children were added to, and where words end.
* `Arena.TakesIn` — what adding a word does to an arena.
* `Arena.Stores.unique` — only one arena stores the tree of some words.
* `Arena.Stores.takesIn`, `Arena.insert_only_extends` — so it is for any words.
-/

variable {order : WordOrder} {added : List Word} {before after : Arena}

/-- A cell that children were added to. -/
structure Cell.Extends (before after : Cell) : Prop where
  /-- The character stays. -/
  char_eq : after.char = before.char
  /-- A word still ends there if one did. -/
  isEnd_of : before.isEnd = true → after.isEnd = true
  /-- Children stay. -/
  child_of : ∀ link id, before.child link = some id → after.child link = some id

/-- The cell of a node is extended where the node is. -/
theorem Node.Extends.cell? {before after : Node} (h : before.Extends after) {cell : Cell}
    (hcell : before.cell? = some cell) :
    ∃ cell', after.cell? = some cell' ∧ cell.Extends cell' := by
  cases h with
  | leaf after => simp [Node.cell?] at hcell
  | branch hend hlo heq hhi =>
    obtain rfl := Option.some.inj hcell
    refine ⟨_, rfl, rfl, hend, fun link id hid => ?_⟩
    cases link with
    | lo => exact hlo.id?_eq hid
    | eq => exact heq.id?_eq hid
    | hi => exact hhi.id?_eq hid

namespace Arena

/-- Whether a word ends at the cell with a number, or without one, whether the empty word was
    added. -/
def EndsAt (arena : Arena) : Option Nat → Prop
  | none => arena.hasEmptyWord = true
  | some id => ∃ cell, arena.cells[id]? = some cell ∧ cell.isEnd = true

/-- What adding a word does to an arena. -/
structure TakesIn (before : Arena) (word : Word) (after : Arena) : Prop where
  /-- Words compare alike. -/
  order_eq : after.order = before.order
  /-- The topmost cell stays. -/
  root_of : ∀ id, before.root = some id → after.root = some id
  /-- Each cell stays at its number, and is extended at most. -/
  cell_of : ∀ (id : Nat) (cell : Cell), before.cells[id]? = some cell →
    ∃ cell', after.cells[id]? = some cell' ∧ cell.Extends cell'
  /-- There are no more new cells than characters. -/
  size_le : after.cells.size ≤ before.cells.size + word.length
  /-- Words end where they did, and at one place more, unless the word was there. -/
  exists_end : ∃ place, (before.EndsAt place ↔ before.contains word = some true) ∧
    ∀ other, after.EndsAt other ↔ before.EndsAt other ∨ other = place

/-! ### Arenas of some words -/

/-- Only one arena stores the tree of some words. -/
theorem Stores.unique (h : before.Stores (.ofWords order added))
    (h' : after.Stores (.ofWords order added)) : after = before := by
  have hcells : after.cells = before.cells :=
    Array.ext_getElem? fun id => (h'.getElem?_eq id).trans (h.getElem?_eq id).symm
  have horder := h'.order_eq.trans h.order_eq.symm
  have hroot := h'.root_eq.trans h.root_eq.symm
  have hempty := h'.hasEmptyWord_eq.trans h.hasEmptyWord_eq.symm
  have hsize := h'.size_eq.trans h.size_eq.symm
  -- Nothing in an arena is left that could differ.
  cases before
  cases after
  simp only at hcells horder hroot hempty hsize
  subst hcells horder hroot hempty hsize
  rfl

/-- Words end at the cells of the nodes where they end. -/
theorem Stores.endsAt_iff (h : before.Stores (.ofWords order added)) (place : Option Nat) :
    before.EndsAt place ↔ (Tree.ofWords order added).EndsAt place := by
  cases place with
  | none => rw [EndsAt, Tree.EndsAt, h.hasEmptyWord_eq]
  | some id =>
    constructor
    · rintro ⟨cell, hcell, hend⟩
      obtain ⟨path, lo, eq, hi, hpath, -⟩ := h.exists_branch hcell
      exact ⟨path, by rw [hpath]; rfl, by rw [hpath]; exact hend⟩
    · rintro ⟨path, hid, hend⟩
      -- The cell at the end of the path stores what its node tells.
      have hcell := (h.stored.follow path).getElem? hid
      cases hnode : (Tree.ofWords order added).root.follow path with
      | leaf => simp [hnode] at hend
      | branch own char isEnd lo eq hi =>
        rw [hnode] at hcell hend
        exact ⟨_, hcell, hend⟩

/-! ### One more word -/

section Insert

variable {word : Word} (h : before.Stores (.ofWords order added))
  (h' : after.Stores (.ofWords order (added ++ [word])))

include h h'

/-- Each cell is extended at most. -/
theorem Stores.exists_extended {id : Nat} {cell : Cell} (hcell : before.cells[id]? = some cell) :
    ∃ cell', after.cells[id]? = some cell' ∧ cell.Extends cell' := by
  obtain ⟨path, node, hpath, hid, hstored⟩ := h.exists_node (lt_size_of_getElem? hcell)
  -- The path to the node of a cell leads to the same node after the word was added, so that its
  -- cell is at the same number.
  have hextends := (Tree.extends_insert (.ofWords order added) word).follow path
  rw [hpath, ← Tree.ofWords_concat] at hextends
  rw [hstored.getElem? hid] at hcell
  rw [(h'.stored.follow path).getElem? (hextends.id?_eq hid)]
  exact hextends.cell? hcell

/-- Adding a word takes nothing away from an arena, and marks one place at most. -/
theorem Stores.takesIn : before.TakesIn word after where
  order_eq := by rw [h.order_eq, h'.order_eq, Tree.order_ofWords, Tree.order_ofWords]
  root_of id hroot := by
    rw [h.root_eq] at hroot
    rw [h'.root_eq, Tree.ofWords_concat]
    exact (Tree.extends_insert _ word).id?_eq hroot
  cell_of id cell := h.exists_extended h'
  size_le := by
    rw [h.count_eq, h'.count_eq, Tree.ofWords_concat]
    exact Tree.nodeCount_insert_le _ word
  exists_end := by
    -- A number is that of one node only, so that the word ends at one place and at no other.
    have hnodup := Tree.nodup_ids_ofWords order (added ++ [word])
    rw [Tree.ofWords_concat] at hnodup
    obtain ⟨place, hfound, hends⟩ := Tree.exists_end_insert hnodup
    refine ⟨place, ?_, fun other => ?_⟩
    · rw [h.endsAt_iff, h.contains, Option.some_inj]
      exact hfound
    · rw [h.endsAt_iff, h'.endsAt_iff, Tree.ofWords_concat]
      exact hends other

end Insert

/-- **Adding words only extends an arena.** After any words were added, in either order of words,
    one more is added without failure.  Each cell stays at its number with its character and its
    children, words end where they did and at one place more at most, there are no more new cells
    than characters, and the word is counted exactly if it was not found.  If it was found, the
    whole arena stays as it is, and so it does when the word is added again in any spelling. -/
theorem insert_only_extends (order : WordOrder) (added : List Word) (word : Word) :
    ∃ before after, ofWords order added = some before ∧ before.insert word = some after ∧
      before.Stores (.ofWords order added) ∧
      after.Stores ((Tree.ofWords order added).insert word) ∧
      before.TakesIn word after ∧
      ∃ found, before.contains word = some found ∧
        after.size = before.size + (!found).toNat ∧
        (found = true → after = before ∧
          (Tree.ofWords order added).insert word = .ofWords order added) ∧
        ∀ spelling, order.compare word spelling = .eq →
          after.insert spelling = some after ∧
            ((Tree.ofWords order added).insert word).insert spelling
              = (Tree.ofWords order added).insert word := by
  obtain ⟨before, hrun, hbefore⟩ := exists_ofWords order added
  obtain ⟨after, hinsert, hafter⟩ := hbefore.exists_insert word
  refine ⟨before, after, hrun, hinsert, hbefore, hafter, ?_,
    (Tree.ofWords order added).contains word, hbefore.contains word, ?_, fun hfound => ?_,
    fun spelling hspelling => ?_⟩
  · rw [← Tree.ofWords_concat] at hafter
    exact hbefore.takesIn hafter
  · rw [hafter.size_eq, hbefore.size_eq, Tree.size_insert]
  · -- The tree is the same, and no other arena stores it.
    have hsame := Tree.insert_of_contains hfound
    rw [hsame] at hafter
    exact ⟨hbefore.unique hafter, hsame⟩
  · have hsame : ((Tree.ofWords order added).insert word).insert spelling
        = (Tree.ofWords order added).insert word :=
      Tree.insert_insert_of_compare_eq _ (by rwa [Tree.order_ofWords])
    refine ⟨?_, hsame⟩
    rw [← Tree.ofWords_concat] at hafter hsame
    obtain ⟨again, hagain, hstored⟩ := hafter.exists_insert spelling
    rw [hsame] at hstored
    rw [hagain, hafter.unique hstored]

end Arena

end Lexicon.Ternary
