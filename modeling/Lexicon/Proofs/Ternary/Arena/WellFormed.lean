import Lexicon.Proofs.Ternary.Arena.Walks

namespace Lexicon.Ternary

open Node (Link)

/-!
# Arenas are well-formed search trees

After any words were added, the cells of an arena make up one search tree: none is shared, none is
lost, and none is a dead end.

* `Arena.childOf`, `Arena.follow`, `Arena.reached` — the cell at the end of a link, or of a path.
* `Arena.WellFormed`, `Arena.IsHeight` — what makes cells a search tree, and the height of one.
* `Arena.Stores.exists_node`, `Arena.Stores.getElem?_eq` — the cells are those of the nodes.
* `Arena.Stores.well_formed` — the arena of some words is well-formed, as its tree is.
* `Arena.ofWords_well_formed` — the arena of any words is well-formed, and all walks in it end.
-/

variable {order : WordOrder}

namespace Node

/-! ### Nodes at the end of a path -/

theorem Ordered.child {node : Node} (h : node.Ordered order) (link : Link) :
    (node.child link).Ordered order := by
  cases node with
  | leaf => rwa [child_leaf]
  | branch id char isEnd lo eq hi =>
    obtain ⟨-, -, hlo, heq, hhi⟩ := h
    exact child_of_subtrees hlo heq hhi link

theorem Ordered.follow {node : Node} (h : node.Ordered order) (path : List Link) :
    (node.follow path).Ordered order :=
  follow_of_child Ordered.child h path

/-- Links to the sides lead to other characters for the same place. -/
theorem heads_follow_subset {path : List Link} (hpath : ∀ link ∈ path, link.isSide = true)
    (node : Node) : (node.follow path).heads ⊆ node.heads := by
  induction path generalizing node with
  | nil => exact fun _ hc => hc
  | cons link path ih =>
    rw [List.forall_mem_cons] at hpath
    refine List.Subset.trans (ih hpath.2 (node.child link)) ?_
    cases node with
    | leaf => cases link <;> exact fun _ hc => hc
    | branch id char isEnd lo eq hi =>
      cases link with
      | lo => exact List.subset_append_left _ _
      | eq => exact absurd hpath.1 Bool.false_ne_true
      | hi => exact fun c hc => List.mem_append_right _ (List.mem_cons_of_mem _ hc)

/-- Cell of the topmost node. -/
def cell? : Node → Option Cell
  | leaf => none
  | branch _ char isEnd lo eq hi => some ⟨char, isEnd, lo.id?, eq.id?, hi.id?⟩

theorem StoredIn.getElem? {cells : Array Cell} {node : Node} (h : node.StoredIn cells) {id : Nat}
    (hid : node.id? = some id) : cells[id]? = node.cell? := by
  cases node with
  | leaf => simp [id?] at hid
  | branch own char isEnd lo eq hi =>
    obtain rfl : own = id := Option.some.inj hid
    exact h.1

end Node

namespace Arena

/-! ### Well-formed arenas -/

/-- Number of the child at the end of a link of a cell. -/
def childOf (arena : Arena) (id : Nat) (link : Link) : Option Nat :=
  arena.cells[id]?.bind (·.child link)

/-- Number of the cell at the end of a path of links from another cell. -/
def follow (arena : Arena) (id : Nat) (path : List Link) : Option Nat :=
  path.foldlM arena.childOf id

/-- Number of the cell at the end of a path of links from the topmost cell. -/
def reached (arena : Arena) (path : List Link) : Option Nat :=
  arena.root.bind (arena.follow · path)

/-- A cell for the same place of a word as another one, which links to the sides lead to from
    there. -/
def Beside (arena : Arena) (id : Nat) (other : Cell) : Prop :=
  ∃ path : List Link, (∀ link ∈ path, link.isSide = true) ∧
    (arena.follow id path).bind (arena.cells[·]?) = some other

/-- Cells that make up a search tree. -/
structure WellFormed (arena : Arena) : Prop where
  /-- The number of each child is one of a later cell. -/
  child_within : ∀ id link child, arena.childOf id link = some child →
    id < child ∧ child < arena.cells.size
  /-- The topmost cell is no child. -/
  root_free : ∀ root, arena.root = some root → ∀ id link, arena.childOf id link ≠ some root
  /-- Each other cell is the child at one link of one cell. -/
  one_slot : ∀ id < arena.cells.size, arena.root ≠ some id →
    ∃! slot : Nat × Link, arena.childOf slot.1 slot.2 = some id
  /-- Each cell can be reached. -/
  reachable : ∀ id < arena.cells.size, ∃ path, arena.reached path = some id
  /-- The characters for one place to the lesser side of a cell come before its own. -/
  lo_before : ∀ (id : Nat) (cell : Cell), arena.cells[id]? = some cell →
    ∀ lo other, cell.lo = some lo → arena.Beside lo other →
      arena.order.compareChar other.char cell.char = .lt
  /-- The characters for one place to the greater side of a cell come after its own. -/
  hi_after : ∀ (id : Nat) (cell : Cell), arena.cells[id]? = some cell →
    ∀ hi other, cell.hi = some hi → arena.Beside hi other →
      arena.order.compareChar other.char cell.char = .gt
  /-- A word ends at each cell behind which no word goes on. -/
  alive : ∀ (id : Nat) (cell : Cell), arena.cells[id]? = some cell →
    cell.eq = none → cell.isEnd = true

/-- The height of an arena is the number of cells on the longest path from the topmost one. -/
structure IsHeight (arena : Arena) (height : Nat) : Prop where
  /-- No path is longer. -/
  lt_of_reached : ∀ path id, arena.reached path = some id → path.length < height
  /-- Some path is as long, if there is any. -/
  exists_longest : height = 0 ∨ ∃ path id, arena.reached path = some id ∧ path.length + 1 = height

/-- The walks in an arena come to what those in a tree come to. -/
structure WalksAs (arena : Arena) (tree : Tree) : Prop where
  /-- They find the same words. -/
  contains : ∀ word, arena.contains word = some (tree.contains word)
  /-- They list the same words. -/
  words : arena.words = some tree.words
  /-- They list the same words for each pattern. -/
  matching : ∀ pattern, arena.matching pattern = some (tree.matching pattern)
  /-- They list the same words near each query. -/
  near : ∀ query distance, arena.near query distance = some (tree.near query distance)
  /-- They draw the same picture. -/
  outline : arena.outline = some tree.outline

/-! ### Cells of a stored tree -/

variable {arena : Arena} {tree : Tree}

theorem childOf_eq {node : Node} (h : node.StoredIn arena.cells) {id : Nat}
    (hid : node.id? = some id) (link : Link) : arena.childOf id link = (node.child link).id? := by
  rw [childOf, h.getElem? hid]
  cases node with
  | leaf => simp [Node.id?] at hid
  | branch own char isEnd lo eq hi => cases link <;> rfl

/-- Paths lead from the cell of a node as from the node. -/
theorem follow_eq {node : Node} (h : node.StoredIn arena.cells) {id : Nat}
    (hid : node.id? = some id) (path : List Link) :
    arena.follow id path = (node.follow path).id? := by
  induction path generalizing node id with
  | nil => exact hid.symm
  | cons link path ih =>
    rw [follow, List.foldlM_cons, childOf_eq h hid, Node.follow_cons]
    cases hchild : (node.child link).id? with
    | none =>
      -- No path leads on from where there is no node.
      have hleaf : node.child link = .leaf := by
        cases hnode : node.child link with
        | leaf => rfl
        | branch => simp [hnode, Node.id?] at hchild
      rw [hleaf, Node.follow_leaf]
      rfl
    | some child => exact ih (h.child link) hchild

/-- Paths lead from the topmost cell as from the topmost node. -/
theorem Stores.reached_eq (h : arena.Stores tree) (path : List Link) :
    arena.reached path = (tree.root.follow path).id? := by
  rw [reached, h.root_eq]
  cases hroot : tree.root with
  | leaf => rw [Node.follow_leaf]; rfl
  | branch own char isEnd lo eq hi =>
    have hstored := h.stored
    rw [hroot] at hstored
    exact follow_eq hstored rfl path

/-- The characters of cells that links to the sides lead to are those of nodes to the sides. -/
theorem char_mem_heads {node : Node} (h : node.StoredIn arena.cells) {id : Nat}
    (hid : node.id? = some id) {other : Cell} (hother : arena.Beside id other) :
    other.char ∈ node.heads := by
  obtain ⟨path, hpath, hother⟩ := hother
  obtain ⟨last, hlast, hcell⟩ := Option.bind_eq_some_iff.mp hother
  rw [follow_eq h hid] at hlast
  rw [(h.follow path).getElem? hlast] at hcell
  -- Links to the sides do not leave the place of the word, so they lead to heads of the node.
  refine Node.heads_follow_subset hpath node ?_
  cases hnode : node.follow path with
  | leaf => simp [hnode, Node.cell?] at hcell
  | branch own char isEnd lo eq hi =>
    rw [hnode] at hcell
    obtain rfl := Option.some.inj hcell
    simp [Node.heads]

/-! ### The arena of some words -/

variable {added : List Word}

/-- Each cell is the one of the node at the end of a path. -/
theorem Stores.exists_node (h : arena.Stores (.ofWords order added)) {id : Nat}
    (hid : id < arena.cells.size) :
    ∃ path node, (Tree.ofWords order added).root.follow path = node ∧ node.id? = some id ∧
      node.StoredIn arena.cells := by
  rw [h.count_eq] at hid
  obtain ⟨path, hpath⟩ := Node.exists_path (Tree.mem_ids_ofWords_iff.mpr hid)
  exact ⟨path, _, rfl, hpath, h.stored.follow path⟩

/-- A cell is a child where its node is one. -/
theorem Stores.childOf_eq_some_iff (h : arena.Stores (.ofWords order added)) {id child : Nat}
    {link : Link} :
    arena.childOf id link = some child ↔
      ∃ path, ((Tree.ofWords order added).root.follow path).id? = some id ∧
        ((Tree.ofWords order added).root.follow (path ++ [link])).id? = some child := by
  constructor
  · intro hchild
    obtain ⟨cell, hcell, -⟩ := Option.bind_eq_some_iff.mp hchild
    obtain ⟨path, node, rfl, hid, hstored⟩ := h.exists_node (lt_size_of_getElem? hcell)
    rw [childOf_eq hstored hid, ← Node.follow_concat] at hchild
    exact ⟨path, hid, hchild⟩
  · rintro ⟨path, hid, hchild⟩
    rw [childOf_eq (h.stored.follow path) hid, ← Node.follow_concat, hchild]

/-- Children stand behind the cells above them. -/
theorem Stores.child_within (h : arena.Stores (.ofWords order added)) {id child : Nat}
    {link : Link} (hchild : arena.childOf id link = some child) :
    id < child ∧ child < arena.cells.size := by
  obtain ⟨path, hid, hchild⟩ := h.childOf_eq_some_iff.mp hchild
  constructor
  · rw [Node.follow_concat] at hchild
    exact ((Tree.rising_ofWords order added).follow path).lt_child hid hchild
  · rw [h.count_eq, ← Tree.mem_ids_ofWords_iff]
    exact Node.mem_ids_of_follow (Node.mem_ids_of_id? hchild)

/-- Each cell but the topmost one is the child at one link of one cell. -/
theorem Stores.one_slot (h : arena.Stores (.ofWords order added)) {id : Nat}
    (hid : id < arena.cells.size) (hroot : arena.root ≠ some id) :
    ∃! slot : Nat × Link, arena.childOf slot.1 slot.2 = some id := by
  obtain ⟨path, node, rfl, hpath, -⟩ := h.exists_node hid
  rcases List.eq_nil_or_concat path with rfl | ⟨above, link, rfl⟩
  · exact absurd (h.root_eq.trans hpath) hroot
  · rw [List.concat_eq_append] at hpath
    obtain ⟨parent, hparent⟩ := Node.exists_id?_of_child (Node.follow_concat _ above link ▸ hpath)
    refine ⟨(parent, link), h.childOf_eq_some_iff.mpr ⟨above, hparent, hpath⟩, ?_⟩
    -- Another slot would be the end of another path, and no node is at the end of two.
    rintro ⟨parent', link'⟩ hslot
    obtain ⟨above', hparent', hpath'⟩ := h.childOf_eq_some_iff.mp hslot
    have hsame := Node.path_unique (Tree.nodup_ids_ofWords order added) hpath hpath'
    obtain ⟨rfl, hlink⟩ := List.append_inj' hsame rfl
    obtain rfl := List.singleton_inj.mp hlink
    rw [Option.some.inj (hparent.symm.trans hparent')]

/-- Each cell has the content of the node at the end of a path. -/
theorem Stores.exists_branch (h : arena.Stores (.ofWords order added)) {id : Nat} {cell : Cell}
    (hcell : arena.cells[id]? = some cell) :
    ∃ path lo eq hi, (Tree.ofWords order added).root.follow path
        = .branch id cell.char cell.isEnd lo eq hi ∧
      (Node.branch id cell.char cell.isEnd lo eq hi).StoredIn arena.cells ∧
      cell.lo = lo.id? ∧ cell.eq = eq.id? ∧ cell.hi = hi.id? := by
  obtain ⟨path, node, hpath, hid, hstored⟩ := h.exists_node (lt_size_of_getElem? hcell)
  cases node with
  | leaf => simp [Node.id?] at hid
  | branch own char isEnd lo eq hi =>
    obtain rfl : own = id := Option.some.inj hid
    obtain rfl := Option.some.inj (hstored.1.symm.trans hcell)
    exact ⟨path, lo, eq, hi, hpath, hstored, rfl, rfl, rfl⟩

/-- The cells to the sides of a cell have characters on their side of its own. -/
theorem Stores.sides (h : arena.Stores (.ofWords order added)) {id : Nat} {cell : Cell}
    (hcell : arena.cells[id]? = some cell) {first : Nat} {other : Cell}
    (hother : arena.Beside first other) :
    (cell.lo = some first → arena.order.compareChar other.char cell.char = .lt) ∧
      (cell.hi = some first → arena.order.compareChar other.char cell.char = .gt) := by
  obtain ⟨way, lo, eq, hi, hway, hstored, hlo, -, hhi⟩ := h.exists_branch hcell
  have hordered := (Tree.sound_ofWords order added).ordered.follow way
  rw [hway] at hordered
  obtain ⟨hbefore, hafter, -⟩ := hordered
  rw [h.order_eq]
  constructor
  · intro hfirst
    rw [hlo] at hfirst
    exact hbefore _ (char_mem_heads hstored.2.1 hfirst hother)
  · intro hfirst
    rw [hhi] at hfirst
    exact hafter _ (char_mem_heads hstored.2.2.2 hfirst hother)

/-- A word ends at each cell behind which no word goes on. -/
theorem Stores.alive (h : arena.Stores (.ofWords order added)) {id : Nat} {cell : Cell}
    (hcell : arena.cells[id]? = some cell) (hnone : cell.eq = none) : cell.isEnd = true := by
  obtain ⟨way, lo, eq, hi, hway, -, -, heq, -⟩ := h.exists_branch hcell
  have halive := (Tree.alive_ofWords order added).follow way
  rw [hway] at halive
  exact halive.1 (heq ▸ hnone)

/-- The arena of some words is well-formed. -/
theorem Stores.well_formed (h : arena.Stores (.ofWords order added)) : arena.WellFormed where
  child_within id link child := h.child_within
  root_free := by
    intro root hroot id link hchild
    obtain ⟨path, -, hpath⟩ := h.childOf_eq_some_iff.mp hchild
    -- The topmost cell would be at the end of two paths.
    have htop : ((Tree.ofWords order added).root.follow []).id? = some root :=
      h.root_eq.symm.trans hroot
    have hsame := Node.path_unique (Tree.nodup_ids_ofWords order added) htop hpath
    simp at hsame
  one_slot id hid := h.one_slot hid
  reachable := by
    intro id hid
    obtain ⟨path, node, rfl, hpath, -⟩ := h.exists_node hid
    exact ⟨path, (h.reached_eq path).trans hpath⟩
  lo_before id cell hcell lo other hlo hother := (h.sides hcell hother).1 hlo
  hi_after id cell hcell hi other hhi hother := (h.sides hcell hother).2 hhi
  alive id cell := h.alive

/-- The walks in an arena come to what those in the tree that it stores come to. -/
theorem Stores.walksAs (h : arena.Stores tree) : arena.WalksAs tree where
  contains := h.contains
  words := h.words
  matching := h.matching
  near := h.near
  outline := h.outline

/-- The depth of a tree that an arena stores is the height of the arena. -/
theorem Stores.isHeight (h : arena.Stores tree) : arena.IsHeight tree.depth where
  lt_of_reached path id hpath := Node.length_lt_height ((h.reached_eq path).symm.trans hpath)
  exists_longest := by
    cases hroot : tree.root with
    | leaf => exact .inl (by rw [Tree.depth, hroot]; rfl)
    | branch own char isEnd lo eq hi =>
      have hnode : tree.root ≠ .leaf := by simp [hroot]
      obtain ⟨path, id, hpath, hlength⟩ := Node.exists_length_eq_height hnode
      exact .inr ⟨path, id, (h.reached_eq path).trans hpath, hlength⟩

/-- The cells of an arena are those of the nodes of the tree that it stores, number by number. -/
theorem Stores.getElem?_eq (h : arena.Stores (.ofWords order added)) (id : Nat) :
    arena.cells[id]? = ((Tree.ofWords order added).root.find? id).bind Node.cell? := by
  cases hfind : (Tree.ofWords order added).root.find? id with
  | none =>
    -- Every number in range is that of a node, so this one is out of range.
    refine Array.getElem?_eq_none (Nat.not_lt.mp fun hid => ?_)
    rw [h.count_eq, ← Tree.mem_ids_ofWords_iff] at hid
    have hsome := Node.isSome_find?_of_mem_ids hid
    simp [hfind] at hsome
  | some node =>
    obtain ⟨hid, path, rfl⟩ := Node.exists_path_of_find? hfind
    exact (h.stored.follow path).getElem? hid

/-- **Arenas are well-formed.** After any words were added, in either order of words, no number was
    out of range and no loop went on for ever; the cells are those of the nodes of the tree of the
    words, and make up a search tree; and every walk in it comes to an end, with what it comes to in
    the tree, the depth being the height. -/
theorem ofWords_well_formed (order : WordOrder) (added : List Word) :
    ∃ arena, ofWords order added = some arena ∧ arena.Stores (.ofWords order added) ∧
      arena.WellFormed ∧
      (∀ id, arena.cells[id]?
        = ((Tree.ofWords order added).root.find? id).bind Node.cell?) ∧
      arena.WalksAs (.ofWords order added) ∧
      arena.depth = some (Tree.ofWords order added).depth ∧
      arena.IsHeight (Tree.ofWords order added).depth := by
  obtain ⟨arena, hrun, hstores⟩ := exists_ofWords order added
  exact ⟨arena, hrun, hstores, hstores.well_formed, hstores.getElem?_eq, hstores.walksAs,
    hstores.depth, hstores.isHeight⟩

end Arena

end Lexicon.Ternary
