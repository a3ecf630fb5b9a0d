import Lexicon.Proofs.Ternary.Arena.Basic
import Lexicon.Proofs.Ternary.Numbers

namespace Lexicon.Ternary

open Node (Link)

/-!
# Adding words to an arena

An arena stores a tree if it has a cell for each node, with the children of the node.  Adding a word
to the arena never fails, and stores the tree to which the word was added.

* `Node.StoredIn`, `Arena.Stores` — an arena has the cells of some nodes, or of a tree.
* `Arena.exists_childOrNew` — a child is found, or is made next to the cells that are there.
* `Node.Settles`, `Node.settles` — from a cell of a node on, a word is added to the node, and all
  other cells stay as they are.
* `Arena.Stores.insert`, `Arena.Stores.exists_insert`, `Arena.exists_ofWords` — so it is for whole
  words, and for any of them.
-/

variable {order : WordOrder}

namespace Cell

/-- A child that is there already is attached once more. -/
theorem attach_of_child {cell : Cell} {link : Link} {id : Nat} (h : cell.child link = some id) :
    cell.attach link id = cell := by
  cases link <;> simp only [child] at h <;> simp only [attach, ← h]

end Cell

namespace Node

/-! ### Cells of nodes -/

/-- Each node has its cell. -/
def StoredIn (cells : Array Cell) : Node → Prop
  | leaf => True
  | branch id char isEnd lo eq hi =>
    cells[id]? = some ⟨char, isEnd, lo.id?, eq.id?, hi.id?⟩ ∧
      lo.StoredIn cells ∧ eq.StoredIn cells ∧ hi.StoredIn cells

variable {before after cells : Array Cell}

theorem StoredIn.child {node : Node} (h : node.StoredIn cells) (link : Link) :
    (node.child link).StoredIn cells := by
  cases node with
  | leaf => rwa [child_leaf]
  | branch id char isEnd lo eq hi =>
    obtain ⟨-, hlo, heq, hhi⟩ := h
    exact child_of_subtrees hlo heq hhi link

theorem StoredIn.follow {node : Node} (h : node.StoredIn cells) (path : List Link) :
    (node.follow path).StoredIn cells :=
  follow_of_child StoredIn.child h path

/-- Nodes stay stored if their own cells stay as they are. -/
theorem StoredIn.of_frame {node : Node} (h : node.StoredIn before)
    (hframe : ∀ i ∈ node.ids, after[i]? = before[i]?) : node.StoredIn after := by
  induction node with
  | leaf => trivial
  | branch id char isEnd lo eq hi ihlo iheq ihhi =>
    obtain ⟨hcell, hlo, heq, hhi⟩ := h
    simp only [ids, List.forall_mem_cons, List.forall_mem_append] at hframe
    obtain ⟨hown, ⟨hloFrame, heqFrame⟩, hhiFrame⟩ := hframe
    exact ⟨hown.trans hcell, ihlo hlo hloFrame, iheq heq heqFrame, ihhi hhi hhiFrame⟩

/-- A node with another subtree at the end of a link. -/
def withChild (node : Node) (link : Link) (child : Node) : Node :=
  match node, link with
  | leaf, _ => leaf
  | branch id char isEnd _ eq hi, .lo => branch id char isEnd child eq hi
  | branch id char isEnd lo _ hi, .eq => branch id char isEnd lo child hi
  | branch id char isEnd lo eq _, .hi => branch id char isEnd lo eq child

/-- A subtree is exchanged with the cell above it. -/
theorem StoredIn.withChild {id : Nat} {char : Char} {isEnd : Bool} {lo eq hi child : Node}
    {link : Link} {top : Nat} (hstored : child.StoredIn cells) (htop : child.id? = some top)
    (hcell : cells[id]? = some ((Cell.mk char isEnd lo.id? eq.id? hi.id?).attach link top))
    (hothers : ∀ other, other ≠ link →
      ((branch id char isEnd lo eq hi).child other).StoredIn cells) :
    ((branch id char isEnd lo eq hi).withChild link child).StoredIn cells := by
  cases link with
  | lo => exact ⟨by rw [hcell, htop]; rfl, hstored, hothers .eq nofun, hothers .hi nofun⟩
  | eq => exact ⟨by rw [hcell, htop]; rfl, hothers .lo nofun, hstored, hothers .hi nofun⟩
  | hi => exact ⟨by rw [hcell, htop]; rfl, hothers .lo nofun, hothers .eq nofun, hstored⟩

/-- The topmost cell of some nodes, or the next one, made for a character, if there are none. -/
inductive Opened (c : Char) (next : Nat) (cells : Array Cell) : Node → Nat → Prop where
  /-- There is none, and the next one was made. -/
  | made (hsize : cells.size = next + 1) (hcell : cells[next]? = some (.ofChar c)) :
      Opened c next cells leaf next
  /-- There is one. -/
  | found {node : Node} {top : Nat} (hsize : cells.size = next) (hstored : node.StoredIn cells)
      (htop : node.id? = some top) : Opened c next cells node top

/-- What adding a word to some nodes does to cells, where new ones have the numbers from `next`
    on. -/
structure AddedIn (order : WordOrder) (node : Node) (next : Nat) (c : Char) (rest : List Char)
    (before after : Array Cell) : Prop where
  /-- The nodes have their cells. -/
  stored : (node.insert order next c rest).StoredIn after
  /-- There are as many new cells as new nodes. -/
  size_eq : after.size = next + node.missing order c rest
  /-- The cells of other nodes stay as they are. -/
  frame : ∀ i < next, i ∉ node.ids → after[i]? = before[i]?

end Node

namespace Arena

variable {arena : Arena} {id : Nat} {cell : Cell}

theorem update_eq (h : arena.cells[id]? = some cell) (change : Cell → Cell) :
    arena.update id change
      = some { arena with cells := arena.cells.setIfInBounds id (change cell) } := by
  simp [update, h]

theorem mark_eq (h : arena.cells[id]? = some cell) :
    arena.mark id = some { arena with
      cells := arena.cells.setIfInBounds id { cell with isEnd := true }
      size := arena.size + (!cell.isEnd).toNat } := by
  simp [mark, update_eq h, h]

theorem lt_size_of_getElem? {cells : Array Cell} (h : cells[id]? = some cell) : id < cells.size :=
  (Array.getElem?_eq_some_iff.mp h).1

/-- From a cell, the child at the end of a link is found, or the next one is made. -/
theorem exists_childOrNew {link : Link} {child : Node} (hcell : arena.cells[id]? = some cell)
    (hchild : cell.child link = child.id?) (hstored : child.StoredIn arena.cells) (c : Char) :
    ∃ cells top, arena.childOrNew id link c = some ({ arena with cells }, top) ∧
      child.Opened c arena.cells.size cells top ∧
      top = child.id?.getD arena.cells.size ∧
      cells[id]? = some (cell.attach link top) ∧
      ∀ i < arena.cells.size, i ≠ id → cells[i]? = arena.cells[i]? := by
  have hid := lt_size_of_getElem? hcell
  cases child with
  | leaf =>
    -- The new cell stands behind the others, and only the cell above it changes.
    have hpushed : (arena.cells.push (.ofChar c))[id]? = some cell := by
      rw [Array.getElem?_push_lt hid, ← Array.getElem?_eq_getElem hid, hcell]
    refine ⟨(arena.cells.push (.ofChar c)).setIfInBounds id (cell.attach link arena.cells.size),
      arena.cells.size, ?_, .made (by simp) ?_, rfl, ?_, ?_⟩
    · simp [childOrNew, hcell, hchild, Node.id?, alloc, update, hpushed]
    · rw [Array.getElem?_setIfInBounds_ne (Nat.ne_of_lt hid), Array.getElem?_push_size]
    · rw [Array.getElem?_setIfInBounds_self_of_lt (by rw [Array.size_push]; omega)]
    · intro i hi hne
      rw [Array.getElem?_setIfInBounds_ne hne.symm, Array.getElem?_push_lt hi,
        Array.getElem?_eq_getElem hi]
  | branch own char isEnd lo eq hi =>
    refine ⟨arena.cells, own, ?_, .found rfl hstored rfl, rfl, ?_, fun _ _ _ => rfl⟩
    · simp [childOrNew, hcell, hchild, Node.id?]
    · rw [Cell.attach_of_child hchild, hcell]

/-- In front of all cells, the topmost one is found, or the next one is made. -/
theorem exists_rootOrNew {root : Node} (hroot : arena.root = root.id?)
    (hstored : root.StoredIn arena.cells) (c : Char) :
    ∃ cells top, arena.rootOrNew c = ({ arena with cells, root := some top }, top) ∧
      root.Opened c arena.cells.size cells top ∧
      top = root.id?.getD arena.cells.size := by
  cases root with
  | leaf =>
    refine ⟨arena.cells.push (.ofChar c), arena.cells.size, ?_, .made (by simp) (by simp), rfl⟩
    simp [rootOrNew, hroot, Node.id?, alloc]
  | branch own char isEnd lo eq hi =>
    refine ⟨arena.cells, own, ?_, .found rfl hstored rfl, rfl⟩
    obtain ⟨order, cells, root, hasEmptyWord, size⟩ := arena
    obtain rfl : root = some own := hroot
    rfl

end Arena

/-! ### Words -/

namespace Node

/-- From the topmost cell of some nodes on, a word is added to them. -/
def Settles (order : WordOrder) (node : Node) (c : Char) (rest : List Char) : Prop :=
  ∀ (arena : Arena) (word : Word) (place next top : Nat), arena.order = order →
    word.drop place = c :: rest → node.Opened c next arena.cells top → node.ids.Nodup →
    (∀ i ∈ node.ids, i < next) →
    ∃ after, arena.settle word top place = some { arena with
        cells := after
        size := arena.size + (node.isNew order c rest).toNat } ∧
      node.AddedIn order next c rest arena.cells after

/-- From the cell of a node on, a word is added to the subtree at the end of a link. -/
theorem Settles.descend {id : Nat} {char : Char} {isEnd : Bool} {lo eq hi node : Node}
    (hnode : node = branch id char isEnd lo eq hi) (link : Link) {d : Char} {rest : List Char}
    (hchild : (node.child link).Settles order d rest) {arena : Arena} {word : Word} {place : Nat}
    (horder : arena.order = order) (hword : word.drop place = d :: rest)
    (hstored : node.StoredIn arena.cells) (hnodup : node.ids.Nodup)
    (hnext : ∀ i ∈ node.ids, i < arena.cells.size) :
    ∃ made top after, arena.childOrNew id link d = some (made, top) ∧
      made.settle word top place = some { arena with
        cells := after
        size := arena.size + ((node.child link).isNew order d rest).toNat } ∧
      (node.withChild link
        ((node.child link).insert order arena.cells.size d rest)).StoredIn after ∧
      after.size = arena.cells.size + (node.child link).missing order d rest ∧
      ∀ i < arena.cells.size, i ∉ node.ids → after[i]? = arena.cells[i]? := by
  have hcell : arena.cells[id]? = some ⟨char, isEnd, lo.id?, eq.id?, hi.id?⟩ := by
    subst hnode
    exact hstored.1
  have hlink : (Cell.mk char isEnd lo.id? eq.id? hi.id?).child link = (node.child link).id? := by
    subst hnode
    cases link <;> rfl
  obtain ⟨cells, top, hmade, hopened, htop, hattached, hcells⟩ :=
    Arena.exists_childOrNew hcell hlink (hstored.child link) d
  obtain ⟨after, hrun, hadded⟩ := hchild { arena with cells } word place _ top horder hword hopened
    (nodup_ids_child hnodup link) fun i hi => hnext i (mem_ids_of_child hi)
  -- The cells that stay as they are, but for the one that the link leads from.
  have hframe : ∀ i < arena.cells.size, i ≠ id → i ∉ (node.child link).ids →
      after[i]? = arena.cells[i]? :=
    fun i hi hne hbelow => (hadded.frame i hi hbelow).trans (hcells i hi hne)
  have hid : node.id? = some id := by rw [hnode]; rfl
  refine ⟨_, top, after, hmade, hrun, ?_, hadded.size_eq, ?_⟩
  · have hown : after[id]? = cells[id]? :=
      hadded.frame id (hnext id (mem_ids_of_id? hid)) (not_mem_ids_child hnodup hid link)
    subst hnode
    refine .withChild hadded.stored (id?_insert _ _ _ _ _) ?_ ?_
    · rw [hown, hattached, htop]
    · intro other hother
      refine (hstored.child other).of_frame fun i hi => ?_
      refine hframe i (hnext i (mem_ids_of_child hi)) ?_ (disjoint_ids_child hnodup hother hi)
      rintro rfl
      exact not_mem_ids_child hnodup hid other hi
  · intro i hi hnot
    refine hframe i hi ?_ fun hbelow => hnot (mem_ids_of_child hbelow)
    rintro rfl
    exact hnot (mem_ids_of_id? hid)

/-- A word is added at a node if what it comes to there is added below. -/
theorem settles_branch {id : Nat} {char : Char} {isEnd : Bool} {lo eq hi : Node} {c : Char}
    {rest : List Char} (hlo : order.compareChar c char = .lt → lo.Settles order c rest)
    (hhi : order.compareChar c char = .gt → hi.Settles order c rest)
    (heq : ∀ d rest', order.compareChar c char = .eq → rest = d :: rest' →
      eq.Settles order d rest') :
    (branch id char isEnd lo eq hi).Settles order c rest := by
  intro arena word place next top horder hword hopened hnodup hnext
  cases hopened with
  | found hsize hstored htop =>
    obtain rfl : id = top := Option.some.inj htop
    subst hsize
    have hcell := hstored.1
    have hread : word[place]? = some c := by
      rw [← List.head?_drop, hword, List.head?_cons]
    have htail : word.drop (place + 1) = rest := by
      rw [← List.tail_drop, hword, List.tail_cons]
    subst horder
    rw [Arena.settle]
    cases hside : arena.order.compareChar c char with
    | lt =>
      obtain ⟨made, top, after, hmade, hrun, hadded, hsize, hframe⟩ :=
        Settles.descend rfl .lo (hlo hside) rfl hword hstored hnodup hnext
      refine ⟨after, ?_, ?_, ?_, hframe⟩
      · simpa [hread, hcell, hside, hmade, isNew, child] using hrun
      · simpa [hside, insert, child, withChild] using hadded
      · simpa [hside, missing, child] using hsize
    | gt =>
      obtain ⟨made, top, after, hmade, hrun, hadded, hsize, hframe⟩ :=
        Settles.descend rfl .hi (hhi hside) rfl hword hstored hnodup hnext
      refine ⟨after, ?_, ?_, ?_, hframe⟩
      · simpa [hread, hcell, hside, hmade, isNew, child] using hrun
      · simpa [hside, insert, child, withChild] using hadded
      · simpa [hside, missing, child] using hsize
    | eq =>
      have hlength := congrArg List.length hword
      rw [List.length_drop, List.length_cons] at hlength
      cases rest with
      | nil =>
        have hlast : place + 1 = word.length := by
          rw [List.length_nil] at hlength
          omega
        -- At the end of the word, one cell is marked and all others stay.
        have hframe : ∀ i, i ≠ id → (arena.cells.setIfInBounds id
            ⟨char, true, lo.id?, eq.id?, hi.id?⟩)[i]? = arena.cells[i]? :=
          fun i hne => Array.getElem?_setIfInBounds_ne hne.symm
        have hbelow : ∀ link, ((branch id char isEnd lo eq hi).child link).StoredIn
            (arena.cells.setIfInBounds id ⟨char, true, lo.id?, eq.id?, hi.id?⟩) := by
          intro link
          refine (hstored.child link).of_frame fun i hi => hframe i ?_
          rintro rfl
          exact not_mem_ids_child hnodup rfl link hi
        refine ⟨_, ?_, ?_, ?_, fun i _ hnot => hframe i ?_⟩
        · simp [hread, hcell, hside, hlast, Arena.mark_eq hcell, isNew]
        · simp only [insert, hside]
          refine ⟨?_, hbelow .lo, hbelow .eq, hbelow .hi⟩
          exact Array.getElem?_setIfInBounds_self_of_lt (Arena.lt_size_of_getElem? hcell)
        · simp [missing, hside]
        · rintro rfl
          exact hnot (mem_ids_of_id? rfl)
      | cons d rest =>
        have hnextRead : word[place + 1]? = some d := by
          rw [← List.head?_drop, htail, List.head?_cons]
        have hmore : place + 1 ≠ word.length := by
          rw [List.length_cons] at hlength
          omega
        obtain ⟨made, top, after, hmade, hrun, hadded, hsize, hframe⟩ :=
          Settles.descend rfl .eq (heq d rest hside rfl) rfl htail hstored hnodup hnext
        refine ⟨after, ?_, ?_, ?_, hframe⟩
        · simpa [hread, hcell, hside, hmore, hnextRead, hmade, isNew, child] using hrun
        · simpa [hside, insert, child, withChild] using hadded
        · simpa [hside, missing, child] using hsize

/-- A node alone, with the first character of a word, becomes the spine of the word. -/
theorem insert_alone (order : WordOrder) (id : Nat) (c : Char) (rest : List Char) :
    (branch id c false leaf leaf leaf).insert order (id + 1) c rest = spine id c rest := by
  have hself : order.compareChar c c = .eq := Std.ReflCmp.compare_self
  cases rest <;> simp [insert, spine, hself]

theorem missing_alone (order : WordOrder) (id : Nat) (c : Char) (rest : List Char) :
    (branch id c false leaf leaf leaf).missing order c rest = rest.length := by
  have hself : order.compareChar c c = .eq := Std.ReflCmp.compare_self
  cases rest <;> simp [missing, hself]

theorem isNew_alone (order : WordOrder) (id : Nat) (c : Char) (rest : List Char) :
    (branch id c false leaf leaf leaf).isNew order c rest = true := by
  have hself : order.compareChar c c = .eq := Std.ReflCmp.compare_self
  cases rest <;> simp [isNew, hself]

/-- A word is added where a cell was made for it, if its rest is added below. -/
theorem settles_made {c : Char} {rest : List Char}
    (hbelow : ∀ d rest', rest = d :: rest' → leaf.Settles order d rest') :
    leaf.Settles order c rest := by
  have hself : order.compareChar c c = .eq := Std.ReflCmp.compare_self
  intro arena word place next top horder hword hopened _ _
  cases hopened with
  | found _ _ htop => simp [id?] at htop
  | made hsize hcell =>
    -- The cell alone is a node, which the word is added to.
    have halone : (branch next c false leaf leaf leaf).Settles order c rest := by
      refine settles_branch (fun hlt => ?_) (fun hgt => ?_) fun d rest' _ => hbelow d rest'
      · simp [hself] at hlt
      · simp [hself] at hgt
    obtain ⟨after, hrun, hadded⟩ := halone arena word place _ _ horder hword
      (.found hsize ⟨hcell, trivial, trivial, trivial⟩ rfl) (by simp [ids]) (by simp [ids])
    refine ⟨after, ?_, ?_, ?_, fun i hi _ => ?_⟩
    · rw [hrun, isNew_alone]
      rfl
    · have hstored := hadded.stored
      rwa [insert_alone] at hstored
    · rw [hadded.size_eq, missing_alone, missing]
      omega
    · refine hadded.frame i (by omega) ?_
      simp only [ids, List.append_nil, List.mem_singleton]
      omega

/-- A word is added where there are no nodes. -/
theorem settles_leaf (order : WordOrder) (c : Char) (rest : List Char) :
    leaf.Settles order c rest := by
  induction rest generalizing c with
  | nil => exact settles_made fun d rest' hrest => by simp at hrest
  | cons d rest ih =>
    refine settles_made fun d' rest' hrest => ?_
    obtain ⟨rfl, rfl⟩ := List.cons.inj hrest
    exact ih d

/-- A word is added to any nodes. -/
theorem settles (order : WordOrder) (node : Node) (c : Char) (rest : List Char) :
    node.Settles order c rest := by
  induction node generalizing c rest with
  | leaf => exact settles_leaf order c rest
  | branch id char isEnd lo eq hi ihlo iheq ihhi =>
    exact settles_branch (fun _ => ihlo c rest) (fun _ => ihhi c rest) fun d rest' _ _ =>
      iheq d rest'

end Node

namespace Arena

/-- An arena has the cells of a tree. -/
structure Stores (arena : Arena) (tree : Tree) : Prop where
  /-- Words compare alike. -/
  order_eq : arena.order = tree.order
  /-- The topmost cell is the one of the topmost node. -/
  root_eq : arena.root = tree.root.id?
  /-- There are as many cells as nodes. -/
  count_eq : arena.cells.size = tree.nodeCount
  /-- The empty word was added, or not. -/
  hasEmptyWord_eq : arena.hasEmptyWord = tree.hasEmptyWord
  /-- There are as many words. -/
  size_eq : arena.size = tree.size
  /-- Each node has its cell. -/
  stored : tree.root.StoredIn arena.cells

theorem stores_empty (order : WordOrder) : (empty order).Stores (.empty order) where
  order_eq := rfl
  root_eq := rfl
  count_eq := rfl
  hasEmptyWord_eq := rfl
  size_eq := rfl
  stored := trivial

/-- A word is added to an arena as to the tree that it stores. -/
theorem Stores.insert {arena : Arena} {tree : Tree} (h : arena.Stores tree)
    (hnodup : tree.root.ids.Nodup) (hnext : ∀ i ∈ tree.root.ids, i < tree.nodeCount)
    (word : Word) : ∃ after, arena.insert word = some after ∧ after.Stores (tree.insert word) := by
  obtain ⟨horder, hroot, hcount, hempty, hsize, hstored⟩ := h
  cases word with
  | nil =>
    refine ⟨_, rfl, horder, hroot, hcount, rfl, ?_, hstored⟩
    simp [Tree.insert, hempty, hsize]
  | cons c rest =>
    rw [← hcount] at hnext
    obtain ⟨cells, top, hopens, hopened, htop⟩ := exists_rootOrNew hroot hstored c
    obtain ⟨after, hrun, hadded⟩ := Node.settles tree.order tree.root c rest
      { arena with cells, root := some top } (c :: rest) 0 _ top horder rfl hopened hnodup hnext
    have hinsert : arena.insert (c :: rest) = some { arena with
        cells := after
        root := some top
        size := arena.size + (tree.root.isNew tree.order c rest).toNat } := by
      simpa only [Arena.insert, hopens] using hrun
    have hcells := hadded.size_eq
    have hroot' := hadded.stored
    rw [hcount] at hcells hroot' htop
    refine ⟨_, hinsert, horder, ?_, hcells, hempty, ?_, hroot'⟩
    · rw [htop]
      exact (Node.id?_insert tree.order tree.nodeCount tree.root c rest).symm
    · exact congrArg (· + _) hsize

/-- One more word is added without failure to the arena of some words. -/
theorem Stores.exists_insert {arena : Arena} {added : List Word}
    (h : arena.Stores (.ofWords order added)) (word : Word) :
    ∃ after, arena.insert word = some after ∧
      after.Stores ((Tree.ofWords order added).insert word) :=
  h.insert (Tree.nodup_ids_ofWords order added) (fun _ => Tree.mem_ids_ofWords_iff.mp) word

/-- Any words are added without failure, and the arena stores their tree. -/
theorem exists_ofWords (order : WordOrder) (added : List Word) :
    ∃ arena, ofWords order added = some arena ∧ arena.Stores (.ofWords order added) := by
  induction added using List.reverseRecOn with
  | nil => exact ⟨_, rfl, stores_empty order⟩
  | append_singleton added word ih =>
    obtain ⟨arena, hrun, hstores⟩ := ih
    obtain ⟨after, hinsert, hafter⟩ := hstores.exists_insert word
    refine ⟨after, ?_, ?_⟩
    · rw [ofWords, List.foldlM_append, ← ofWords, hrun]
      simp [hinsert]
    · rw [Tree.ofWords_concat]
      exact hafter

end Arena

end Lexicon.Ternary
