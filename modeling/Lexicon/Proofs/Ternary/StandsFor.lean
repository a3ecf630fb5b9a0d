import Lexicon.Proofs.Ternary.Beginnings
import Lexicon.Proofs.Ternary.Extension

namespace Lexicon.Ternary

open Std

/-!
# One node for each beginning

A path to a node reads the characters of the nodes behind which it goes on, and that of the node
itself.  What it reads is a beginning of the words that were added, and no other path reads it.

* `Node.start?`, `Node.mem_words_marked_iff` — what a path reads, and that the words of the marked
  nodes are what all paths read.
* `Node.Ordered.landing_eq` — a path is the way that what it reads would take.
* `Tree.StandsFor`, `Tree.one_node_for_each_beginning` — the nodes stand for the beginnings one to
  one.
-/

variable {order : WordOrder}

namespace Node

/-! ### What a path reads -/

/-- The characters that a path to a node reads. -/
def start? : Node → List Link → Option Word
  | leaf, _ => none
  | branch _ char _ _ _ _, [] => some [char]
  | branch _ _ _ lo _ _, .lo :: path => lo.start? path
  | branch _ char _ _ eq _, .eq :: path => (eq.start? path).map (char :: ·)
  | branch _ _ _ _ _ hi, .hi :: path => hi.start? path

/-- There is something to read on each path to a node, and on no other path. -/
theorem isSome_start?_iff {node : Node} {path : List Link} :
    (node.start? path).isSome = true ↔ ∃ id, (node.follow path).id? = some id := by
  fun_induction start? node path with
  | case1 path => simp [follow_leaf, id?]
  | case2 id char isEnd lo eq hi => simp [follow, id?]
  | case3 id char isEnd lo eq hi path ih => exact ih
  | case4 id char isEnd lo eq hi path ih => simpa [follow_cons, child] using ih
  | case5 id char isEnd lo eq hi path ih => exact ih

/-- The words of nodes where a word ends at each are what the paths read. -/
theorem mem_words_marked_iff {node : Node} {word : Word} :
    word ∈ node.marked.words ↔ ∃ path, node.start? path = some word := by
  induction node generalizing word with
  | leaf => simp [marked, words, start?]
  | branch id char isEnd lo eq hi ihlo iheq ihhi =>
    rw [marked, mem_words_branch, ihlo, ihhi]
    constructor
    · rintro (⟨path, hpath⟩ | ⟨-, rfl⟩ | ⟨rest, hrest, rfl⟩ | ⟨path, hpath⟩)
      · exact ⟨.lo :: path, hpath⟩
      · exact ⟨[], rfl⟩
      · obtain ⟨path, hpath⟩ := iheq.mp hrest
        exact ⟨.eq :: path, by simp [start?, hpath]⟩
      · exact ⟨.hi :: path, hpath⟩
    · rintro ⟨path, hpath⟩
      cases path with
      | nil => exact .inr (.inl ⟨rfl, (Option.some.inj hpath).symm⟩)
      | cons link path =>
        cases link with
        | lo => exact .inl ⟨path, hpath⟩
        | eq =>
          obtain ⟨rest, hrest, rfl⟩ := Option.map_eq_some_iff.mp hpath
          exact .inr (.inr (.inl ⟨rest, iheq.mpr ⟨path, hrest⟩, rfl⟩))
        | hi => exact .inr (.inr (.inr ⟨path, hpath⟩))

/-- What a path reads begins with one of the characters for its first place. -/
theorem exists_of_start? {node : Node} {path : List Link} {word : Word}
    (h : node.start? path = some word) : ∃ c rest, word = c :: rest ∧ c ∈ node.heads := by
  have hmem := exists_of_mem_words (mem_words_marked_iff.mpr ⟨path, h⟩)
  rwa [heads_marked] at hmem

/-- A word that equals what a path reads lands at the end of the path. -/
theorem Ordered.landing_eq {node : Node} (h : node.Ordered order) {path : List Link} {word : Word}
    (hpath : node.start? path = some word) {c : Char} {rest : List Char}
    (heq : order.compare word (c :: rest) = .eq) : node.landing order c rest = path := by
  -- Equal words begin on the same side of a node, so the word goes the way of the path.
  fun_induction start? node path generalizing word c rest with
  | case1 => simp at hpath
  | case2 id char isEnd lo eq hi =>
    obtain rfl := Option.some.inj hpath
    have hself : order.compareChar char char = .eq := ReflCmp.compare_self
    have hside := (side_of_compare_eq heq char).symm.trans hself
    rw [compare_of_same hself hside] at heq
    cases rest with
    | nil => simp only [landing, hside]
    | cons d rest => simp at heq
  | case3 id char isEnd lo eq hi path ih =>
    obtain ⟨hlo, -, hloOrdered, -⟩ := h
    obtain ⟨d, rest', rfl, hd⟩ := exists_of_start? hpath
    have hside := (side_of_compare_eq heq char).symm.trans (hlo d hd)
    simp only [landing, hside, ih hloOrdered hpath heq]
  | case4 id char isEnd lo eq hi path ih =>
    obtain ⟨-, -, -, heqOrdered, -⟩ := h
    obtain ⟨below, hbelow, rfl⟩ := Option.map_eq_some_iff.mp hpath
    have hself : order.compareChar char char = .eq := ReflCmp.compare_self
    have hside := (side_of_compare_eq heq char).symm.trans hself
    rw [compare_of_same hself hside] at heq
    cases rest with
    | nil =>
      obtain ⟨d, rest', rfl, -⟩ := exists_of_start? hbelow
      simp at heq
    | cons d rest => simp only [landing, hside, ih heqOrdered hbelow heq]
  | case5 id char isEnd lo eq hi path ih =>
    obtain ⟨-, hhi, -, -, hhiOrdered⟩ := h
    obtain ⟨d, rest', rfl, hd⟩ := exists_of_start? hpath
    have hside := (side_of_compare_eq heq char).symm.trans (hhi d hd)
    simp only [landing, hside, ih hhiOrdered hpath heq]

/-- No two paths read equal words. -/
theorem Ordered.path_eq {node : Node} (h : node.Ordered order) {path path' : List Link}
    {word word' : Word} (hpath : node.start? path = some word)
    (hpath' : node.start? path' = some word') (hkey : order.key word = order.key word') :
    path = path' := by
  -- Both paths are the way of the first word, as equal words land at the same place.
  obtain ⟨c, rest, rfl, -⟩ := exists_of_start? hpath
  have hself : order.compare (c :: rest) (c :: rest) = .eq := ReflCmp.compare_self
  have hother := (order.compare_eq_eq_iff word' (c :: rest)).mpr hkey.symm
  exact (h.landing_eq hpath hself).symm.trans (h.landing_eq hpath' hother)

/-- No more words end than there are nodes. -/
theorem endCount_le_count (node : Node) : node.endCount ≤ node.count := by
  induction node with
  | leaf => exact Nat.le_refl _
  | branch id char isEnd lo eq hi ihlo iheq ihhi =>
    have hend := isEnd.toNat_le
    rw [endCount, count]
    omega

end Node

namespace Tree

/-! ### The nodes of a tree -/

/-- A node stands for what the path to it reads, folded. -/
def StandsFor (tree : Tree) (id : Nat) (start : Word) : Prop :=
  ∃ path word, (tree.root.follow path).id? = some id ∧ tree.root.start? path = some word ∧
    tree.order.key word = start

/-- There is at most one word more than there are nodes, the empty one. -/
theorem size_ofWords_le (order : WordOrder) (added : List Word) :
    (ofWords order added).size ≤ (ofWords order added).nodeCount + 1 := by
  have hends := (ofWords order added).root.endCount_le_count
  have hempty := (ofWords order added).hasEmptyWord.toNat_le
  rw [(sound_ofWords order added).size_eq, nodeCount_eq_count]
  omega

/-- A node stands for one word. -/
theorem StandsFor.unique {added : List Word} {id : Nat} {start start' : Word}
    (h : (ofWords order added).StandsFor id start)
    (h' : (ofWords order added).StandsFor id start') : start' = start := by
  obtain ⟨path, word, hid, hword, rfl⟩ := h
  obtain ⟨path', word', hid', hword', rfl⟩ := h'
  obtain rfl := Node.path_unique (nodup_ids_ofWords order added) hid hid'
  rw [Option.some.inj (hword.symm.trans hword')]

/-- No two nodes stand for one word. -/
theorem StandsFor.id_unique {added : List Word} {id id' : Nat} {start : Word}
    (h : (ofWords order added).StandsFor id start)
    (h' : (ofWords order added).StandsFor id' start) : id' = id := by
  obtain ⟨path, word, hid, hword, rfl⟩ := h
  obtain ⟨path', word', hid', hword', hkey⟩ := h'
  obtain rfl := (sound_ofWords order added).ordered.path_eq hword hword' hkey.symm
  exact Option.some.inj (hid'.symm.trans hid)

/-- Each node stands for a beginning of the words that were added. -/
theorem exists_standsFor {added : List Word} {id : Nat}
    (hid : id < (ofWords order added).nodeCount) :
    ∃ start ∈ beginnings order added, (ofWords order added).StandsFor id start := by
  obtain ⟨path, hpath⟩ := Node.exists_path (mem_ids_ofWords_iff.mpr hid)
  obtain ⟨word, hword⟩ := Option.isSome_iff_exists.mp (Node.isSome_start?_iff.mpr ⟨id, hpath⟩)
  refine ⟨order.key word, ?_, path, word, hpath, hword, by rw [order_ofWords]⟩
  exact mem_beginnings_iff.mpr ⟨word, Node.mem_words_marked_iff.mpr ⟨path, hword⟩, rfl⟩

/-- Each beginning of the words that were added has a node. -/
theorem exists_id_standsFor {added : List Word} {start : Word}
    (h : start ∈ beginnings order added) :
    ∃ id < (ofWords order added).nodeCount, (ofWords order added).StandsFor id start := by
  obtain ⟨word, hword, rfl⟩ := mem_beginnings_iff.mp h
  obtain ⟨path, hpath⟩ := Node.mem_words_marked_iff.mp hword
  obtain ⟨id, hid⟩ := Node.isSome_start?_iff.mp (Option.isSome_of_eq_some hpath)
  refine ⟨id, ?_, path, word, hid, hpath, by rw [order_ofWords]⟩
  exact mem_ids_ofWords_iff.mp (Node.mem_ids_of_follow (Node.mem_ids_of_id? hid))

/-- **One node for each beginning.** After any words were added, in either order of words, the nodes
    stand for the beginnings of the folded words one to one.  So there are as many nodes as
    different beginnings, none of which is stored twice, and one word more at most. -/
theorem one_node_for_each_beginning (order : WordOrder) (added : List Word) :
    (ofWords order added).nodeCount = (beginnings order added).ncard ∧
      (ofWords order added).size ≤ (ofWords order added).nodeCount + 1 ∧
      (∀ id < (ofWords order added).nodeCount, ∃! start,
        start ∈ beginnings order added ∧ (ofWords order added).StandsFor id start) ∧
      ∀ start ∈ beginnings order added, ∃! id,
        id < (ofWords order added).nodeCount ∧ (ofWords order added).StandsFor id start := by
  refine ⟨nodeCount_ofWords order added, size_ofWords_le order added, fun id hid => ?_,
    fun start hstart => ?_⟩
  · obtain ⟨start, hstart, hstands⟩ := exists_standsFor hid
    exact ⟨start, ⟨hstart, hstands⟩, fun _ hother => hstands.unique hother.2⟩
  · obtain ⟨id, hid, hstands⟩ := exists_id_standsFor hstart
    exact ⟨id, ⟨hid, hstands⟩, fun _ hother => hstands.id_unique hother.2⟩

end Tree

end Lexicon.Ternary
