import Lexicon.Proofs.Ternary.Trail

namespace Lexicon.Ternary

open Std

/-!
# The nodes of a search tree

Each node stands for a beginning of the words below it, and no two nodes stand for the same one.

* `Node.marked` — the nodes with a word ending at each, so that the words are the beginnings.
* `Node.contains_marked`, `Tree.contains_marked_ofWords` — the beginnings are those of the words
  that were added.
* `Tree.mem_beginnings_iff` — so they are the words of the marked nodes.
* `Tree.nodeCount_ofWords` — there are as many nodes as beginnings of the words that were added.
-/

variable {order : WordOrder}

namespace Node

/-- The nodes with a word ending at each of them. -/
def marked : Node → Node
  | leaf => leaf
  | branch id char _ lo eq hi => branch id char true lo.marked eq.marked hi.marked

@[simp] theorem heads_marked (node : Node) : node.marked.heads = node.heads := by
  induction node with
  | leaf => rfl
  | branch id char isEnd lo eq hi ihlo iheq ihhi => simp only [marked, heads, ihlo, ihhi]

theorem Ordered.marked {node : Node} (h : node.Ordered order) : node.marked.Ordered order := by
  induction node with
  | leaf => trivial
  | branch id char isEnd lo eq hi ihlo iheq ihhi =>
    obtain ⟨hlo, hhi, hloOrdered, heqOrdered, hhiOrdered⟩ := h
    refine ⟨?_, ?_, ihlo hloOrdered, iheq heqOrdered, ihhi hhiOrdered⟩
    · rwa [heads_marked]
    · rwa [heads_marked]

theorem endCount_marked (node : Node) : node.marked.endCount = node.count := by
  induction node with
  | leaf => rfl
  | branch id char isEnd lo eq hi ihlo iheq ihhi =>
    simp only [Node.marked, endCount, count, ihlo, iheq, ihhi, Bool.toNat_true]

/-- A query that begins a word of the nodes comes to a node with each of its characters. -/
theorem contains_marked (order : WordOrder) (node : Node) (c : Char) (rest : List Char) :
    node.marked.contains order c rest = ((node.trail order c rest)[rest.length]?).isSome := by
  fun_induction trail order node c rest with
  | case1 => rfl
  | case2 id char isEnd lo eq hi c rest hside ih => simp only [marked, contains, hside, ih]
  | case3 id char isEnd lo eq hi c rest hside ih => simp only [marked, contains, hside, ih]
  | case4 id char isEnd lo eq hi c hside => simp [marked, contains, hside]
  | case5 id char isEnd lo eq hi c hside d rest ih => simp [marked, contains, hside, ih]

end Node

namespace Tree

/-! ### Beginnings of words -/

theorem nodeCount_eq_count (order : WordOrder) (added : List Word) :
    (ofWords order added).nodeCount = (ofWords order added).root.count := by
  refine root_induction (P := fun next node => next = node.count) rfl ?_ added
  intro next node c rest hcount
  rw [Node.count_insert, ← hcount]

/-- The beginnings of words, folded, that nodes stand for. -/
def beginnings (order : WordOrder) (added : List Word) : Set Word :=
  {start | start ≠ [] ∧ ∃ word ∈ added, start <+: order.key word}

/-- A word that agrees with a query in all places of the query goes on behind it. -/
theorem agree_length_iff {query word : Word} :
    agree order query.length word query = true ↔ order.key query <+: order.key word := by
  simp only [agree, WordOrder.key, beq_iff_eq, List.take_length, List.map_take,
    List.prefix_iff_eq_take, List.length_map]
  exact eq_comm

/-- A beginning of a folded word is a folded word. -/
theorem exists_key_eq_of_prefix {start word : Word} (h : start <+: order.key word) :
    ∃ query, order.key query = start := by
  refine ⟨word.take start.length, ?_⟩
  rw [WordOrder.key, List.map_take]
  exact (List.prefix_iff_eq_take.mp h).symm

/-- A query comes to a node at each of its places if it begins a word that was added. -/
theorem contains_marked_ofWords (order : WordOrder) (added : List Word) (c : Char)
    (rest : List Char) :
    (ofWords order added).root.marked.contains order c rest = true ↔
      ∃ word ∈ added, order.key (c :: rest) <+: order.key word := by
  have hlast : rest.length < (c :: rest).length := Nat.lt_succ_self _
  have hchar := getElem?_trail_ofWords order added hlast
  rw [Node.contains_marked]
  have htrail : (ofWords order added).trail (c :: rest)
      = (ofWords order added).root.trail order c rest := by
    rw [trail, order_ofWords]
  rw [← htrail, hchar]
  simp only [← agree_length_iff, List.length_cons]
  cases hfirst : added.find? (agree order (rest.length + 1) · (c :: rest)) with
  | none =>
    simpa using hfirst
  | some first =>
    have hagree := agree_of_find? hfirst
    simp only [Option.bind_some, isSome_getElem?_of_agree hagree hlast, true_iff]
    exact ⟨first, List.mem_of_find?_eq_some hfirst, hagree⟩

/-- Nodes that are in order still are when a word ends at each. -/
theorem ordered_marked_ofWords (order : WordOrder) (added : List Word) :
    (ofWords order added).root.marked.Ordered order := by
  have hroot := (sound_ofWords order added).ordered
  rw [order_ofWords] at hroot
  exact hroot.marked

/-- The beginnings are the words of the marked nodes, folded. -/
theorem mem_beginnings_iff {added : List Word} {start : Word} :
    start ∈ beginnings order added ↔
      ∃ stored ∈ (ofWords order added).root.marked.words, order.key stored = start := by
  have hordered := ordered_marked_ofWords order added
  constructor
  · rintro ⟨hstart, word, hword, hprefix⟩
    obtain ⟨query, rfl⟩ := exists_key_eq_of_prefix hprefix
    cases query with
    | nil => exact absurd rfl hstart
    | cons c rest =>
      have hfound := (contains_marked_ofWords order added c rest).mpr ⟨word, hword, hprefix⟩
      obtain ⟨stored, hstored, heq⟩ := (hordered.contains_iff c rest).mp hfound
      exact ⟨stored, hstored, (order.compare_eq_eq_iff stored _).mp heq⟩
  · rintro ⟨stored, hstored, rfl⟩
    obtain ⟨c, rest, rfl, -⟩ := Node.exists_of_mem_words hstored
    have hfound := (hordered.contains_iff c rest).mpr ⟨_, hstored, ReflCmp.compare_self⟩
    exact ⟨by simp [WordOrder.key], (contains_marked_ofWords order added c rest).mp hfound⟩

/-- A tree has one node for each beginning of the words that were added. -/
theorem nodeCount_ofWords (order : WordOrder) (added : List Word) :
    (ofWords order added).nodeCount = (beginnings order added).ncard := by
  -- The words of the marked nodes ascend, so their keys are all different.
  have hnodup : ((ofWords order added).root.marked.words.map order.key).Nodup := by
    refine List.pairwise_map.mpr ((ordered_marked_ofWords order added).words_pairwise.imp ?_)
    intro a b hlt hkey
    simp [(order.compare_eq_eq_iff a b).mpr hkey] at hlt
  have hkeys : beginnings order added
      = {key | key ∈ (ofWords order added).root.marked.words.map order.key} := by
    ext start
    rw [mem_beginnings_iff]
    exact List.mem_map.symm
  rw [hkeys, ncard_mem_of_nodup hnodup, List.length_map, Node.length_words, Node.endCount_marked,
    nodeCount_eq_count]

end Tree

end Lexicon.Ternary
