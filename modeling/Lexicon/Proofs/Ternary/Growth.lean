import Lexicon.Proofs.SearchTree
import Lexicon.Proofs.Ternary.Insert

namespace Lexicon.Ternary.Node

open SearchTree Std

/-!
# How a search tree grows

A node parts the words that are added below it: those on either side of its character go to that
side, and those that go on behind it go on below.  With words that ascend, each of these is an
interval of all.

* `Grown` — a node to which the words at some indices were added one after the other.
* `Grown.parts` — its subtrees have grown from the words on their side.
* `AscendsBy.convex_beginsOn` — of words that ascend, those on a side are an interval.
* `sideHeight`, `Grown.sideHeight_le` — the most links to the sides on a way down, no more than in
  a search tree of the indices themselves.
* `Grown.height_le` — the other links on a way down go on from one character to the next.
-/

variable {order : WordOrder} {word : Nat → Word} {visited : List Nat}

/-! ### Words by their side of a node -/

/-- Whether a word begins on a side of a character. -/
def beginsOn (order : WordOrder) (char : Char) (side : Ordering) : Word → Bool
  | [] => false
  | c :: _ => order.compareChar c char == side

/-- Whether a word begins with a character and goes on behind it. -/
def goesOn (order : WordOrder) (char : Char) (word : Word) : Bool :=
  beginsOn order char .eq word && !word.tail.isEmpty

theorem beginsOn_eq_true_iff {char : Char} {side : Ordering} {word : Word} :
    beginsOn order char side word = true ↔
      ∃ c rest, word = c :: rest ∧ order.compareChar c char = side := by
  cases word <;> simp [beginsOn]

/-- A node to which the words at some indices were added one after the other. -/
inductive Grown (order : WordOrder) (word : Nat → Word) : List Nat → Node → Prop where
  /-- No words make no node. -/
  | leaf : Grown order word [] leaf
  /-- One more word is added. -/
  | insert {visited : List Nat} {node : Node} {index : Nat} {c : Char} {rest : List Char}
      (h : Grown order word visited node) (hword : word index = c :: rest) (id : Nat) :
      Grown order word (visited ++ [index]) (node.insert order id c rest)

/-- The words that a node and its subtrees have grown from. -/
def Parted (order : WordOrder) (word : Nat → Word) (visited : List Nat) : Node → Prop
  | .leaf => visited = []
  | .branch _ char _ lo eq hi =>
    (∃ first later rest, visited = first :: later ∧ word first = char :: rest) ∧
      Grown order word (visited.filter fun i => beginsOn order char .lt (word i)) lo ∧
      Grown order (fun i => (word i).tail) (visited.filter fun i => goesOn order char (word i)) eq ∧
      Grown order word (visited.filter fun i => beginsOn order char .gt (word i)) hi

theorem filter_goesOn (order : WordOrder) (char : Char) (word : Nat → Word) (visited : List Nat) :
    (visited.filter fun i => goesOn order char (word i))
      = (visited.filter fun i => beginsOn order char .eq (word i)).filter
          fun i => !(word i).tail.isEmpty := by
  rw [List.filter_filter]
  exact List.filter_congr fun i _ => Bool.and_comm _ _

theorem filter_concat (p : Nat → Bool) (visited : List Nat) (index : Nat) :
    (visited ++ [index]).filter p
      = if p index then visited.filter p ++ [index] else visited.filter p := by
  rw [List.filter_append, List.filter_singleton]
  cases p index <;> simp

/-- A node keeps parting the words when one more is added. -/
theorem Parted.insert {node : Node} (h : Parted order word visited node) {index : Nat} {c : Char}
    {rest : List Char} (hword : word index = c :: rest) (id : Nat) :
    Parted order word (visited ++ [index]) (node.insert order id c rest) := by
  have hbegins : ∀ char side,
      beginsOn order char side (word index) = (order.compareChar c char == side) := by
    intro char side
    rw [hword, beginsOn]
  have hgoes : ∀ char, goesOn order char (word index)
      = (order.compareChar c char == .eq && !rest.isEmpty) := by
    intro char
    rw [goesOn, hbegins, hword, List.tail_cons]
  have htail : (fun i => (word i).tail) index = rest := by
    show (word index).tail = rest
    rw [hword, List.tail_cons]
  cases node with
  | leaf =>
    obtain rfl : visited = [] := h
    have hself : order.compareChar c c = .eq := ReflCmp.compare_self
    -- The word makes a spine, of which all but the first node is below it.
    cases rest with
    | nil =>
      simp only [Node.insert, spine, Parted, filter_concat, hbegins, hgoes, hself, List.filter_nil]
      exact ⟨⟨index, [], [], rfl, hword⟩, .leaf, .leaf, .leaf⟩
    | cons d rest =>
      simp only [Node.insert, spine, Parted, filter_concat, hbegins, hgoes, hself, List.filter_nil]
      exact ⟨⟨index, [], d :: rest, rfl, hword⟩, .leaf, .insert .leaf htail (id + 1), .leaf⟩
  | branch own char isEnd lo eq hi =>
    obtain ⟨⟨first, later, rest', rfl, hfirst⟩, hlo, heq, hhi⟩ := h
    have hhead : ∃ first' later' rest'', first :: later ++ [index] = first' :: later' ∧
        word first' = char :: rest'' := ⟨first, later ++ [index], rest', rfl, hfirst⟩
    unfold Node.insert
    cases hside : order.compareChar c char with
    | lt =>
      simp only [Parted, filter_concat, hbegins, hgoes, hside]
      exact ⟨hhead, .insert hlo hword id, heq, hhi⟩
    | gt =>
      simp only [Parted, filter_concat, hbegins, hgoes, hside]
      exact ⟨hhead, hlo, heq, .insert hhi hword id⟩
    | eq =>
      cases rest with
      | nil =>
        simp only [Parted, filter_concat, hbegins, hgoes, hside]
        exact ⟨hhead, hlo, heq, hhi⟩
      | cons d rest =>
        simp only [Parted, filter_concat, hbegins, hgoes, hside]
        exact ⟨hhead, hlo, .insert heq htail id, hhi⟩

/-- Each subtree has grown from the words on its side. -/
theorem Grown.parts {node : Node} (h : Grown order word visited node) :
    Parted order word visited node := by
  induction h with
  | leaf => rfl
  | insert _ hword id ih => exact ih.insert hword id

/-! ### Words that ascend -/

/-- Words of which none comes before one of a lesser index. -/
def AscendsBy (order : WordOrder) (word : Nat → Word) (visited : List Nat) : Prop :=
  ∀ i ∈ visited, ∀ j ∈ visited, i ≤ j → order.compare (word i) (word j) ≠ .gt

theorem AscendsBy.filter (h : AscendsBy order word visited) (p : Nat → Bool) :
    AscendsBy order word (visited.filter p) :=
  fun i hi j hj => h i (List.mem_of_mem_filter hi) j (List.mem_of_mem_filter hj)

/-- A word that is no lesser than another begins with no lesser character. -/
theorem exists_cons_of_ne_gt {c : Char} {a b : Word} (h : order.compare (c :: a) b ≠ .gt) :
    ∃ d rest, b = d :: rest ∧ (order.compareChar c d).isLE := by
  cases b with
  | nil => exact absurd (WordOrder.compare_cons_nil order c a) h
  | cons d rest =>
    refine ⟨d, rest, rfl, Ordering.ne_gt_iff_isLE.mp fun hgt => h ?_⟩
    rw [WordOrder.compare_cons_cons, hgt]
    rfl

/-- Of two words that begin with characters, the one of the lesser index begins with no greater
    one. -/
theorem AscendsBy.exists_heads (h : AscendsBy order word visited) {i j : Nat} (hi : i ∈ visited)
    (hj : j ∈ visited) (hij : i ≤ j) {char : Char} {side side' : Ordering}
    (hside : beginsOn order char side (word i) = true)
    (hside' : beginsOn order char side' (word j) = true) :
    ∃ c d, (order.compareChar c d).isLE ∧ order.compareChar c char = side ∧
      order.compareChar d char = side' := by
  obtain ⟨c, a, hwi, hc⟩ := beginsOn_eq_true_iff.mp hside
  obtain ⟨d, b, hwj, hd⟩ := beginsOn_eq_true_iff.mp hside'
  have hle := h i hi j hj hij
  rw [hwi, hwj] at hle
  obtain ⟨d', b', hcons, hcd⟩ := exists_cons_of_ne_gt hle
  obtain ⟨rfl, rfl⟩ := List.cons.inj hcons
  exact ⟨c, d, hcd, hc, hd⟩

/-- What is between two characters on one side of a third is on that side too. -/
theorem side_between {c d e char : Char} {side : Ordering} (hcd : (order.compareChar c d).isLE)
    (hde : (order.compareChar d e).isLE) (hc : order.compareChar c char = side)
    (he : order.compareChar e char = side) : order.compareChar d char = side := by
  cases side with
  | lt => exact TransCmp.lt_of_isLE_of_lt hde he
  | gt => exact OrientedCmp.gt_of_lt (TransCmp.lt_of_lt_of_isLE (OrientedCmp.lt_of_gt hc) hcd)
  | eq =>
    have hle := TransCmp.isLE_trans hde (Ordering.isLE_of_eq_eq he)
    have hge := TransCmp.isLE_trans (Ordering.isLE_of_eq_eq (OrientedCmp.eq_symm hc)) hcd
    exact OrientedCmp.isLE_antisymm hle hge

/-- The words on a side of a character are an interval. -/
theorem AscendsBy.convex_beginsOn (h : AscendsBy order word visited) (char : Char)
    (side : Ordering) : Convex visited fun i => beginsOn order char side (word i) := by
  intro i hi j hj k hk hij hjk hpi hpk
  obtain ⟨c, a, hwi, hc⟩ := beginsOn_eq_true_iff.mp hpi
  obtain ⟨e, b, hwk, he⟩ := beginsOn_eq_true_iff.mp hpk
  have hle := h i hi j hj hij
  rw [hwi] at hle
  obtain ⟨d, rest, hwj, hcd⟩ := exists_cons_of_ne_gt hle
  have hle' := h j hj k hk hjk
  rw [hwj, hwk] at hle'
  obtain ⟨e', b', hcons, hde⟩ := exists_cons_of_ne_gt hle'
  obtain ⟨rfl, rfl⟩ := List.cons.inj hcons
  exact beginsOn_eq_true_iff.mpr ⟨d, rest, hwj, side_between hcd hde hc he⟩

/-- Of two words that begin with a character, the rests compare as the words. -/
theorem AscendsBy.tails (h : AscendsBy order word visited) (char : Char) :
    AscendsBy order (fun i => (word i).tail)
      (visited.filter fun i => beginsOn order char .eq (word i)) := by
  intro i hi j hj hij
  obtain ⟨hi, hpi⟩ := List.mem_filter.mp hi
  obtain ⟨hj, hpj⟩ := List.mem_filter.mp hj
  obtain ⟨c, a, hwi, hc⟩ := beginsOn_eq_true_iff.mp hpi
  obtain ⟨d, b, hwj, hd⟩ := beginsOn_eq_true_iff.mp hpj
  have hle := h i hi j hj hij
  rw [hwi, hwj, compare_of_same hc hd] at hle
  show order.compare (word i).tail (word j).tail ≠ .gt
  rwa [hwi, hwj]

/-- Only the first of words that ascend are empty. -/
theorem AscendsBy.convex_nonempty (h : AscendsBy order word visited) :
    Convex visited fun i => !(word i).isEmpty := by
  intro i hi j hj k hk hij _ hpi _
  cases hwi : word i with
  | nil => simp [hwi] at hpi
  | cons c a =>
    have hle := h i hi j hj hij
    rw [hwi] at hle
    obtain ⟨d, rest, hwj, -⟩ := exists_cons_of_ne_gt hle
    simp [hwj]

/-! ### Links to the sides -/

/-- Number of nodes on the way down with the most links to the sides, where those that go on from
    one character to the next count for none. -/
def sideHeight : Node → Nat
  | .leaf => 0
  | .branch _ _ _ lo eq hi => max (lo.sideHeight + 1) (max eq.sideHeight (hi.sideHeight + 1))

/-- A node has no more links to the sides on its ways down than a search tree of the indices of
    its words has nodes. -/
theorem Grown.sideHeight_le {node : Node} (h : Grown order word visited node)
    (hasc : AscendsBy order word visited) : node.sideHeight ≤ (ofKeys visited).height := by
  induction node generalizing word visited with
  | leaf => exact Nat.zero_le _
  | branch id char isEnd lo eq hi ihlo iheq ihhi =>
    obtain ⟨⟨first, later, rest, rfl, hfirst⟩, hlo, heq, hhi⟩ := h.parts
    have hself : order.compareChar char char = .eq := ReflCmp.compare_self
    have hown : beginsOn order char .eq (word first) = true :=
      beginsOn_eq_true_iff.mpr ⟨char, rest, hfirst, hself⟩
    have hlater : later ⊆ first :: later := List.subset_cons_self _ _
    -- Below, the words are an interval of those that begin with the character.
    have hbelow : eq.sideHeight ≤ (ofKeys (first :: later)).height := by
      have htails := hasc.tails char
      rw [filter_goesOn] at heq
      exact (iheq heq (htails.filter _)).trans ((height_filter_le htails.convex_nonempty).trans
        (height_filter_le (hasc.convex_beginsOn char .eq)))
    -- To the sides, the words come before and after the first one, and so do their indices.
    have hbefore : lo.sideHeight ≤ (ofKeys (later.filter (· < first))).height := by
      have hgrown := ihlo hlo (hasc.filter _)
      rw [List.filter_cons_of_neg (by simp [hfirst, beginsOn, hself])] at hgrown
      refine hgrown.trans (height_filter_le_filter ((hasc.convex_beginsOn char .lt).mono hlater) ?_)
      intro i hi hside
      rw [decide_eq_true_eq]
      by_contra hle
      obtain ⟨c, d, hcd, hc, hd⟩ :=
        hasc.exists_heads List.mem_cons_self (hlater hi) (Nat.not_lt.mp hle) hown hside
      simp [TransCmp.lt_of_isLE_of_lt hcd hd] at hc
    have hafter : hi.sideHeight ≤ (ofKeys (later.filter (first ≤ ·))).height := by
      have hgrown := ihhi hhi (hasc.filter _)
      rw [List.filter_cons_of_neg (by simp [hfirst, beginsOn, hself])] at hgrown
      refine hgrown.trans (height_filter_le_filter ((hasc.convex_beginsOn char .gt).mono hlater) ?_)
      intro i hi hside
      rw [decide_eq_true_eq]
      by_contra hlt
      obtain ⟨c, d, hcd, hc, hd⟩ :=
        hasc.exists_heads (hlater hi) List.mem_cons_self (Nat.not_le.mp hlt).le hside hown
      have hle := TransCmp.isLE_trans hcd (Ordering.isLE_of_eq_eq hd)
      simp [hc] at hle
    rw [ofKeys_cons, BinaryTree.height] at hbelow ⊢
    rw [sideHeight]
    omega

/-- Whether a link leads to a side. -/
def Link.isSide : Link → Bool
  | .eq => false
  | .lo | .hi => true

theorem follow_leaf (path : List Link) : follow leaf path = leaf := by
  induction path with
  | nil => rfl
  | cons link path ih =>
    cases link <;> exact ih

/-- A path to a node has fewer links to the sides than there are nodes on the way down with the
    most of them. -/
theorem countP_isSide_lt {node : Node} {path : List Link} (h : node.follow path ≠ leaf) :
    path.countP Link.isSide < node.sideHeight := by
  induction path generalizing node with
  | nil =>
    cases node with
    | leaf => exact absurd rfl h
    | branch id char isEnd lo eq hi =>
      rw [List.countP_nil, sideHeight]
      omega
  | cons link path ih =>
    cases node with
    | leaf => exact absurd (follow_leaf _) h
    | branch id char isEnd lo eq hi =>
      rw [sideHeight]
      cases link with
      | lo =>
        have hlt : path.countP Link.isSide < lo.sideHeight := ih h
        rw [List.countP_cons_of_pos rfl]
        omega
      | eq =>
        have hlt : path.countP Link.isSide < eq.sideHeight := ih h
        rw [List.countP_cons_of_neg Bool.false_ne_true]
        omega
      | hi =>
        have hlt : path.countP Link.isSide < hi.sideHeight := ih h
        rw [List.countP_cons_of_pos rfl]
        omega

/-! ### Height -/

/-- A way down has no more links that go on than the longest word has characters behind the
    first. -/
theorem Grown.height_le {node : Node} (h : Grown order word visited node) {longest : Nat}
    (hlength : ∀ i ∈ visited, (word i).length ≤ longest) :
    node.height ≤ longest + node.sideHeight - 1 := by
  induction node generalizing word visited longest with
  | leaf => exact Nat.zero_le _
  | branch id char isEnd lo eq hi ihlo iheq ihhi =>
    obtain ⟨⟨first, later, rest, rfl, hfirst⟩, hlo, heq, hhi⟩ := h.parts
    have hlongest := hlength first List.mem_cons_self
    rw [hfirst, List.length_cons] at hlongest
    have hlo := ihlo hlo fun i hi => hlength i (List.mem_of_mem_filter hi)
    have hhi := ihhi hhi fun i hi => hlength i (List.mem_of_mem_filter hi)
    have heq : eq.height ≤ longest - 1 + eq.sideHeight - 1 := by
      refine iheq heq fun i hi => ?_
      rw [List.length_tail]
      exact Nat.sub_le_sub_right (hlength i (List.mem_of_mem_filter hi)) 1
    rw [height, sideHeight]
    omega

end Lexicon.Ternary.Node
