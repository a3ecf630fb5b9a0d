import Lexicon.Proofs.Ternary.Tree

namespace Lexicon.Ternary

open Std

/-!
# The way of a query down a search tree

A node has the character of the word that made it, and words share the nodes of the beginning that
they have in common.  So the nodes that a query comes to tell which words agree with it, and where
they cease to.

* `agree`, `agreeing` — words that agree in their first places, and the beginning in which they do.
* `Node.trail`, `Node.trail_insert` — the characters that a query meets on its way down, and which
  of them a word adds.
* `Tree.getElem?_trail_ofWords` — each is that of the first word that agrees with the query so far.
-/

variable {order : WordOrder}

/-- Whether two words are equal in their first places. -/
def agree (order : WordOrder) (places : Nat) (a b : Word) : Bool :=
  order.key (a.take places) == order.key (b.take places)

/-! ### Words that agree -/

/-- The beginning of a word as far as it agrees with another one. -/
def agreeing (order : WordOrder) : Word → Word → Word
  | c :: word, d :: query =>
    if order.compareChar c d == .eq then c :: agreeing order word query else []
  | _, _ => []

@[simp] theorem agreeing_nil (order : WordOrder) (word : Word) : agreeing order word [] = [] := by
  cases word <;> rfl

theorem agreeing_of_eq {c d : Char} (h : order.compareChar c d = .eq) (word query : Word) :
    agreeing order (c :: word) (d :: query) = c :: agreeing order word query := by
  rw [agreeing, if_pos (beq_iff_eq.mpr h)]

theorem agreeing_of_ne {c d : Char} (h : order.compareChar c d ≠ .eq) (word query : Word) :
    agreeing order (c :: word) (d :: query) = [] := by
  rw [agreeing, if_neg (mt beq_iff_eq.mp h)]

theorem agree_succ_cons_cons (order : WordOrder) (places : Nat) (c d : Char) (a b : Word) :
    agree order (places + 1) (c :: a) (d :: b)
      = (order.compareChar c d == .eq && agree order places a b) := by
  rw [Bool.eq_iff_iff, Bool.and_eq_true, beq_iff_eq, order.compareChar_eq_eq_iff]
  simp [agree, WordOrder.key]

/-- Words agree up to a place if the beginning in which they agree reaches it. -/
theorem getElem?_agreeing (order : WordOrder) (word query : Word) (place : Nat) :
    (agreeing order word query)[place]?
      = if agree order (place + 1) word query then word[place]? else none := by
  induction word generalizing query place with
  | nil => simp [agreeing]
  | cons c word ih =>
    cases query with
    | nil => simp [agree, WordOrder.key]
    | cons d query =>
      rw [agree_succ_cons_cons]
      by_cases h : order.compareChar c d = .eq
      · rw [agreeing_of_eq h, beq_iff_eq.mpr h, Bool.true_and]
        cases place with
        | zero => simp [agree]
        | succ place => simpa using ih query place
      · rw [agreeing_of_ne h, beq_eq_false_iff_ne.mpr h, Bool.false_and]
        rfl

/-- A word that agrees with another one up to a place of it has a character there. -/
theorem isSome_getElem?_of_agree {place : Nat} {a b : Word} (h : agree order (place + 1) a b = true)
    (hplace : place < b.length) : (a[place]?).isSome := by
  have hlength := congrArg List.length (beq_iff_eq.mp h)
  simp only [WordOrder.key, List.length_map, List.length_take] at hlength
  rw [List.getElem?_eq_getElem (by omega)]
  rfl

/-! ### The way down -/

/-- Characters, and others behind them where these have more. -/
def extend (chars others : Word) : Word :=
  chars ++ others.drop chars.length

theorem getElem?_extend (chars others : Word) (place : Nat) :
    (extend chars others)[place]? = (chars[place]?).or others[place]? := by
  unfold extend
  by_cases h : place < chars.length
  · rw [List.getElem?_append_left h, List.getElem?_eq_getElem h]
    rfl
  · have hle := Nat.not_lt.mp h
    rw [List.getElem?_append_right hle, List.getElem?_eq_none hle, List.getElem?_drop,
      Nat.add_sub_cancel' hle]
    rfl

@[simp] theorem extend_nil (chars : Word) : extend chars [] = chars := by
  simp [extend]

theorem extend_cons_cons (c d : Char) (chars others : Word) :
    extend (c :: chars) (d :: others) = c :: extend chars others := by
  simp [extend]

namespace Node

/-- Characters of the nodes that a query comes to and equals, as far as there are any. -/
def trail (order : WordOrder) : Node → Char → List Char → Word
  | leaf, _, _ => []
  | branch _ char _ lo eq hi, c, rest =>
    match order.compareChar c char with
    | .lt => lo.trail order c rest
    | .gt => hi.trail order c rest
    | .eq =>
      match rest with
      | [] => [char]
      | d :: rest => char :: eq.trail order d rest

/-- Characters on different sides of a third are not equal. -/
theorem compareChar_ne_eq_of_sides {c d char : Char}
    (h : order.compareChar c char ≠ order.compareChar d char) : order.compareChar c d ≠ .eq :=
  fun heq => h (TransCmp.congr_left heq)

/-- In a spine, a query meets the beginning in which it agrees with the word. -/
theorem trail_spine (order : WordOrder) (id : Nat) (c : Char) (rest : List Char) (d : Char)
    (query : List Char) :
    (spine id c rest).trail order d query = agreeing order (c :: rest) (d :: query) := by
  induction rest generalizing id c d query with
  | nil =>
    by_cases hd : order.compareChar d c = .eq
    · rw [agreeing_of_eq (OrientedCmp.eq_symm hd)]
      cases query <;> simp [spine, trail, hd, agreeing]
    · rw [agreeing_of_ne fun hc => hd (OrientedCmp.eq_symm hc)]
      cases hside : order.compareChar d c <;> simp_all [spine, trail]
  | cons e rest ih =>
    by_cases hd : order.compareChar d c = .eq
    · rw [agreeing_of_eq (OrientedCmp.eq_symm hd)]
      cases query with
      | nil => simp [spine, trail, hd]
      | cons d' query => simp [spine, trail, hd, ih]
    · rw [agreeing_of_ne fun hc => hd (OrientedCmp.eq_symm hc)]
      cases hside : order.compareChar d c <;> simp_all [spine, trail]

/-- A word that is added goes on where the nodes that a query meets end, as far as it agrees with
    the query. -/
theorem trail_insert (order : WordOrder) (id : Nat) (node : Node) (c : Char) (rest : List Char)
    (d : Char) (query : List Char) :
    (node.insert order id c rest).trail order d query
      = extend (node.trail order d query) (agreeing order (c :: rest) (d :: query)) := by
  fun_induction insert order id node c rest generalizing d query with
  | case1 c rest => simp [trail_spine, trail, extend]
  | case2 own char isEnd lo eq hi c rest hside ih =>
    by_cases hd : order.compareChar d char = .lt
    · simp only [trail, hd, ih]
    · have hne := compareChar_ne_eq_of_sides fun h => hd (h.symm.trans hside)
      rw [agreeing_of_ne hne, extend_nil]
      cases hother : order.compareChar d char <;> simp_all [trail]
  | case3 own char isEnd lo eq hi c rest hside ih =>
    by_cases hd : order.compareChar d char = .gt
    · simp only [trail, hd, ih]
    · have hne := compareChar_ne_eq_of_sides fun h => hd (h.symm.trans hside)
      rw [agreeing_of_ne hne, extend_nil]
      cases hother : order.compareChar d char <;> simp_all [trail]
  | case4 own char isEnd lo eq hi c hside =>
    by_cases hd : order.compareChar d char = .eq
    · -- The word has no character behind those that are there.
      rw [agreeing_of_eq (TransCmp.eq_trans hside (OrientedCmp.eq_symm hd))]
      cases query <;> simp [trail, hd, agreeing, extend_cons_cons]
    · have hne := compareChar_ne_eq_of_sides fun h => hd (h.symm.trans hside)
      rw [agreeing_of_ne hne, extend_nil]
      cases hother : order.compareChar d char <;> simp_all [trail]
  | case5 own char isEnd lo eq hi c hside e rest ih =>
    by_cases hd : order.compareChar d char = .eq
    · rw [agreeing_of_eq (TransCmp.eq_trans hside (OrientedCmp.eq_symm hd))]
      cases query with
      | nil => simp [trail, hd, extend_cons_cons]
      | cons d' query => simp only [trail, hd, extend_cons_cons, ih]
    · have hne := compareChar_ne_eq_of_sides fun h => hd (h.symm.trans hside)
      rw [agreeing_of_ne hne, extend_nil]
      cases hother : order.compareChar d char <;> simp_all [trail]

/-- A listed word consists of the characters that an equal query meets. -/
theorem Ordered.eq_trail {node : Node} (h : node.Ordered order) {word : Word}
    (hword : word ∈ node.words) {c : Char} {rest : List Char}
    (heq : order.compare word (c :: rest) = .eq) : word = node.trail order c rest := by
  induction node generalizing word c rest with
  | leaf => simp [words] at hword
  | branch id char isEnd lo eq hi ihlo iheq ihhi =>
    obtain ⟨hlo, hhi, hloOrdered, heqOrdered, hhiOrdered⟩ := h
    have hself : order.compareChar char char = .eq := ReflCmp.compare_self
    rcases mem_words_branch.mp hword with hword | ⟨-, rfl⟩ | ⟨word, hbelow, rfl⟩ | hword
    · obtain ⟨d, rest', rfl, hd⟩ := exists_of_mem_words hword
      simp only [trail, (side_of_compare_eq heq char).symm.trans (hlo d hd)]
      exact ihlo hloOrdered hword heq
    · have hside := (side_of_compare_eq heq char).symm.trans hself
      rw [compare_of_same hself hside] at heq
      cases rest with
      | nil => simp [trail, hside]
      | cons d rest => simp at heq
    · have hside := (side_of_compare_eq heq char).symm.trans hself
      rw [compare_of_same hself hside] at heq
      cases rest with
      | nil =>
        obtain ⟨d, rest, rfl, -⟩ := exists_of_mem_words hbelow
        simp at heq
      | cons d rest =>
        simp only [trail, hside]
        exact congrArg (char :: ·) (iheq heqOrdered hbelow heq)
    · obtain ⟨d, rest', rfl, hd⟩ := exists_of_mem_words hword
      simp only [trail, (side_of_compare_eq heq char).symm.trans (hhi d hd)]
      exact ihhi hhiOrdered hword heq

end Node

namespace Tree

/-- Characters of the nodes that a query comes to and equals. -/
def trail (tree : Tree) : Word → Word
  | [] => []
  | c :: rest => tree.root.trail tree.order c rest

theorem trail_insert (tree : Tree) (word query : Word) :
    (tree.insert word).trail query
      = extend (tree.trail query) (agreeing tree.order word query) := by
  cases query with
  | nil => simp [trail]
  | cons d query =>
    cases word with
    | nil => simp [trail, Tree.insert, agreeing]
    | cons c rest => exact Node.trail_insert _ _ _ _ _ _ _

/-- A listed word consists of the characters that an equal query meets. -/
theorem Sound.eq_trail {tree : Tree} (h : tree.Sound) {word query : Word}
    (hword : word ∈ tree.words) (heq : tree.order.compare word query = .eq) :
    word = tree.trail query := by
  rcases mem_words_iff.mp hword with ⟨-, rfl⟩ | hword
  · cases query with
    | nil => rfl
    | cons d query => simp at heq
  · cases query with
    | nil =>
      obtain ⟨c, rest, rfl, -⟩ := Node.exists_of_mem_words hword
      simp at heq
    | cons d query => exact h.ordered.eq_trail hword heq

/-- The first of some words that agrees with a query agrees with it. -/
theorem agree_of_find? {added : List Word} {query first : Word} {places : Nat}
    (h : added.find? (agree order places · query) = some first) :
    agree order places first query = true := by
  simpa using List.find?_some h

/-- At each place a query meets the character of the first word that agrees with it up to there. -/
theorem getElem?_trail_ofWords (order : WordOrder) (added : List Word) {query : Word} {place : Nat}
    (hplace : place < query.length) :
    ((ofWords order added).trail query)[place]?
      = (added.find? (agree order (place + 1) · query)).bind (·[place]?) := by
  induction added using List.reverseRecOn with
  | nil => cases query <;> rfl
  | append_singleton added word ih =>
    rw [ofWords_concat, trail_insert, order_ofWords, getElem?_extend, ih, getElem?_agreeing,
      List.find?_append]
    cases hfirst : added.find? (agree order (place + 1) · query) with
    | none =>
      by_cases h : agree order (place + 1) word query = true <;> simp [h]
    | some first =>
      -- The first word that agrees has a character at the place, which later ones do not change.
      obtain ⟨c, hc⟩ :=
        Option.isSome_iff_exists.mp (isSome_getElem?_of_agree (agree_of_find? hfirst) hplace)
      simp [hc]

end Tree

end Lexicon.Ternary
