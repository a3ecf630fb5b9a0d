import Lexicon.Proofs.Ternary.Numbers

namespace Lexicon.Ternary

/-!
# What a new word leaves as it is

Adding a word takes nothing away from a tree.  The nodes stay where they are, and so do the ends of
words; the word makes nodes only where there are none, and ends at one place.

* `Node.Extends`, `Node.extends_insert` — nodes that others were added to.
* `Node.landing`, `Node.endsHere_follow_insert` — links to the place where a word ends, which is the
  only one that it marks.
* `Node.exists_end_insert`, `Tree.exists_end_insert` — so it is with the numbers of the nodes.
* `Tree.extends_insert`, `Tree.nodeCount_insert_le` — so it is for trees.
* `Node.insert_of_contains`, `Tree.insert_of_contains` — a word that is there already changes
  nothing.
-/

variable {order : WordOrder}

namespace Node

/-! ### Nodes that stay -/

/-- Nodes that others were added to.  Each is at the end of the same path, with its number and its
    character, and a word still ends there if one did. -/
inductive Extends : Node → Node → Prop where
  /-- Any nodes may be where there were none. -/
  | leaf (after : Node) : Extends leaf after
  /-- A node stays, whatever is added below and beside it. -/
  | branch {id : Nat} {char : Char} {isEnd isEnd' : Bool} {lo eq hi lo' eq' hi' : Node}
      (hend : isEnd = true → isEnd' = true) (hlo : Extends lo lo') (heq : Extends eq eq')
      (hhi : Extends hi hi') :
      Extends (branch id char isEnd lo eq hi) (branch id char isEnd' lo' eq' hi')

theorem Extends.refl (node : Node) : node.Extends node := by
  induction node with
  | leaf => exact .leaf _
  | branch own char isEnd lo eq hi ihlo iheq ihhi => exact .branch id ihlo iheq ihhi

/-- Adding a word adds to the nodes that are there. -/
theorem extends_insert (order : WordOrder) (next : Nat) (node : Node) (c : Char)
    (rest : List Char) : node.Extends (node.insert order next c rest) := by
  fun_induction insert order next node c rest with
  | case1 => exact .leaf _
  | case2 own char isEnd lo eq hi c rest hside ih => exact .branch id ih (.refl _) (.refl _)
  | case3 own char isEnd lo eq hi c rest hside ih => exact .branch id (.refl _) (.refl _) ih
  | case4 => exact .branch (fun _ => rfl) (.refl _) (.refl _) (.refl _)
  | case5 own char isEnd lo eq hi c hside d rest ih => exact .branch id (.refl _) ih (.refl _)

variable {before after : Node}

theorem Extends.child (h : before.Extends after) (link : Link) :
    (before.child link).Extends (after.child link) := by
  cases h with
  | leaf after =>
    rw [child_leaf]
    exact .leaf _
  | branch hend hlo heq hhi =>
    cases link with
    | lo => exact hlo
    | eq => exact heq
    | hi => exact hhi

theorem Extends.follow (h : before.Extends after) (path : List Link) :
    (before.follow path).Extends (after.follow path) := by
  induction path generalizing before after with
  | nil => exact h
  | cons link path ih => exact ih (h.child link)

/-- A node keeps its number. -/
theorem Extends.id?_eq (h : before.Extends after) {id : Nat} (hid : before.id? = some id) :
    after.id? = some id := by
  cases h with
  | leaf after => simp [id?] at hid
  | branch hend hlo heq hhi => exact hid

/-! ### The end of a word -/

/-- Whether a word ends at the topmost node. -/
def endsHere : Node → Bool
  | leaf => false
  | branch _ _ isEnd _ _ _ => isEnd

@[simp] theorem endsHere_leaf : leaf.endsHere = false := rfl

@[simp] theorem endsHere_branch (id : Nat) (char : Char) (isEnd : Bool) (lo eq hi : Node) :
    (branch id char isEnd lo eq hi).endsHere = isEnd := rfl

/-- There is a node where a word ends. -/
theorem exists_id?_of_endsHere {node : Node} (h : node.endsHere = true) :
    ∃ id, node.id? = some id := by
  cases node with
  | leaf => simp at h
  | branch id char isEnd lo eq hi => exact ⟨id, rfl⟩

/-- Links to the node where a word ends, once it was added. -/
def landing (order : WordOrder) : Node → Char → List Char → List Link
  | leaf, _, rest => List.replicate rest.length .eq
  | branch _ char _ lo eq hi, c, rest =>
    match order.compareChar c char with
    | .lt => .lo :: lo.landing order c rest
    | .gt => .hi :: hi.landing order c rest
    | .eq =>
      match rest with
      | [] => []
      | d :: rest => .eq :: eq.landing order d rest

/-- A word is found if one ends at its place. -/
theorem contains_eq_endsHere (order : WordOrder) (node : Node) (c : Char) (rest : List Char) :
    node.contains order c rest = (node.follow (node.landing order c rest)).endsHere := by
  fun_induction contains order node c rest with
  | case1 => rw [follow_leaf, endsHere]
  | case2 own char isEnd lo eq hi c rest hside ih =>
    simpa only [landing, hside, follow_cons, child] using ih
  | case3 own char isEnd lo eq hi c rest hside ih =>
    simpa only [landing, hside, follow_cons, child] using ih
  | case4 own char isEnd lo eq hi c hside =>
    simp only [landing, hside]
    rfl
  | case5 own char isEnd lo eq hi c hside d rest ih =>
    simpa only [landing, hside, follow_cons, child] using ih

/-- In a spine, a word ends at the last node. -/
theorem endsHere_follow_spine (id : Nat) (c : Char) (rest : List Char) (path : List Link) :
    ((spine id c rest).follow path).endsHere = true ↔
      path = List.replicate rest.length .eq := by
  induction rest generalizing id c path with
  | nil =>
    cases path with
    | nil => simp [spine, follow]
    | cons link path => cases link <;> simp [spine, follow_cons, child, follow_leaf]
  | cons d rest ih =>
    cases path with
    | nil => simp [spine, follow]
    | cons link path =>
      cases link <;> simp [spine, follow_cons, child, follow_leaf, List.replicate_succ, ih]

/-- After a word was added, one ends at its place, and wherever one ended before. -/
theorem endsHere_follow_insert (order : WordOrder) (id : Nat) (node : Node) (c : Char)
    (rest : List Char) (path : List Link) :
    ((node.insert order id c rest).follow path).endsHere = true ↔
      (node.follow path).endsHere = true ∨ path = node.landing order c rest := by
  -- A path that parts from the way of the word never comes to the change.
  fun_induction insert order id node c rest generalizing path with
  | case1 c rest => simp [endsHere_follow_spine, follow_leaf, landing]
  | case2 own char isEnd lo eq hi c rest hside ih =>
    simp only [landing, hside]
    cases path with
    | nil => simp [follow]
    | cons link path => cases link <;> simp [follow_cons, child, ih]
  | case3 own char isEnd lo eq hi c rest hside ih =>
    simp only [landing, hside]
    cases path with
    | nil => simp [follow]
    | cons link path => cases link <;> simp [follow_cons, child, ih]
  | case4 own char isEnd lo eq hi c hside =>
    simp only [landing, hside]
    cases path with
    | nil => simp [follow]
    | cons link path => cases link <;> simp [follow_cons, child]
  | case5 own char isEnd lo eq hi c hside d rest ih =>
    simp only [landing, hside]
    cases path with
    | nil => simp [follow]
    | cons link path => cases link <;> simp [follow_cons, child, ih]

/-- Whether a word ends at the node with a number. -/
def EndsAt (node : Node) (id : Nat) : Prop :=
  ∃ path, (node.follow path).id? = some id ∧ (node.follow path).endsHere = true

/-- Words end where they did, and at one node more, unless the word was there. -/
theorem exists_end_insert {node : Node} {next : Nat} {c : Char} {rest : List Char}
    (hnodup : (node.insert order next c rest).ids.Nodup) :
    ∃ last, (node.EndsAt last ↔ node.contains order c rest = true) ∧
      ∀ id, (node.insert order next c rest).EndsAt id ↔ node.EndsAt id ∨ id = last := by
  -- Places are known by paths so far.  Nodes keep their numbers, and a number is that of one path.
  have hkept := (extends_insert order next node c rest).follow
  have hends := endsHere_follow_insert order next node c rest
  obtain ⟨last, hlast⟩ := exists_id?_of_endsHere ((hends _).mpr (.inr rfl))
  refine ⟨last, ?_, fun id => ?_⟩
  · rw [contains_eq_endsHere]
    constructor
    · rintro ⟨path, hid, hend⟩
      rwa [path_unique hnodup hlast ((hkept path).id?_eq hid)]
    · intro hend
      obtain ⟨id, hid⟩ := exists_id?_of_endsHere hend
      obtain rfl := Option.some.inj (hlast.symm.trans ((hkept _).id?_eq hid))
      exact ⟨_, hid, hend⟩
  · constructor
    · rintro ⟨path, hid, hend⟩
      rcases (hends path).mp hend with hend | rfl
      · -- Where a word ended before, there was a node before, of the same number.
        obtain ⟨own, hown⟩ := exists_id?_of_endsHere hend
        obtain rfl := Option.some.inj (hid.symm.trans ((hkept path).id?_eq hown))
        exact .inl ⟨path, hown, hend⟩
      · exact .inr (Option.some.inj (hid.symm.trans hlast))
    · rintro (⟨path, hid, hend⟩ | rfl)
      · exact ⟨path, (hkept path).id?_eq hid, (hends path).mpr (.inl hend)⟩
      · exact ⟨_, hlast, (hends _).mpr (.inr rfl)⟩

/-! ### Words that are there -/

/-- A word makes no more nodes than it has characters. -/
theorem missing_le (order : WordOrder) (node : Node) (c : Char) (rest : List Char) :
    node.missing order c rest ≤ rest.length + 1 := by
  fun_induction missing order node c rest with
  | case1 => exact Nat.le_refl _
  | case2 own char isEnd lo eq hi c rest hside ih => exact ih
  | case3 own char isEnd lo eq hi c rest hside ih => exact ih
  | case4 => exact Nat.zero_le _
  | case5 own char isEnd lo eq hi c hside d rest ih =>
    rw [List.length_cons]
    omega

/-- A word that is there makes no node. -/
theorem missing_of_contains {node : Node} {c : Char} {rest : List Char}
    (h : node.contains order c rest = true) : node.missing order c rest = 0 := by
  fun_induction contains order node c rest with
  | case1 => exact absurd h Bool.false_ne_true
  | case2 own char isEnd lo eq hi c rest hside ih => simpa only [missing, hside] using ih h
  | case3 own char isEnd lo eq hi c rest hside ih => simpa only [missing, hside] using ih h
  | case4 own char isEnd lo eq hi c hside => simp only [missing, hside]
  | case5 own char isEnd lo eq hi c hside d rest ih => simpa only [missing, hside] using ih h

/-- A word that is there changes no node. -/
theorem insert_of_contains {node : Node} {c : Char} {rest : List Char}
    (h : node.contains order c rest = true) (id : Nat) : node.insert order id c rest = node := by
  fun_induction contains order node c rest with
  | case1 => exact absurd h Bool.false_ne_true
  | case2 own char isEnd lo eq hi c rest hside ih => simp only [insert, hside, ih h]
  | case3 own char isEnd lo eq hi c rest hside ih => simp only [insert, hside, ih h]
  | case4 own char isEnd lo eq hi c hside => simp only [insert, hside, h]
  | case5 own char isEnd lo eq hi c hside d rest ih => simp only [insert, hside, ih h]

end Node

namespace Tree

/-- Adding a word adds to the nodes that are there. -/
theorem extends_insert (tree : Tree) (word : Word) : tree.root.Extends (tree.insert word).root := by
  cases word with
  | nil => exact .refl _
  | cons c rest => exact Node.extends_insert _ _ _ c rest

/-- A word makes no more nodes than it has characters. -/
theorem nodeCount_insert_le (tree : Tree) (word : Word) :
    (tree.insert word).nodeCount ≤ tree.nodeCount + word.length := by
  cases word with
  | nil => exact Nat.le_refl _
  | cons c rest => exact Nat.add_le_add_left (Node.missing_le _ _ c rest) _

/-- Whether a word ends at the node with a number, or without one, whether the empty word was
    added. -/
def EndsAt (tree : Tree) : Option Nat → Prop
  | none => tree.hasEmptyWord = true
  | some id => tree.root.EndsAt id

/-- Words end where they did, and at one place more, unless the word was there. -/
theorem exists_end_insert {tree : Tree} {word : Word} (hnodup : (tree.insert word).root.ids.Nodup) :
    ∃ place, (tree.EndsAt place ↔ tree.contains word = true) ∧
      ∀ other, (tree.insert word).EndsAt other ↔ tree.EndsAt other ∨ other = place := by
  cases word with
  | nil =>
    refine ⟨none, Iff.rfl, fun other => ?_⟩
    cases other <;> simp [EndsAt, insert]
  | cons c rest =>
    obtain ⟨last, hfound, hends⟩ := Node.exists_end_insert hnodup
    refine ⟨some last, hfound, fun other => ?_⟩
    cases other with
    | none => simp [EndsAt, insert]
    | some id => exact (hends id).trans (or_congr_right (Option.some_inj (a := id)).symm)

/-- A word that is there already changes nothing. -/
theorem insert_of_contains {tree : Tree} {word : Word} (h : tree.contains word = true) :
    tree.insert word = tree := by
  -- Neither the nodes nor any of the counts change.
  obtain ⟨order, root, nodeCount, hasEmptyWord, size⟩ := tree
  cases word with
  | nil =>
    obtain rfl : hasEmptyWord = true := h
    rfl
  | cons c rest =>
    have hfound : root.contains order c rest = true := h
    simp [insert, Node.insert_of_contains hfound, Node.missing_of_contains hfound, Node.isNew_eq,
      hfound]

/-- Adding a word in any of its spellings once more changes nothing. -/
theorem insert_insert_of_compare_eq (tree : Tree) {word spelling : Word}
    (h : tree.order.compare word spelling = .eq) :
    (tree.insert word).insert spelling = tree.insert word := by
  refine insert_of_contains ?_
  rw [contains_insert, h]
  simp

/-- A word that was not there is counted. -/
theorem size_insert (tree : Tree) (word : Word) :
    (tree.insert word).size = tree.size + (!tree.contains word).toNat := by
  cases word with
  | nil => rfl
  | cons c rest => simp only [insert, contains, Node.isNew_eq]

end Tree

end Lexicon.Ternary
