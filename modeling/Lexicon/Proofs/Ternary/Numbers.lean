import Lexicon.Proofs.Ternary.Growth
import Lexicon.Proofs.Ternary.Tree

namespace Lexicon.Ternary

/-!
# Numbers of the nodes

The nodes of a tree are numbered in the order in which they were made, without a gap and each with a
number of its own.

* `Node.ids`, `Node.ids_insert_perm` — the numbers in use; a word takes the next ones.
* `Node.Rising` — no node was made before the one above it.
* `Node.Alive` — each node leads to the end of a word.
* `Node.exists_path`, `Node.path_unique` — each number in use has one path that leads to it.
* `Node.exists_path_of_find?`, `Node.isSome_find?_of_mem_ids` — and a node that it is found by.
* `Node.length_lt_height`, `Node.exists_length_eq_height` — the height, by the lengths of paths.
* `Tree.ids_ofWords_perm`, `Tree.rising_ofWords`, `Tree.alive_ofWords` — so it is in the tree of any
  words.
-/

variable {order : WordOrder}

namespace Node

/-- Numbers of the nodes, each in front of those of its subtrees. -/
def ids : Node → List Nat
  | leaf => []
  | branch id _ _ lo eq hi => id :: (lo.ids ++ eq.ids ++ hi.ids)

theorem ids_spine (next : Nat) (c : Char) (rest : List Char) :
    (spine next c rest).ids = List.range' next (rest.length + 1) := by
  induction rest generalizing next c with
  | nil => rfl
  | cons d rest ih => simp [spine, ids, ih, List.range'_succ]

/-- Numbers that join some of a list join the list. -/
theorem perm_of_middle {old new joined : List Nat} (h : new.Perm (old ++ joined))
    (front back : List Nat) : (front ++ new ++ back).Perm (front ++ old ++ back ++ joined) := by
  rw [List.perm_iff_count] at h ⊢
  intro i
  have hcount := h i
  simp only [List.count_append] at hcount ⊢
  omega

/-- A word takes as many numbers as it makes nodes, from the next one on. -/
theorem ids_insert_perm (order : WordOrder) (next : Nat) (node : Node) (c : Char)
    (rest : List Char) :
    (node.insert order next c rest).ids.Perm
      (node.ids ++ List.range' next (node.missing order c rest)) := by
  fun_induction insert order next node c rest with
  | case1 c rest => rw [ids_spine, ids, List.nil_append, missing]
  | case2 own char isEnd lo eq hi c rest hside ih =>
    simpa [ids, missing, hside] using perm_of_middle ih [own] (eq.ids ++ hi.ids)
  | case3 own char isEnd lo eq hi c rest hside ih =>
    simpa [ids, missing, hside] using perm_of_middle ih (own :: (lo.ids ++ eq.ids)) []
  | case4 own char isEnd lo eq hi c hside =>
    simp [ids, missing, hside]
  | case5 own char isEnd lo eq hi c hside d rest ih =>
    simpa [ids, missing, hside] using perm_of_middle ih (own :: lo.ids) hi.ids

theorem mem_ids_insert_iff {next i : Nat} {node : Node} {c : Char} {rest : List Char} :
    i ∈ (node.insert order next c rest).ids ↔
      i ∈ node.ids ∨ next ≤ i ∧ i < next + node.missing order c rest := by
  rw [(ids_insert_perm order next node c rest).mem_iff, List.mem_append, List.mem_range'_1]

/-! ### Nodes above and below -/

/-- Each node has a lesser number than those below it. -/
def Rising : Node → Prop
  | leaf => True
  | branch id _ _ lo eq hi =>
    (∀ i ∈ lo.ids, id < i) ∧ (∀ i ∈ eq.ids, id < i) ∧ (∀ i ∈ hi.ids, id < i) ∧
      lo.Rising ∧ eq.Rising ∧ hi.Rising

theorem rising_spine (next : Nat) (c : Char) (rest : List Char) : (spine next c rest).Rising := by
  induction rest generalizing next c with
  | nil => simp [spine, Rising, ids]
  | cons d rest ih =>
    have hbelow : ∀ i ∈ (spine (next + 1) d rest).ids, next < i := by
      intro i hi
      rw [ids_spine, List.mem_range'_1] at hi
      omega
    simpa [spine, Rising, ids, ih] using hbelow

/-- What comes after a node still does when a word is added there with later numbers. -/
theorem lt_of_mem_ids_insert {own next : Nat} {node : Node} (hbelow : ∀ i ∈ node.ids, own < i)
    (hnext : own < next) (c : Char) (rest : List Char) :
    ∀ i ∈ (node.insert order next c rest).ids, own < i := by
  intro i hi
  rcases mem_ids_insert_iff.mp hi with hi | ⟨hi, -⟩
  · exact hbelow i hi
  · omega

/-- New nodes, which have the next numbers, come after all those above them. -/
theorem Rising.insert {node : Node} (h : node.Rising) {next : Nat}
    (hnext : ∀ i ∈ node.ids, i < next) (c : Char) (rest : List Char) :
    (node.insert order next c rest).Rising := by
  fun_induction Node.insert order next node c rest with
  | case1 c rest => exact rising_spine next c rest
  | case2 own char isEnd lo eq hi c rest hside ih =>
    obtain ⟨hlo, heq, hhi, hloRising, hrest⟩ := h
    simp only [ids, List.forall_mem_cons, List.forall_mem_append] at hnext
    exact ⟨lt_of_mem_ids_insert hlo hnext.1 c rest, heq, hhi, ih hloRising hnext.2.1.1, hrest⟩
  | case3 own char isEnd lo eq hi c rest hside ih =>
    obtain ⟨hlo, heq, hhi, hloRising, heqRising, hhiRising⟩ := h
    simp only [ids, List.forall_mem_cons, List.forall_mem_append] at hnext
    exact ⟨hlo, heq, lt_of_mem_ids_insert hhi hnext.1 c rest, hloRising, heqRising,
      ih hhiRising hnext.2.2⟩
  | case4 => exact h
  | case5 own char isEnd lo eq hi c hside d rest ih =>
    obtain ⟨hlo, heq, hhi, hloRising, heqRising, hhiRising⟩ := h
    simp only [ids, List.forall_mem_cons, List.forall_mem_append] at hnext
    exact ⟨hlo, lt_of_mem_ids_insert heq hnext.1 d rest, hhi, hloRising, ih heqRising hnext.2.1.2,
      hhiRising⟩

/-- A word ends at each node behind which no word goes on. -/
def Alive : Node → Prop
  | leaf => True
  | branch _ _ isEnd lo eq hi =>
    (eq.id? = none → isEnd = true) ∧ lo.Alive ∧ eq.Alive ∧ hi.Alive

theorem id?_spine (next : Nat) (c : Char) (rest : List Char) :
    (spine next c rest).id? = some next := by
  cases rest <;> rfl

/-- A node keeps its number, and a first one gets the next. -/
theorem id?_insert (order : WordOrder) (next : Nat) (node : Node) (c : Char) (rest : List Char) :
    (node.insert order next c rest).id? = some (node.id?.getD next) := by
  fun_cases insert order next node c rest with
  | case1 => exact id?_spine next c rest
  | _ => rfl

theorem alive_spine (next : Nat) (c : Char) (rest : List Char) : (spine next c rest).Alive := by
  induction rest generalizing next c with
  | nil => simp [spine, Alive]
  | cons d rest ih => simp [spine, Alive, id?_spine, ih]

theorem Alive.insert {node : Node} (h : node.Alive) (next : Nat) (c : Char) (rest : List Char) :
    (node.insert order next c rest).Alive := by
  fun_induction Node.insert order next node c rest with
  | case1 c rest => exact alive_spine next c rest
  | case2 own char isEnd lo eq hi c rest hside ih =>
    obtain ⟨hown, hlo, heq, hhi⟩ := h
    exact ⟨hown, ih hlo, heq, hhi⟩
  | case3 own char isEnd lo eq hi c rest hside ih =>
    obtain ⟨hown, hlo, heq, hhi⟩ := h
    exact ⟨hown, hlo, heq, ih hhi⟩
  | case4 own char isEnd lo eq hi c hside =>
    obtain ⟨-, hlo, heq, hhi⟩ := h
    exact ⟨fun _ => rfl, hlo, heq, hhi⟩
  | case5 own char isEnd lo eq hi c hside d rest ih =>
    obtain ⟨-, hlo, heq, hhi⟩ := h
    -- The word goes on behind the node, where it has made a node if there was none.
    refine ⟨fun hnone => ?_, hlo, ih heq, hhi⟩
    simp [id?_insert] at hnone

/-! ### Paths -/

theorem follow_cons (node : Node) (link : Link) (path : List Link) :
    node.follow (link :: path) = (node.child link).follow path := rfl

theorem follow_concat (node : Node) (path : List Link) (link : Link) :
    node.follow (path ++ [link]) = (node.follow path).child link := by
  rw [follow, List.foldl_concat]
  rfl

theorem child_leaf (link : Link) : leaf.child link = leaf := by
  cases link <;> rfl

/-- What holds of the three subtrees of a node holds at the end of each link. -/
theorem child_of_subtrees {P : Node → Prop} {id : Nat} {char : Char} {isEnd : Bool}
    {lo eq hi : Node} (hlo : P lo) (heq : P eq) (hhi : P hi) (link : Link) :
    P ((branch id char isEnd lo eq hi).child link) := by
  cases link with
  | lo => exact hlo
  | eq => exact heq
  | hi => exact hhi

/-- What subtrees take over from a node holds at the end of each path. -/
theorem follow_of_child {P : Node → Prop} (hchild : ∀ {node}, P node → ∀ link, P (node.child link))
    {node : Node} (h : P node) (path : List Link) : P (node.follow path) := by
  induction path generalizing node with
  | nil => exact h
  | cons link path ih => exact ih (hchild h link)

theorem mem_ids_of_child {node : Node} {link : Link} {i : Nat} (h : i ∈ (node.child link).ids) :
    i ∈ node.ids := by
  cases node with
  | leaf => cases link <;> exact h
  | branch id char isEnd lo eq hi => cases link <;> simp_all [child, ids]

theorem mem_ids_of_follow {node : Node} {path : List Link} {i : Nat}
    (h : i ∈ (node.follow path).ids) : i ∈ node.ids := by
  induction path generalizing node with
  | nil => exact h
  | cons link path ih => exact mem_ids_of_child (ih h)

theorem mem_ids_of_id? {node : Node} {i : Nat} (h : node.id? = some i) : i ∈ node.ids := by
  cases node with
  | leaf => simp [id?] at h
  | branch id char isEnd lo eq hi => simp_all [id?, ids]

theorem Rising.child {node : Node} (h : node.Rising) (link : Link) : (node.child link).Rising := by
  cases node with
  | leaf => rwa [child_leaf]
  | branch id char isEnd lo eq hi =>
    obtain ⟨-, -, -, hlo, heq, hhi⟩ := h
    exact child_of_subtrees hlo heq hhi link

theorem Rising.follow {node : Node} (h : node.Rising) (path : List Link) :
    (node.follow path).Rising :=
  follow_of_child Rising.child h path

/-- A node comes before those at the ends of its links. -/
theorem Rising.lt_child {node : Node} (h : node.Rising) {id child : Nat} {link : Link}
    (hid : node.id? = some id) (hchild : (node.child link).id? = some child) : id < child := by
  cases node with
  | leaf => simp [id?] at hid
  | branch own char isEnd lo eq hi =>
    obtain ⟨hlo, heq, hhi, -⟩ := h
    obtain rfl : own = id := Option.some.inj hid
    cases link with
    | lo => exact hlo child (mem_ids_of_id? hchild)
    | eq => exact heq child (mem_ids_of_id? hchild)
    | hi => exact hhi child (mem_ids_of_id? hchild)

theorem Alive.child {node : Node} (h : node.Alive) (link : Link) : (node.child link).Alive := by
  cases node with
  | leaf => rwa [child_leaf]
  | branch id char isEnd lo eq hi =>
    obtain ⟨-, hlo, heq, hhi⟩ := h
    exact child_of_subtrees hlo heq hhi link

theorem Alive.follow {node : Node} (h : node.Alive) (path : List Link) :
    (node.follow path).Alive :=
  follow_of_child Alive.child h path

/-- There is a node above each that is at the end of a link. -/
theorem exists_id?_of_child {node : Node} {link : Link} {i : Nat}
    (h : (node.child link).id? = some i) : ∃ own, node.id? = some own := by
  cases node with
  | leaf => cases link <;> simp [child, id?] at h
  | branch own char isEnd lo eq hi => exact ⟨own, rfl⟩

/-- Each number in use belongs to the node at the end of some path. -/
theorem exists_path {node : Node} {i : Nat} (h : i ∈ node.ids) :
    ∃ path, (node.follow path).id? = some i := by
  induction node with
  | leaf => simp [ids] at h
  | branch id char isEnd lo eq hi ihlo iheq ihhi =>
    simp only [ids, List.mem_cons, List.mem_append] at h
    rcases h with rfl | (hlo | heq) | hhi
    · exact ⟨[], rfl⟩
    · obtain ⟨path, hpath⟩ := ihlo hlo
      exact ⟨.lo :: path, hpath⟩
    · obtain ⟨path, hpath⟩ := iheq heq
      exact ⟨.eq :: path, hpath⟩
    · obtain ⟨path, hpath⟩ := ihhi hhi
      exact ⟨.hi :: path, hpath⟩

theorem nodup_ids_child {node : Node} (h : node.ids.Nodup) (link : Link) :
    (node.child link).ids.Nodup := by
  cases node with
  | leaf => cases link <;> exact h
  | branch id char isEnd lo eq hi =>
    simp only [ids, List.nodup_cons, List.nodup_append] at h
    cases link <;> simp_all [child]

/-- Numbers at the ends of different links are different. -/
theorem disjoint_ids_child {node : Node} (h : node.ids.Nodup) {link link' : Link}
    (hne : link ≠ link') {i : Nat} (hi : i ∈ (node.child link).ids) :
    i ∉ (node.child link').ids := by
  cases node with
  | leaf => cases link <;> simp [child, ids] at hi
  | branch id char isEnd lo eq hi =>
    simp only [ids, List.nodup_cons, List.nodup_append, List.mem_append] at h
    intro hi'
    cases link <;> cases link' <;> simp only [child] at hi hi' <;> grind

theorem not_mem_ids_child {node : Node} (h : node.ids.Nodup) {i : Nat} (hi : node.id? = some i)
    (link : Link) : i ∉ (node.child link).ids := by
  cases node with
  | leaf => simp [id?] at hi
  | branch id char isEnd lo eq hi =>
    simp only [ids, List.nodup_cons, List.mem_append] at h
    cases link <;> simp_all [child, id?]

/-- No two paths lead to the same number. -/
theorem path_unique {node : Node} (h : node.ids.Nodup) {path path' : List Link} {i : Nat}
    (hpath : (node.follow path).id? = some i) (hpath' : (node.follow path').id? = some i) :
    path = path' := by
  -- A path that begins with a link leads to a number of the subtree at its end.
  have hbelow : ∀ {link path}, (node.follow (link :: path)).id? = some i →
      i ∈ (node.child link).ids := fun hpath => mem_ids_of_follow (mem_ids_of_id? hpath)
  induction path generalizing node path' with
  | nil =>
    cases path' with
    | nil => rfl
    | cons link path' => exact absurd (hbelow hpath') (not_mem_ids_child h hpath link)
  | cons link path ih =>
    cases path' with
    | nil => exact absurd (hbelow hpath) (not_mem_ids_child h hpath' link)
    | cons link' path' =>
      by_cases hlink : link = link'
      · subst hlink
        rw [ih (nodup_ids_child h link) hpath hpath'
          fun hpath => mem_ids_of_follow (mem_ids_of_id? hpath)]
      · exact absurd (hbelow hpath') (disjoint_ids_child h hlink (hbelow hpath))

/-- A node that is found by a number has that number, and is at the end of a path. -/
theorem exists_path_of_find? {node sub : Node} {id : Nat} (h : node.find? id = some sub) :
    sub.id? = some id ∧ ∃ path, node.follow path = sub := by
  induction node with
  | leaf => simp [find?] at h
  | branch own char isEnd lo eq hi ihlo iheq ihhi =>
    rw [find?] at h
    split_ifs at h with hown
    · obtain rfl := Option.some.inj h
      exact ⟨congrArg some hown, [], rfl⟩
    · rcases Option.or_eq_some_iff.mp h with hlo | ⟨-, h⟩
      · obtain ⟨hid, path, hpath⟩ := ihlo hlo
        exact ⟨hid, .lo :: path, hpath⟩
      · rcases Option.or_eq_some_iff.mp h with heq | ⟨-, hhi⟩
        · obtain ⟨hid, path, hpath⟩ := iheq heq
          exact ⟨hid, .eq :: path, hpath⟩
        · obtain ⟨hid, path, hpath⟩ := ihhi hhi
          exact ⟨hid, .hi :: path, hpath⟩

theorem isSome_find?_of_mem_ids {node : Node} {id : Nat} (h : id ∈ node.ids) :
    (node.find? id).isSome = true := by
  induction node with
  | leaf => simp [ids] at h
  | branch own char isEnd lo eq hi ihlo iheq ihhi =>
    rw [find?]
    split_ifs with hown
    · rfl
    · simp only [ids, List.mem_cons, List.mem_append] at h
      simp only [Option.isSome_or, Bool.or_eq_true]
      rcases h with rfl | (hlo | heq) | hhi
      · exact absurd rfl hown
      · exact .inl (ihlo hlo)
      · exact .inr (.inl (iheq heq))
      · exact .inr (.inr (ihhi hhi))

/-! ### Height -/

/-- A path to a node has fewer links than the height. -/
theorem length_lt_height {node : Node} {path : List Link} {i : Nat}
    (h : (node.follow path).id? = some i) : path.length < node.height := by
  induction path generalizing node with
  | nil =>
    cases node with
    | leaf => simp [follow, id?] at h
    | branch id char isEnd lo eq hi =>
      rw [List.length_nil, height]
      omega
  | cons link path ih =>
    cases node with
    | leaf =>
      rw [follow_leaf] at h
      simp [id?] at h
    | branch id char isEnd lo eq hi =>
      have hlt := ih h
      rw [List.length_cons, height]
      cases link <;> simp only [child] at hlt <;> omega

/-- A node is one higher than one of its subtrees. -/
theorem exists_height_child (id : Nat) (char : Char) (isEnd : Bool) (lo eq hi : Node) :
    ∃ link, (branch id char isEnd lo eq hi).height
      = ((branch id char isEnd lo eq hi).child link).height + 1 := by
  simp only [height]
  rcases max_choice lo.height (max eq.height hi.height) with hmax | hmax
  · exact ⟨.lo, by simp only [child]; omega⟩
  · rcases max_choice eq.height hi.height with hmax' | hmax'
    · exact ⟨.eq, by simp only [child]; omega⟩
    · exact ⟨.hi, by simp only [child]; omega⟩

/-- Some path to a node has one link less than the height. -/
theorem exists_length_eq_height {node : Node} (h : node ≠ leaf) :
    ∃ path i, (node.follow path).id? = some i ∧ path.length + 1 = node.height := by
  induction node with
  | leaf => exact absurd rfl h
  | branch id char isEnd lo eq hi ihlo iheq ihhi =>
    -- A highest subtree has such a path, unless there is none.
    have hbelow : ∀ link, (child (branch id char isEnd lo eq hi) link) ≠ leaf →
        ∃ path i, ((branch id char isEnd lo eq hi).follow (link :: path)).id? = some i ∧
          path.length + 1 = ((branch id char isEnd lo eq hi).child link).height := by
      intro link hlink
      cases link with
      | lo => exact ihlo hlink
      | eq => exact iheq hlink
      | hi => exact ihhi hlink
    obtain ⟨link, hheight⟩ := exists_height_child id char isEnd lo eq hi
    by_cases hleaf : (branch id char isEnd lo eq hi).child link = leaf
    · refine ⟨[], id, rfl, ?_⟩
      rw [hheight, hleaf]
      rfl
    · obtain ⟨path, i, hpath, hlength⟩ := hbelow link hleaf
      exact ⟨link :: path, i, hpath, by rw [hheight, ← hlength, List.length_cons]⟩

end Node

namespace Tree

/-! ### The tree of some words -/

/-- The numbers in use are those below the number of nodes. -/
theorem ids_ofWords_perm (order : WordOrder) (added : List Word) :
    (ofWords order added).root.ids.Perm (List.range (ofWords order added).nodeCount) := by
  refine root_induction (P := fun next node => node.ids.Perm (List.range next)) (.refl []) ?_ added
  intro next node c rest hids
  rw [List.range_eq_range'] at hids
  rw [List.range_eq_range', ← List.range'_append_1, Nat.zero_add]
  exact (Node.ids_insert_perm order next node c rest).trans (hids.append_right _)

theorem mem_ids_ofWords_iff {added : List Word} {i : Nat} :
    i ∈ (ofWords order added).root.ids ↔ i < (ofWords order added).nodeCount := by
  rw [(ids_ofWords_perm order added).mem_iff, List.mem_range]

theorem nodup_ids_ofWords (order : WordOrder) (added : List Word) :
    (ofWords order added).root.ids.Nodup :=
  (ids_ofWords_perm order added).nodup_iff.mpr List.nodup_range

theorem rising_ofWords (order : WordOrder) (added : List Word) :
    (ofWords order added).root.Rising := by
  refine (root_induction (P := fun next node => (∀ i ∈ node.ids, i < next) ∧ node.Rising)
    ⟨by simp [Node.ids], trivial⟩ ?_ added).2
  rintro next node c rest ⟨hnext, hrising⟩
  refine ⟨fun i hi => ?_, hrising.insert hnext c rest⟩
  rcases Node.mem_ids_insert_iff.mp hi with hi | ⟨-, hi⟩
  · exact Nat.lt_add_right _ (hnext i hi)
  · exact hi

theorem alive_ofWords (order : WordOrder) (added : List Word) :
    (ofWords order added).root.Alive :=
  root_induction (P := fun _ node => node.Alive) trivial
    (fun c rest halive => halive.insert _ c rest) added

end Tree

end Lexicon.Ternary
