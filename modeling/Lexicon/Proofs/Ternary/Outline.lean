import Lexicon.Proofs.Ternary.Numbers
import Lexicon.Proofs.Ternary.Unnumbered

namespace Lexicon.Ternary

/-!
# What the picture of a tree tells

Each line of a picture tells its depth by the blanks in front, then a link, a character and whether
a word ends there.  Subtrees without nodes have no line.  Still there is only one way to read the
lines, whatever the characters are, as long as none of them ends a line.

* `endedLines`, `endedLines_flatMap` — the lines of a text, each of which is ended.
* `indentation`, `linkOf`, `Node.indentation_line`, `Node.linkOf_line` — what can be read from a
  line.
* `Node.Elsewhere`, `Node.lines_append_eq` — where the lines of a subtree end, so that they tell all
  of it.
* `Node.HasLine`, `Node.isGreatest_indentation` — one line for each path to a node, so that the
  greatest indentation tells the height.
* `Node.chars`, `Tree.exists_mem_of_mem_chars` — no line is cut by a character that is in no word.
* `Tree.endedLines_outline`, `Tree.outlineLines_inj`, `Tree.outline_tells_tree` — so it is with the
  picture of a tree.
-/

variable {order : WordOrder}

/-! ### Texts and lines -/

/-- The lines of a text in which each is ended by a line feed. -/
def endedLines (text : Text) : List Text :=
  (text.splitOn '\n').dropLast

/-- Lines that are ended by a line feed can be told apart, if they have none inside. -/
theorem endedLines_flatMap {lines : List Text} (h : ∀ line ∈ lines, '\n' ∉ line) :
    endedLines (lines.flatMap (· ++ ['\n'])) = lines := by
  unfold endedLines
  induction lines with
  | nil => rw [List.flatMap_nil, List.splitOn_nil, List.dropLast_singleton]
  | cons line lines ih =>
    obtain ⟨hline, hlines⟩ := List.forall_mem_cons.mp h
    rw [List.flatMap_cons, List.append_assoc, List.singleton_append,
      List.splitOn_append_cons_self, List.splitOn_eq_singleton hline, List.singleton_append,
      List.dropLast_cons_of_ne_nil (List.splitOn_ne_nil _ _), ih hlines]

/-- Number of blanks in front of a line. -/
def indentation (line : Text) : Nat :=
  (line.takeWhile (· == ' ')).length

/-- The first word of a line. -/
def linkOf (line : Text) : Text :=
  (line.dropWhile (· == ' ')).takeWhile (· != ' ')

namespace Node

variable {link : Text} {depth : Nat}

/-- A name that can stand for a link is one word. -/
def IsLink (link : Text) : Prop :=
  link ≠ [] ∧ ' ' ∉ link ∧ '\n' ∉ link

instance (link : Text) : Decidable (IsLink link) :=
  inferInstanceAs (Decidable (_ ∧ _))

/-- The name of a link in a picture. -/
def linkName : Link → Text
  | .lo => "lo".toList
  | .eq => "eq".toList
  | .hi => "hi".toList

theorem isLink_linkName (link : Link) : IsLink (linkName link) := by
  cases link <;> decide

theorem isLink_root : IsLink "root".toList := by
  decide

/-- A line is blanks, then the link and what is told of the node. -/
theorem line_eq (link : Text) (depth : Nat) (char : Char) (isEnd : Bool) :
    line link depth char isEnd
      = List.replicate (2 * depth) ' ' ++ (link ++ ' ' :: char :: if isEnd then ['*'] else []) := by
  simp [line]

theorem blank_of_mem_replicate {n : Nat} : ∀ c ∈ List.replicate n ' ', (c == ' ') = true := by
  intro c hc
  rw [List.eq_of_mem_replicate hc, beq_self_eq_true]

/-- A link begins with something else than a blank. -/
theorem IsLink.exists_cons (h : IsLink link) : ∃ c rest, link = c :: rest ∧ ¬(c == ' ') = true := by
  obtain ⟨hne, hblank, -⟩ := h
  obtain ⟨c, rest, rfl⟩ := List.exists_cons_of_ne_nil hne
  refine ⟨c, rest, rfl, fun hc => hblank ?_⟩
  rw [← beq_iff_eq.mp hc]
  exact List.mem_cons_self

theorem indentation_line (hlink : IsLink link) (depth : Nat) (char : Char) (isEnd : Bool) :
    indentation (line link depth char isEnd) = 2 * depth := by
  obtain ⟨c, rest, rfl, hc⟩ := hlink.exists_cons
  rw [indentation, line_eq, List.takeWhile_append_of_pos blank_of_mem_replicate, List.cons_append,
    List.takeWhile_cons_of_neg (p := (· == ' ')) hc, List.append_nil, List.length_replicate]

theorem linkOf_line (hlink : IsLink link) (depth : Nat) (char : Char) (isEnd : Bool) :
    linkOf (line link depth char isEnd) = link := by
  -- The blanks in front are dropped and no more, as the link begins with none and has none inside.
  have hword : ∀ c ∈ link, (c != ' ') = true := by
    intro c hc
    simpa using fun hblank : c = ' ' => hlink.2.1 (hblank ▸ hc)
  obtain ⟨c, rest, hcons, hc⟩ := hlink.exists_cons
  have hdrop : ∀ tail : Text, (link ++ tail).dropWhile (· == ' ') = link ++ tail := by
    intro tail
    rw [hcons, List.cons_append, List.dropWhile_cons_of_neg (p := (· == ' ')) hc]
  rw [linkOf, line_eq, List.dropWhile_append_of_pos blank_of_mem_replicate, hdrop,
    List.takeWhile_append_of_pos hword, List.takeWhile_cons_of_neg (by decide), List.append_nil]

/-- Lines for the same link at the same depth differ in what they tell of the node. -/
theorem line_inj {char char' : Char} {isEnd isEnd' : Bool}
    (h : line link depth char isEnd = line link depth char' isEnd') :
    char = char' ∧ isEnd = isEnd' := by
  simp only [line, List.append_assoc, List.append_cancel_left_eq, List.cons_append, List.nil_append,
    List.cons.injEq, true_and] at h
  cases isEnd <;> cases isEnd' <;> simp_all

/-! ### The lines of a subtree -/

/-- Lines that do not begin with that of a subtree, but with one further out or beside it. -/
def Elsewhere (link : Text) (depth : Nat) (rest : List Text) : Prop :=
  ∀ line ∈ rest.head?,
    indentation line < 2 * depth ∨ (indentation line = 2 * depth ∧ linkOf line ≠ link)

theorem elsewhere_nil (link : Text) (depth : Nat) : Elsewhere link depth [] := by
  simp [Elsewhere]

variable {rest rest' : List Text}

/-- What is elsewhere than a subtree is elsewhere than the subtrees below it. -/
theorem Elsewhere.deeper (h : Elsewhere link depth rest) (below : Text) :
    Elsewhere below (depth + 1) rest := by
  intro line hline
  have hdepth := h line hline
  omega

/-- The lines of another subtree of the same node are elsewhere. -/
theorem Elsewhere.beside (h : Elsewhere link depth rest) {other : Text} (hother : IsLink other)
    (hne : other ≠ link) (node : Node) : Elsewhere link depth (node.lines other depth ++ rest) := by
  cases node with
  | leaf => exact h
  | branch id char isEnd lo eq hi =>
    intro line hline
    simp only [lines, List.cons_append, List.head?_cons, Option.mem_def, Option.some_inj] at hline
    subst hline
    rw [indentation_line hother, linkOf_line hother]
    exact .inr ⟨rfl, hne⟩

/-- Behind the lines of a `lo` subtree come those of the subtrees beside it. -/
theorem Elsewhere.behind_lo (h : Elsewhere link depth rest) (eq hi : Node) :
    Elsewhere "lo".toList (depth + 1)
      (eq.lines "eq".toList (depth + 1) ++ (hi.lines "hi".toList (depth + 1) ++ rest)) := by
  have hhi := (h.deeper "lo".toList).beside (isLink_linkName .hi) (by decide) hi
  exact hhi.beside (isLink_linkName .eq) (by decide) eq

/-- Behind the lines of an `eq` subtree come those of the `hi` subtree. -/
theorem Elsewhere.behind_eq (h : Elsewhere link depth rest) (hi : Node) :
    Elsewhere "eq".toList (depth + 1) (hi.lines "hi".toList (depth + 1) ++ rest) :=
  (h.deeper "eq".toList).beside (isLink_linkName .hi) (by decide) hi

/-- No lines that are elsewhere than a subtree begin with its line. -/
theorem Elsewhere.ne_line (h : Elsewhere link depth rest) (hlink : IsLink link) (char : Char)
    (isEnd : Bool) (later : List Text) : rest ≠ line link depth char isEnd :: later := by
  rintro rfl
  have hline := h _ rfl
  rw [indentation_line hlink, linkOf_line hlink] at hline
  simp at hline

/-- The lines of a subtree tell all of it but the numbers, and where they end. -/
theorem lines_append_eq {node node' : Node} (hlink : IsLink link)
    (hrest : Elsewhere link depth rest) (hrest' : Elsewhere link depth rest')
    (h : node.lines link depth ++ rest = node'.lines link depth ++ rest') :
    node.unnumbered = node'.unnumbered ∧ rest = rest' := by
  -- What comes behind stays general, since each subtree has those beside it behind.
  induction node generalizing node' link depth rest rest' with
  | leaf =>
    cases node' with
    | leaf => exact ⟨rfl, h⟩
    -- A subtree without lines cannot pass for one with some, as what follows is elsewhere.
    | branch id char isEnd lo eq hi => exact absurd h (hrest.ne_line hlink char isEnd _)
  | branch id char isEnd lo eq hi ihlo iheq ihhi =>
    cases node' with
    | leaf => exact absurd h.symm (hrest'.ne_line hlink char isEnd _)
    | branch id' char' isEnd' lo' eq' hi' =>
      simp only [lines, List.cons_append, List.cons.injEq, List.append_assoc] at h
      -- The first lines are those of the nodes; behind them, subtree by subtree, come the others.
      obtain ⟨hown, hbelow⟩ := h
      obtain ⟨rfl, rfl⟩ := line_inj hown
      obtain ⟨hlo, hbelow⟩ :=
        ihlo (isLink_linkName .lo) (hrest.behind_lo eq hi) (hrest'.behind_lo eq' hi') hbelow
      obtain ⟨heq, hbelow⟩ :=
        iheq (isLink_linkName .eq) (hrest.behind_eq hi) (hrest'.behind_eq hi') hbelow
      obtain ⟨hhi, hsame⟩ :=
        ihhi (isLink_linkName .hi) (hrest.deeper _) (hrest'.deeper _) hbelow
      exact ⟨by rw [unnumbered_branch, unnumbered_branch, hlo, heq, hhi], hsame⟩

/-- The lines of a tree of nodes tell all of it but the numbers. -/
theorem lines_inj {node node' : Node} (hlink : IsLink link)
    (h : node.lines link depth = node'.lines link depth) : node.unnumbered = node'.unnumbered := by
  refine (lines_append_eq hlink (elsewhere_nil link depth) (elsewhere_nil link depth) ?_).1
  rw [h]

/-- Each node has one line. -/
theorem length_lines (node : Node) (link : Text) (depth : Nat) :
    (node.lines link depth).length = node.count := by
  induction node generalizing link depth with
  | leaf => rfl
  | branch id char isEnd lo eq hi ihlo iheq ihhi =>
    simp only [lines, List.length_cons, List.length_append, ihlo, iheq, ihhi, count]
    omega

/-! ### The line of a node -/

/-- The link that is told of the node at the end of a path. -/
def linkAt (link : Text) : List Link → Text
  | [] => link
  | below :: path => linkAt (linkName below) path

theorem IsLink.linkAt (h : IsLink link) (path : List Link) : IsLink (linkAt link path) := by
  induction path generalizing link with
  | nil => exact h
  | cons below path ih => exact ih (isLink_linkName below)

/-- Each node has a line, as far in as its path is long. -/
theorem line_mem_lines (link : Text) (depth : Nat) {node : Node} {path : List Link} {id : Nat}
    {char : Char} {isEnd : Bool} {lo eq hi : Node}
    (h : node.follow path = branch id char isEnd lo eq hi) :
    line (linkAt link path) (depth + path.length) char isEnd ∈ node.lines link depth := by
  induction path generalizing node link depth with
  | nil =>
    obtain rfl : node = branch id char isEnd lo eq hi := h
    exact List.mem_cons_self
  | cons below path ih =>
    cases node with
    | leaf =>
      rw [follow_leaf] at h
      cases h
    | branch own first ends lo' eq' hi' =>
      have hbelow := ih (linkName below) (depth + 1) h
      rw [Nat.add_right_comm, Nat.add_assoc] at hbelow
      simp only [lines, List.mem_cons, List.mem_append]
      cases below with
      | lo => exact .inr (.inl (.inl hbelow))
      | eq => exact .inr (.inl (.inr hbelow))
      | hi => exact .inr (.inr hbelow)

/-- A text is the line of a node below. -/
def HasLine (node : Node) (link : Text) (depth : Nat) (text : Text) : Prop :=
  ∃ path id char isEnd lo eq hi, node.follow path = branch id char isEnd lo eq hi ∧
    text = line (linkAt link path) (depth + path.length) char isEnd

/-- A node of a subtree is reached by one link more. -/
theorem HasLine.below {node : Node} {text : Text} (below : Link)
    (h : (node.child below).HasLine (linkName below) (depth + 1) text) :
    node.HasLine link depth text := by
  obtain ⟨path, id, char, isEnd, lo, eq, hi, hfollow, rfl⟩ := h
  refine ⟨below :: path, id, char, isEnd, lo, eq, hi, hfollow, ?_⟩
  rw [linkAt, List.length_cons, Nat.add_right_comm, Nat.add_assoc]

/-- Each line is that of a node. -/
theorem hasLine_of_mem_lines {node : Node} {text : Text} (h : text ∈ node.lines link depth) :
    node.HasLine link depth text := by
  induction node generalizing link depth with
  | leaf => simp [lines] at h
  | branch id char isEnd lo eq hi ihlo iheq ihhi =>
    simp only [lines, List.mem_cons, List.mem_append] at h
    rcases h with rfl | (hlo | heq) | hhi
    · exact ⟨[], id, char, isEnd, lo, eq, hi, rfl, rfl⟩
    · exact HasLine.below .lo (ihlo hlo)
    · exact HasLine.below .eq (iheq heq)
    · exact HasLine.below .hi (ihhi hhi)

theorem count_eq_zero_iff {node : Node} : node.count = 0 ↔ node = leaf := by
  cases node <;> simp [count]

theorem height_pos {node : Node} (h : node ≠ leaf) : 0 < node.height := by
  cases node with
  | leaf => exact absurd rfl h
  | branch => rw [height]; omega

/-- The line that is furthest in tells the height. -/
theorem isGreatest_indentation (hlink : IsLink link) (depth : Nat) {node : Node} (h : node ≠ leaf) :
    IsGreatest {n | ∃ text ∈ node.lines link depth, indentation text = n}
      (2 * (depth + (node.height - 1))) := by
  refine ⟨?_, ?_⟩
  · -- The line of a node at the end of a longest path.
    obtain ⟨path, i, hid, hlength⟩ := exists_length_eq_height h
    cases hnode : node.follow path with
    | leaf => simp [hnode, id?] at hid
    | branch id char isEnd lo eq hi =>
      refine ⟨_, line_mem_lines link depth hnode, ?_⟩
      rw [indentation_line (hlink.linkAt path), ← hlength, Nat.add_sub_cancel]
  · rintro n ⟨text, htext, rfl⟩
    obtain ⟨path, id, char, isEnd, lo, eq, hi, hnode, rfl⟩ := hasLine_of_mem_lines htext
    have hlt : path.length < node.height := length_lt_height (i := id) (by rw [hnode]; rfl)
    rw [indentation_line (hlink.linkAt path)]
    omega

/-! ### Characters -/

/-- Characters of the nodes. -/
def chars : Node → List Char
  | leaf => []
  | branch _ char _ lo eq hi => char :: (lo.chars ++ eq.chars ++ hi.chars)

theorem chars_spine (next : Nat) (c : Char) (rest : List Char) :
    (spine next c rest).chars = c :: rest := by
  induction rest generalizing next c with
  | nil => rfl
  | cons d rest ih => simp [spine, chars, ih]

/-- A word brings in its own characters only. -/
theorem mem_chars_insert {next : Nat} {node : Node} {c d : Char} {rest : List Char}
    (h : d ∈ (node.insert order next c rest).chars) : d ∈ node.chars ∨ d ∈ c :: rest := by
  fun_induction insert order next node c rest with
  | case1 c rest =>
    rw [chars_spine] at h
    exact .inr h
  | case2 own char isEnd lo eq hi c rest hside ih =>
    simp only [chars, List.mem_cons, List.mem_append] at h ih ⊢
    tauto
  | case3 own char isEnd lo eq hi c rest hside ih =>
    simp only [chars, List.mem_cons, List.mem_append] at h ih ⊢
    tauto
  | case4 => exact .inl h
  | case5 own char isEnd lo eq hi c hside e rest ih =>
    simp only [chars, List.mem_cons, List.mem_append] at h ih ⊢
    tauto

/-- No line has a line feed inside, if no node has it as its character. -/
theorem newline_notMem_of_mem_lines {node : Node} (hlink : IsLink link)
    (hchars : '\n' ∉ node.chars) : ∀ text ∈ node.lines link depth, '\n' ∉ text := by
  induction node generalizing link depth with
  | leaf => simp [lines]
  | branch id char isEnd lo eq hi ihlo iheq ihhi =>
    simp only [chars, List.mem_cons, List.mem_append, not_or] at hchars
    obtain ⟨hchar, ⟨hlo, heq⟩, hhi⟩ := hchars
    simp only [lines, List.forall_mem_cons, List.forall_mem_append]
    refine ⟨?_, ⟨ihlo (isLink_linkName .lo) hlo, iheq (isLink_linkName .eq) heq⟩,
      ihhi (isLink_linkName .hi) hhi⟩
    have hstar : '\n' ∉ if isEnd then ['*'] else [] := by cases isEnd <;> decide
    simp [line, hlink.2.2, hchar, hstar]

end Node

namespace Tree

/-- The characters of a tree are those of the words. -/
theorem exists_mem_of_mem_chars {added : List Word} {c : Char}
    (h : c ∈ (ofWords order added).root.chars) : ∃ word ∈ added, c ∈ word := by
  induction added using List.reverseRecOn with
  | nil => simp [ofWords, insertMany, empty, Node.chars] at h
  | append_singleton added word ih =>
    have hbefore : c ∈ (ofWords order added).root.chars → ∃ other ∈ added ++ [word], c ∈ other := by
      intro hmem
      obtain ⟨other, hother, hc⟩ := ih hmem
      exact ⟨other, List.mem_append_left _ hother, hc⟩
    rw [ofWords_concat] at h
    cases word with
    | nil => exact hbefore h
    | cons d rest =>
      rcases Node.mem_chars_insert h with h | h
      · exact hbefore h
      · exact ⟨d :: rest, List.mem_append_right _ List.mem_cons_self, h⟩

/-! ### Pictures of trees -/

/-- The lines of the picture of a tree. -/
def outlineLines (tree : Tree) : List Text :=
  (if tree.hasEmptyWord then ["(empty word)".toList] else []) ++ tree.root.lines "root".toList 0

/-- The words tell how to cut the picture of their tree: none of its lines has a line feed. -/
theorem newline_notMem_of_mem_outlineLines {added : List Word} (h : ∀ word ∈ added, '\n' ∉ word) :
    ∀ text ∈ (ofWords order added).outlineLines, '\n' ∉ text := by
  have hchars : '\n' ∉ (ofWords order added).root.chars := by
    intro hmem
    obtain ⟨word, hword, hnewline⟩ := exists_mem_of_mem_chars hmem
    exact h word hword hnewline
  have hempty : ∀ text ∈ if (ofWords order added).hasEmptyWord then ["(empty word)".toList] else [],
      '\n' ∉ text := by
    cases (ofWords order added).hasEmptyWord <;> decide
  rw [outlineLines, List.forall_mem_append]
  exact ⟨hempty, Node.newline_notMem_of_mem_lines Node.isLink_root hchars⟩

theorem endedLines_outline {added : List Word} (h : ∀ word ∈ added, '\n' ∉ word) :
    endedLines (ofWords order added).outline = (ofWords order added).outlineLines :=
  endedLines_flatMap (newline_notMem_of_mem_outlineLines h)

theorem length_outlineLines (tree : Tree) :
    tree.outlineLines.length = tree.root.count + tree.hasEmptyWord.toNat := by
  rw [outlineLines, List.length_append, Node.length_lines, Nat.add_comm]
  cases tree.hasEmptyWord <;> rfl

/-- The line for the empty word is not that of a root. -/
theorem cons_emptyWord_ne_lines (rest : List Text) (node : Node) :
    "(empty word)".toList :: rest ≠ node.lines "root".toList 0 := by
  cases node with
  | leaf => simp [Node.lines]
  | branch id char isEnd lo eq hi =>
    have helsewhere : Node.Elsewhere "root".toList 0 ("(empty word)".toList :: rest) := by
      intro text htext
      rw [List.head?_cons, Option.mem_some_iff] at htext
      subst htext
      exact .inr (by decide)
    exact helsewhere.ne_line Node.isLink_root char isEnd _

/-- The lines of a picture tell all of a tree but the numbers of its nodes. -/
theorem outlineLines_inj {tree tree' : Tree} (h : tree.outlineLines = tree'.outlineLines) :
    tree.hasEmptyWord = tree'.hasEmptyWord ∧ tree.root.unnumbered = tree'.root.unnumbered := by
  simp only [outlineLines] at h
  cases hempty : tree.hasEmptyWord <;> cases hempty' : tree'.hasEmptyWord <;>
    simp only [hempty, hempty', if_true, Bool.false_eq_true, if_false, List.nil_append,
      List.singleton_append] at h
  · exact ⟨rfl, Node.lines_inj Node.isLink_root h⟩
  · exact absurd h.symm (cons_emptyWord_ne_lines _ _)
  · exact absurd h (cons_emptyWord_ne_lines _ _)
  · exact ⟨rfl, Node.lines_inj Node.isLink_root (List.cons.inj h).2⟩

/-- Only the first line, for the empty word, tells of no node, and it is not indented. -/
theorem isGreatest_indentation_outlineLines {tree : Tree} (h : tree.root ≠ .leaf) :
    IsGreatest {n | ∃ text ∈ tree.outlineLines, indentation text = n}
      (2 * (tree.root.height - 1)) := by
  obtain ⟨⟨text, htext, hindented⟩, hbound⟩ :=
    Node.isGreatest_indentation Node.isLink_root 0 h
  rw [Nat.zero_add] at hindented hbound
  refine ⟨⟨text, List.mem_append_right _ htext, hindented⟩, ?_⟩
  rintro n ⟨other, hother, rfl⟩
  rcases List.mem_append.mp hother with hempty | hnode
  · have hzero : indentation other = 0 := by
      cases htree : tree.hasEmptyWord <;> simp only [htree, if_true, Bool.false_eq_true, if_false,
        List.not_mem_nil, List.mem_singleton] at hempty
      subst hempty
      decide
    rw [hzero]
    exact Nat.zero_le _
  · exact hbound ⟨other, hnode, rfl⟩

/-- **A picture tells its tree**, as far as searches and measures can: the pictures of two trees
    are the same just if the trees differ in the numbers of their nodes at most.  It has a line for
    each node and one for the empty word, and the line that is furthest in tells the depth.  No word
    may have a line feed. -/
theorem outline_tells_tree {added : List Word} (h : ∀ word ∈ added, '\n' ∉ word) :
    (∀ others : List Word, (∀ word ∈ others, '\n' ∉ word) →
      ((ofWords order added).outline = (ofWords order others).outline ↔
        (ofWords order added).SameShape (ofWords order others))) ∧
      (ofWords order added).outline
        = (endedLines (ofWords order added).outline).flatMap (· ++ ['\n']) ∧
      (endedLines (ofWords order added).outline).length
        = (ofWords order added).nodeCount + (ofWords order added).hasEmptyWord.toNat ∧
      ((ofWords order added).nodeCount = 0 → (ofWords order added).depth = 0) ∧
      ((ofWords order added).nodeCount ≠ 0 → ∃ greatest,
        IsGreatest {n | ∃ text ∈ endedLines (ofWords order added).outline, indentation text = n}
          greatest ∧
        (ofWords order added).depth = greatest / 2 + 1) := by
  refine ⟨fun others hothers => ⟨fun houtline => ?_, fun hsame => ?_⟩, ?_, ?_, ?_, ?_⟩
  · have hlines := congrArg endedLines houtline
    rw [endedLines_outline h, endedLines_outline hothers] at hlines
    obtain ⟨hempty, hroot⟩ := outlineLines_inj hlines
    exact sameShape_ofWords hempty hroot
  · rw [outline, outline, hsame.hasEmptyWord_eq, ← Node.lines_unnumbered, hsame.root_eq,
      Node.lines_unnumbered]
  · rw [endedLines_outline h]
    rfl
  · rw [endedLines_outline h, length_outlineLines, nodeCount_eq_count]
  · intro hnone
    rw [nodeCount_eq_count, Node.count_eq_zero_iff] at hnone
    rw [depth, hnone, Node.height]
  · intro hsome
    rw [nodeCount_eq_count, Ne, Node.count_eq_zero_iff] at hsome
    have hheight := Node.height_pos hsome
    rw [endedLines_outline h]
    refine ⟨_, isGreatest_indentation_outlineLines hsome, ?_⟩
    rw [depth]
    omega

/-- Two orders of the same words, which have blanks and stars in them. -/
theorem outline_tells_tree_of_blanks_and_stars :
    (∀ word ∈ [[' ', '*'], ['*'], [], [' ']], '\n' ∉ word) ∧
      (∀ word ∈ [[], [' '], ['*'], [' ', '*']], '\n' ∉ word) ∧
      (ofWords .exact [[' ', '*'], ['*'], [], [' ']]).outline
        = (ofWords .exact [[], [' '], ['*'], [' ', '*']]).outline ∧
      (ofWords .exact [[' ', '*'], ['*'], [], [' ']]).SameShape
        (ofWords .exact [[], [' '], ['*'], [' ', '*']]) := by
  have hadded : ∀ word ∈ [[' ', '*'], ['*'], [], [' ']], '\n' ∉ word := by decide
  have hothers : ∀ word ∈ [[], [' '], ['*'], [' ', '*']], '\n' ∉ word := by decide
  have houtline : (ofWords .exact [[' ', '*'], ['*'], [], [' ']]).outline
      = (ofWords .exact [[], [' '], ['*'], [' ', '*']]).outline := by
    decide +kernel
  exact ⟨hadded, hothers, houtline, ((outline_tells_tree hadded).1 _ hothers).mp houtline⟩

end Tree

end Lexicon.Ternary
