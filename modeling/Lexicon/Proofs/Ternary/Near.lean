import Lexicon.Proofs.Ternary.Tree

namespace Lexicon.Ternary

/-!
# Words near a query

* `mismatches` — in how many places two words differ.
* `Node.mismatches_cons_le_iff` — a character takes its share of a budget.
* `Node.Ordered.near_eq_filter` — no subtree is left out that holds a word within the budget.
* `Tree.near_eq_filter` — a search near a query is a filter of the words of the tree.
-/

/-- The number of places where words have different characters, and of those that only one of
    them has. -/
def mismatches (a b : Word) : Nat :=
  (a.zip b).countP (fun (c, d) => c != d) + ((a.length : Int) - b.length).natAbs

@[simp] theorem mismatches_nil_left (b : Word) : mismatches [] b = b.length := by
  simp [mismatches]

@[simp] theorem mismatches_nil_right (a : Word) : mismatches a [] = a.length := by
  simp [mismatches]

theorem mismatches_cons_cons (c d : Char) (a b : Word) :
    mismatches (c :: a) (d :: b) = mismatches a b + if c = d then 0 else 1 := by
  have hlength : ((a.length : Int) + 1 - (b.length + 1)).natAbs
      = ((a.length : Int) - b.length).natAbs := by
    congr 1
    omega
  simp only [mismatches, List.zip_cons_cons, List.countP_cons, List.length_cons, Nat.cast_add,
    Nat.cast_one, hlength]
  by_cases h : c = d
  · simp [h]
  · simp only [bne_iff_ne, ne_eq, h, not_false_eq_true, if_true, if_false]
    omega

namespace Node

/-- A query goes on where its first character stands. -/
theorem sideOf_of_mem_head? {query : Word} {c : Char} (h : c ∈ query.head?) (char : Char) :
    sideOf query char = WordOrder.exact.compareChar c char := by
  cases query with
  | nil => simp at h
  | cons d query =>
    obtain rfl : d = c := by simpa using h
    exact (WordOrder.compareChar_eq .exact d char).symm

/-- A character stands at the side of a query only if it is its first one. -/
theorem sideOf_cons_eq_iff (c : Char) (rest : List Char) (char : Char) :
    sideOf (c :: rest) char = .eq ↔ char = c := by
  show compare c char = .eq ↔ _
  rw [Std.LawfulEqOrd.compare_eq_iff_eq, eq_comm]

/-- A word is within a budget if its first character leaves enough of it for the others. -/
theorem mismatches_cons_le_iff (char : Char) (word query : Word) (budget : Nat) :
    mismatches (char :: word) query ≤ budget ↔
      ∃ left, spend (sideOf query char) budget = some left ∧ mismatches word query.tail ≤ left := by
  -- A mismatch costs one, which must be left.
  have hcost : ∀ n, n + 1 ≤ budget ↔
      ∃ left, (if 0 < budget then some (budget - 1) else none) = some left ∧ n ≤ left := by
    intro n
    by_cases hbudget : 0 < budget
    · simp only [hbudget, if_true, Option.some.injEq, exists_eq_left']
      omega
    · simp only [hbudget, if_false, reduceCtorEq, false_and, exists_false, iff_false]
      omega
  cases query with
  | nil =>
    rw [mismatches_nil_right, List.length_cons, List.tail_nil, mismatches_nil_right]
    exact hcost word.length
  | cons c rest =>
    rw [mismatches_cons_cons, List.tail_cons]
    by_cases hchar : char = c
    · have hside := (sideOf_cons_eq_iff c rest char).mpr hchar
      simp [spend, hside, if_pos hchar]
    · have hside : (sideOf (c :: rest) char == .eq) = false := by
        rw [beq_eq_false_iff_ne, ne_eq, sideOf_cons_eq_iff]
        exact hchar
      simp only [spend, hside, if_neg hchar]
      exact hcost _

/-! ### What is left out -/

/-- Words of which none begins like a query have a mismatch at once. -/
theorem mismatches_pos_of_heads {node : Node} {query : Word}
    (h : ∀ c ∈ node.heads, c ∉ query.head?) : ∀ word ∈ node.words, 0 < mismatches word query := by
  intro word hword
  obtain ⟨c, rest, rfl, hc⟩ := exists_of_mem_words hword
  cases query with
  | nil => simp
  | cons d query =>
    have hne : c ≠ d := fun hcd => h c hc (by simp [hcd])
    rw [mismatches_cons_cons, if_neg hne]
    omega

/-- A side that is left out, since the budget is spent and the query is on another one, holds no
    word within the budget. -/
theorem filter_side {node : Node} {char : Char} {side : Ordering} (query : Word) (budget : Nat)
    (h : ∀ c ∈ node.heads, WordOrder.exact.compareChar c char = side) :
    (if 0 < budget || sideOf query char == side then
        node.words.filter (mismatches · query ≤ budget) else [])
      = node.words.filter (mismatches · query ≤ budget) := by
  split_ifs with hvisited
  · rfl
  · simp only [Bool.or_eq_true, decide_eq_true_eq, beq_iff_eq, not_or, not_lt] at hvisited
    obtain ⟨hbudget, hside⟩ := hvisited
    -- Nothing is left for a mismatch, and none of the words begins like the query.
    have hheads : ∀ c ∈ node.heads, c ∉ query.head? :=
      fun c hc hquery => hside ((sideOf_of_mem_head? hquery char).trans (h c hc))
    refine (List.filter_eq_nil_iff.mpr fun word hword => ?_).symm
    have := mismatches_pos_of_heads hheads word hword
    simp only [decide_eq_true_eq]
    omega

/-- The words that begin with a character are those within what it leaves of the budget. -/
theorem filter_below (char : Char) (query : Word) (budget : Nat) (words : List Word) :
    (words.map (char :: ·)).filter (mismatches · query ≤ budget) =
      match spend (sideOf query char) budget with
      | none => []
      | some left => (words.filter (mismatches · query.tail ≤ left)).map (char :: ·) := by
  rw [List.filter_map]
  cases hspend : spend (sideOf query char) budget with
  | none =>
    rw [List.map_eq_nil_iff, List.filter_eq_nil_iff]
    intro word _
    simp [mismatches_cons_le_iff, hspend]
  | some left =>
    congr 1
    refine List.filter_congr fun word _ => ?_
    simp [mismatches_cons_le_iff, hspend]

/-- A search near a query lists the words within the budget, and leaves none out. -/
theorem Ordered.near_eq_filter {node : Node} (h : node.Ordered .exact) (query : Word)
    (budget : Nat) :
    node.near query budget = node.words.filter (mismatches · query ≤ budget) := by
  induction node generalizing query budget with
  | leaf => rfl
  | branch id char isEnd lo eq hi ihlo iheq ihhi =>
    obtain ⟨hlo, hhi, hloOrdered, heqOrdered, hhiOrdered⟩ := h
    -- The words of a node are filtered part by part: both sides, and those between them, which
    -- begin with the character.
    rw [near, ihlo hloOrdered, filter_side query budget hlo, ihhi hhiOrdered,
      filter_side query budget hhi, words_branch, List.filter_append, List.filter_append,
      filter_below]
    cases spend (sideOf query char) budget with
    | none => rfl
    | some left =>
      simp only [iheq heqOrdered]
      cases isEnd with
      | false => simp
      | true =>
        by_cases hleft : query.tail.length ≤ left <;>
          simp [-List.length_tail, hleft]

end Node

namespace Tree

/-- A search near a query is a filter of the words of the tree. -/
theorem near_eq_filter (added : List Word) (query : Word) (distance : Nat) :
    (ofWords .exact added).near query distance
      = .ok ((ofWords .exact added).words.filter (mismatches · query ≤ distance)) := by
  have hroot := (sound_ofWords .exact added).ordered
  rw [order_ofWords] at hroot
  have hempty : (ofWords .exact added).emptyWordIf (query.length ≤ distance)
      = ((ofWords .exact added).emptyWordIf true).filter (mismatches · query ≤ distance) := by
    unfold emptyWordIf
    cases (ofWords .exact added).hasEmptyWord with
    | false => rfl
    | true => simp [List.filter_cons]
  rw [near, order_ofWords, words, List.filter_append, ← hempty, ← hroot.near_eq_filter]
  rfl

/-- **Searches near a query.** In a tree that tells cases apart, a search lists exactly the words
    within the distance, once each and in the order of the tree. -/
theorem near_ofWords (added : List Word) (query : Word) (distance : Nat) :
    (ofWords .exact added).near query distance
        = .ok ((ofWords .exact added).words.filter (mismatches · query ≤ distance)) ∧
      ((ofWords .exact added).words.filter (mismatches · query ≤ distance)).Nodup := by
  have hnodup := (sound_ofWords .exact added).nodup_words
  constructor
  · exact near_eq_filter added query distance
  · exact hnodup.filter _

end Tree

end Lexicon.Ternary
