import Lexicon.Proofs.Order.Laws
import Lexicon.Ternary.Node

namespace Lexicon.Ternary.Node

open Std

/-!
# Adding a word to a search tree

A word that is added is found from then on, in any spelling that compares equal, and no other
word is found that was not found before.

* `Ordered` — lesser characters stand on one side of a node and greater ones on the other.
* `Ordered.insert` — adding a word keeps the nodes in order.
* `contains_insert` — which words are found after a word was added.
* `isNew_eq`, `endCount_insert` — a word is counted exactly if it was not found.
-/

variable {order : WordOrder}

/-! ### Nodes in order -/

/-- The characters for one place of a word: those of the nodes that links to the sides reach. -/
def heads : Node → List Char
  | leaf => []
  | branch _ char _ lo _ hi => lo.heads ++ char :: hi.heads

/-- Each node stands between the characters to its sides. -/
def Ordered (order : WordOrder) : Node → Prop
  | leaf => True
  | branch _ char _ lo eq hi =>
    (∀ c ∈ lo.heads, order.compareChar c char = .lt) ∧
      (∀ c ∈ hi.heads, order.compareChar c char = .gt) ∧
      lo.Ordered order ∧ eq.Ordered order ∧ hi.Ordered order

theorem heads_spine (id : Nat) (c : Char) (rest : List Char) : (spine id c rest).heads = [c] := by
  cases rest <;> rfl

theorem ordered_spine (order : WordOrder) (id : Nat) (c : Char) (rest : List Char) :
    (spine id c rest).Ordered order := by
  induction rest generalizing id c with
  | nil => simp [spine, Ordered, heads]
  | cons d rest ih => simp [spine, Ordered, heads, ih]

/-- Adding a word brings in no first character but its own. -/
theorem mem_heads_insert {id : Nat} {node : Node} {c : Char} {rest : List Char} {d : Char}
    (h : d ∈ (node.insert order id c rest).heads) : d = c ∨ d ∈ node.heads := by
  fun_induction insert order id node c rest with
  | case1 c rest =>
    rw [heads_spine, List.mem_singleton] at h
    exact .inl h
  | case2 own char isEnd lo eq hi c rest hside ih =>
    simp only [heads, List.mem_append] at h ⊢
    tauto
  | case3 own char isEnd lo eq hi c rest hside ih =>
    simp only [heads, List.mem_append, List.mem_cons] at h ⊢
    tauto
  | case4 => exact .inr h
  | case5 => exact .inr h

/-- Adding a word keeps the nodes in order. -/
theorem Ordered.insert {node : Node} (h : node.Ordered order) (id : Nat) (c : Char)
    (rest : List Char) : (node.insert order id c rest).Ordered order := by
  fun_induction Node.insert order id node c rest with
  | case1 c rest => exact ordered_spine order id c rest
  | case2 own char isEnd lo eq hi c rest hside ih =>
    obtain ⟨hlo, hhi, hloOrdered, hrest⟩ := h
    refine ⟨fun d hd => ?_, hhi, ih hloOrdered, hrest⟩
    rcases mem_heads_insert hd with rfl | hd
    · exact hside
    · exact hlo d hd
  | case3 own char isEnd lo eq hi c rest hside ih =>
    obtain ⟨hlo, hhi, hloOrdered, heqOrdered, hhiOrdered⟩ := h
    refine ⟨hlo, fun d hd => ?_, hloOrdered, heqOrdered, ih hhiOrdered⟩
    rcases mem_heads_insert hd with rfl | hd
    · exact hside
    · exact hhi d hd
  | case4 => exact h
  | case5 own char isEnd lo eq hi c hside d rest ih =>
    obtain ⟨hlo, hhi, hloOrdered, heqOrdered, hhiOrdered⟩ := h
    exact ⟨hlo, hhi, hloOrdered, ih heqOrdered, hhiOrdered⟩

/-! ### Words that are found -/

/-- Equal words begin on the same side of any character. -/
theorem side_of_compare_eq {c d : Char} {rest query : List Char}
    (h : order.compare (c :: rest) (d :: query) = .eq) (char : Char) :
    order.compareChar c char = order.compareChar d char := by
  rw [WordOrder.compare_cons_cons, Ordering.then_eq_eq] at h
  exact TransCmp.congr_left h.1

theorem compare_beq_of_sides {c d : Char} (char : Char)
    (h : order.compareChar c char ≠ order.compareChar d char) (rest query : List Char) :
    (order.compare (c :: rest) (d :: query) == .eq) = false := by
  rw [beq_eq_false_iff_ne]
  exact fun heq => h (side_of_compare_eq heq char)

/-- Words whose first characters equal the same one compare by the rest. -/
theorem compare_of_same {c d char : Char} (hc : order.compareChar c char = .eq)
    (hd : order.compareChar d char = .eq) (rest query : List Char) :
    order.compare (c :: rest) (d :: query) = order.compare rest query := by
  have hcd : order.compareChar c d = .eq := TransCmp.eq_trans hc (OrientedCmp.eq_symm hd)
  rw [WordOrder.compare_cons_cons, hcd, Ordering.eq_then]

/-- A spine holds its own word only. -/
theorem contains_spine (order : WordOrder) (id : Nat) (c : Char) (rest : List Char) (d : Char)
    (query : List Char) :
    (spine id c rest).contains order d query
      = (order.compare (c :: rest) (d :: query) == .eq) := by
  have hself : ∀ c, order.compareChar c c = .eq := fun _ => ReflCmp.compare_self
  induction rest generalizing id c d query with
  | nil =>
    -- Both links to the sides of a spine are empty, so a query on either side is not found.
    by_cases hd : order.compareChar d c = .eq
    · rw [compare_of_same (hself c) hd]
      cases query <;> simp [spine, contains, hd]
    · rw [compare_beq_of_sides c (fun h => hd (h.symm.trans (hself c)))]
      cases hside : order.compareChar d c <;> simp_all [spine, contains]
  | cons e rest ih =>
    by_cases hd : order.compareChar d c = .eq
    · rw [compare_of_same (hself c) hd]
      cases query with
      | nil => simp [spine, contains, hd]
      | cons d' query =>
        simp only [spine, contains, hd]
        exact ih (id + 1) e d' query
    · rw [compare_beq_of_sides c (fun h => hd (h.symm.trans (hself c)))]
      cases hside : order.compareChar d c <;> simp_all [spine, contains]

/-- After a word was added, it is found in all its spellings, and all others as before. -/
theorem contains_insert (order : WordOrder) (id : Nat) (node : Node) (c : Char)
    (rest : List Char) (d : Char) (query : List Char) :
    (node.insert order id c rest).contains order d query
      = (node.contains order d query || order.compare (c :: rest) (d :: query) == .eq) := by
  -- A query on another side of the first node than the word never meets the change.
  fun_induction insert order id node c rest generalizing d query with
  | case1 c rest =>
    rw [contains_spine, contains, Bool.false_or]
  | case2 own char isEnd lo eq hi c rest hside ih =>
    by_cases hd : order.compareChar d char = .lt
    · simp only [contains, hd, ih]
    · rw [compare_beq_of_sides char (fun h => hd (h.symm.trans hside)), Bool.or_false]
      cases hother : order.compareChar d char <;> simp_all [contains]
  | case3 own char isEnd lo eq hi c rest hside ih =>
    by_cases hd : order.compareChar d char = .gt
    · simp only [contains, hd, ih]
    · rw [compare_beq_of_sides char (fun h => hd (h.symm.trans hside)), Bool.or_false]
      cases hother : order.compareChar d char <;> simp_all [contains]
  | case4 own char isEnd lo eq hi c hside =>
    by_cases hd : order.compareChar d char = .eq
    · rw [compare_of_same hside hd]
      cases query <;> simp [contains, hd]
    · rw [compare_beq_of_sides char (fun h => hd (h.symm.trans hside)), Bool.or_false]
      cases hother : order.compareChar d char <;> simp_all [contains]
  | case5 own char isEnd lo eq hi c hside e rest ih =>
    by_cases hd : order.compareChar d char = .eq
    · rw [compare_of_same hside hd]
      cases query with
      | nil => simp [contains, hd]
      | cons d' query => simp only [contains, hd, ih]
    · rw [compare_beq_of_sides char (fun h => hd (h.symm.trans hside)), Bool.or_false]
      cases hother : order.compareChar d char <;> simp_all [contains]

/-! ### Words that are counted -/

/-- A word is new if it is not found. -/
theorem isNew_eq (order : WordOrder) (node : Node) (c : Char) (rest : List Char) :
    node.isNew order c rest = !node.contains order c rest := by
  fun_induction contains order node c rest with
  | case1 => rfl
  | case2 own char isEnd lo eq hi c rest hside ih => simp only [isNew, hside, ih]
  | case3 own char isEnd lo eq hi c rest hside ih => simp only [isNew, hside, ih]
  | case4 own char isEnd lo eq hi c hside => simp only [isNew, hside]
  | case5 own char isEnd lo eq hi c hside d rest ih => simp only [isNew, hside, ih]

theorem endCount_spine (id : Nat) (c : Char) (rest : List Char) :
    (spine id c rest).endCount = 1 := by
  induction rest generalizing id c with
  | nil => rfl
  | cons d rest ih => simp [spine, endCount, ih]

/-- Adding a word marks one more node if the word is new. -/
theorem endCount_insert (order : WordOrder) (id : Nat) (node : Node) (c : Char)
    (rest : List Char) :
    (node.insert order id c rest).endCount = node.endCount + (node.isNew order c rest).toNat := by
  fun_induction insert order id node c rest with
  | case1 c rest => simp [endCount_spine, endCount, isNew]
  | case2 own char isEnd lo eq hi c rest hside ih =>
    simp only [endCount, isNew, hside, ih]
    omega
  | case3 own char isEnd lo eq hi c rest hside ih =>
    simp only [endCount, isNew, hside, ih]
    omega
  | case4 own char isEnd lo eq hi c hside =>
    simp only [endCount, isNew, hside]
    cases isEnd with
    | false => simp only [Bool.toNat_false, Bool.toNat_true, Bool.not_false]; omega
    | true => simp
  | case5 own char isEnd lo eq hi c hside d rest ih =>
    simp only [endCount, isNew, hside, ih]
    omega

end Lexicon.Ternary.Node
