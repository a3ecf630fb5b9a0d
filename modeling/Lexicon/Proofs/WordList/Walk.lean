import Lexicon.Proofs.MedianOrder.Permutation
import Lexicon.Proofs.WordList.Holds
import Lexicon.WordList.Walk

namespace Lexicon

/-!
# Walks over words

A walk over a list, in either order, comes to every word of it once.

* `Walk.indices` — the indices that a walk has yet to visit.
* `Walk.indices_ofList_perm` — a walk over a list visits all its indices.
* `WordList.Holds.fold` — a walk feeds the words at its indices.
* `Walk.words`, `Walk.fold_eq` — the words that a walk reads, and that it feeds these.
* `WordList.Holds.fold_ascending` — in ascending order it feeds the words as they stand.
* `WordList.Holds.fold_ofList` — a walk over a list feeds a permutation of its words.
-/

namespace Walk

/-- The indices still to be visited, in order. -/
def indices : Walk → List Nat
  | ascending next stop => List.range' next (stop - next)
  | median visit => visit.rest

theorem indices_of_next?_none {walk : Walk} (h : walk.next? = none) : walk.indices = [] := by
  cases walk with
  | ascending next stop =>
    simp only [next?, ite_eq_right_iff, reduceCtorEq, imp_false] at h
    rw [indices, Nat.sub_eq_zero_of_le (not_lt.mp h), List.range'_zero]
  | median visit =>
    exact MedianOrder.rest_of_next?_none (Option.map_eq_none_iff.mp h)

/-- A walk goes on with its next index and then with those of the walk after it. -/
theorem indices_of_next?_some {walk after : Walk} {index : Nat}
    (h : walk.next? = some (index, after)) : walk.indices = index :: after.indices := by
  cases walk with
  | ascending next stop =>
    simp only [next?, Option.ite_none_right_eq_some, Option.some.injEq, Prod.mk.injEq] at h
    obtain ⟨hlt, rfl, rfl⟩ := h
    -- The range of indices is one longer than that of the walk after this step.
    have hrange : stop - next = (stop - (next + 1)) + 1 := by omega
    rw [indices, hrange, List.range'_succ]
    rfl
  | median visit =>
    obtain ⟨⟨index', after'⟩, hnext, heq⟩ := Option.map_eq_some_iff.mp h
    obtain ⟨rfl, rfl⟩ := Prod.mk.inj heq
    exact MedianOrder.rest_of_next?_some hnext

variable {L : Type} [WordList L]

/-- A walk over a list visits each of its indices once. -/
theorem indices_ofList_perm (median : Bool) (list : L) :
    (ofList median list).indices.Perm (List.range (WordList.size list)) := by
  cases median with
  | true => exact MedianOrder.indices_perm _
  | false =>
    show (List.range' 0 (WordList.size list - 0)).Perm _
    rw [Nat.sub_zero, List.range_eq_range']

/-! ### Words that are read -/

/-- The words that a walk reads, unless one of them cannot be read. -/
def words (walk : Walk) (list : L) : Except ListError (List Word) × L :=
  walk.fold (fun read word => read ++ [word]) [] list

theorem fold_of_next?_none {β : Type} (add : β → Word → β) (acc : β) {walk : Walk}
    (h : walk.next? = none) (list : L) : walk.fold add acc list = (.ok acc, list) := by
  unfold Walk.fold
  split
  · rfl
  · next hnext => simp [h] at hnext

/-- A walk reads its next word, and goes on if it can be read. -/
theorem fold_of_next?_some {β : Type} (add : β → Word → β) (acc : β) {walk after : Walk}
    {index : Nat} (h : walk.next? = some (index, after)) (list : L) :
    walk.fold add acc list =
      match WordList.fetch list index with
      | (.error e, list) => (.error e, list)
      | (.ok word, list) => after.fold add (add acc word) list := by
  rw [Walk.fold]
  split
  · next hnext => simp [h] at hnext
  · next hnext =>
    obtain ⟨rfl, rfl⟩ := Prod.mk.inj (Option.some.inj (h.symm.trans hnext))
    rfl

/-- What a walk makes of the words, it makes of those that it reads. -/
theorem fold_foldl {β : Type} (add : β → Word → β) (acc : β) (read : List Word) (walk : Walk)
    (list : L) :
    walk.fold add (read.foldl add acc) list
      = ((walk.fold (fun read word => read ++ [word]) read list).1.map (·.foldl add acc),
        (walk.fold (fun read word => read ++ [word]) read list).2) := by
  fun_induction Walk.fold (fun read word => read ++ [word]) read walk list with
  | case1 read walk list hnext => exact fold_of_next?_none _ _ hnext list
  | case2 read walk list index after hnext hleft e later hfetch =>
    rw [fold_of_next?_some _ _ hnext, hfetch]
    rfl
  | case3 read walk list index after hnext hleft word later hfetch ih =>
    rw [fold_of_next?_some _ _ hnext, hfetch, ← ih, List.foldl_concat]

/-- A walk feeds the words that it reads. -/
theorem fold_eq {β : Type} (add : β → Word → β) (acc : β) (walk : Walk) (list : L) :
    walk.fold add acc list = ((walk.words list).1.map (·.foldl add acc), (walk.words list).2) :=
  fold_foldl add acc [] walk list

end Walk

namespace WordList

variable {L : Type} [WordList L] {list : L} {order : WordOrder} {words : List Word} {β : Type}

/-- A walk feeds the words at its indices, as long as they are in range. -/
theorem Holds.fold (h : Holds list order words) (add : β → Word → β) (acc : β) (walk : Walk)
    (hindices : ∀ index ∈ walk.indices, index < words.length) :
    ∃ after, walk.fold add acc list
      = (.ok ((walk.indices.filterMap (words[·]?)).foldl add acc), after) := by
  fun_induction Walk.fold add acc walk list with
  | case1 acc walk list hnext =>
    rw [Walk.indices_of_next?_none hnext]
    exact ⟨list, rfl⟩
  | case2 acc walk list index after hnext hleft e later hfetch =>
    -- No index of the walk is out of range, so no fetch fails.
    rw [Walk.indices_of_next?_some hnext] at hindices
    cases (h.of_fetch_eq (hindices index List.mem_cons_self) hfetch).1
  | case3 acc walk list index after hnext hleft word later hfetch ih =>
    rw [Walk.indices_of_next?_some hnext] at hindices ⊢
    have hindex := hindices index List.mem_cons_self
    obtain ⟨rfl, hlater⟩ := h.of_fetch_ok hindex hfetch
    obtain ⟨last, hlast⟩ := ih hlater fun i hi => hindices i (List.mem_cons_of_mem _ hi)
    refine ⟨last, ?_⟩
    rw [hlast, List.filterMap_cons, List.getElem?_eq_getElem hindex]
    rfl

/-- The words at all indices are all words. -/
theorem filterMap_range_getElem? (words : List Word) :
    (List.range words.length).filterMap (words[·]?) = words := by
  induction words with
  | nil => rfl
  | cons word words ih =>
    rw [List.length_cons, List.range_succ_eq_map, List.filterMap_cons, List.filterMap_map]
    exact congrArg (word :: ·) ih

/-- A walk in ascending order feeds the words as they stand in the list. -/
theorem Holds.fold_ascending (h : Holds list order words) (add : β → Word → β) (acc : β) :
    ∃ after, (Walk.ofList false list).fold add acc list = (.ok (words.foldl add acc), after) := by
  have hindices : (Walk.ofList false list).indices = List.range words.length := by
    show List.range' 0 (size list - 0) = _
    rw [Nat.sub_zero, h.size_now, List.range_eq_range']
  obtain ⟨after, hfold⟩ := h.fold add acc (Walk.ofList false list) fun index hindex =>
    List.mem_range.mp (hindices ▸ hindex)
  rw [hindices, filterMap_range_getElem?] at hfold
  exact ⟨after, hfold⟩

/-- A walk in ascending order reads the words of the list. -/
theorem Holds.words_ascending (h : Holds list order words) :
    ((Walk.ofList false list).words list).1 = .ok words := by
  obtain ⟨after, hread⟩ := h.fold_ascending (fun read word => read ++ [word]) []
  rw [Walk.words, hread, List.foldl_append_eq_append, List.nil_append, ← List.flatMap_def,
    List.flatMap_singleton']

/-- A walk over a list, in either order, feeds all its words, each once. -/
theorem Holds.fold_ofList (h : Holds list order words) (median : Bool) (add : β → Word → β)
    (acc : β) :
    ∃ (visited : List Word) (after : L), visited.Perm words ∧
      (Walk.ofList median list).fold add acc list = (.ok (visited.foldl add acc), after) := by
  have hindices := Walk.indices_ofList_perm median list
  rw [h.size_now] at hindices
  have hlt : ∀ index ∈ (Walk.ofList median list).indices, index < words.length :=
    fun index hindex => List.mem_range.mp (hindices.subset hindex)
  obtain ⟨after, hfold⟩ := h.fold add acc _ hlt
  refine ⟨_, after, ?_, hfold⟩
  -- Indices in another order give the words in another order.
  have hvisited := hindices.filterMap (words[·]?)
  rwa [filterMap_range_getElem?] at hvisited

end WordList

end Lexicon
