import Lexicon.Proofs.WordList.Disk
import Lexicon.Proofs.WordList.Uses

namespace Lexicon

/-!
# Lists on disk until they are closed

A list on disk is its words until it is closed, and nothing but their number from then on.

* `Shut` — a closed list: no word can be read, and nothing changes it.
* `Shut.binarySearch`, `Shut.ofList`, `Shut.items` — what searches, trees and walks make of it.
* `LastsUntilClosed` — what a list answers after any uses, before and after the first close.
* `Lifetime`, `Lifetime.lasts` — what fetches and closes must keep for that.
* `disk_lists_last_until_closed` — lists in open files and in mapped memory last that long.
-/

variable {L : Type} [WordList L]

/-! ### Closed lists -/

/-- A closed list of the given size, which stays as it is. -/
structure Shut (list : L) (size : Nat) : Prop where
  /-- The size is still known. -/
  size_eq : WordList.size list = size
  /-- No word can be read, and an index out of range is still told apart. -/
  fetch_eq : ∀ index, WordList.fetch list index
    = (.error (if index < size then .closed else .outOfRange index size), list)
  /-- It is closed already. -/
  close_eq : WordList.close list = list

namespace Shut

variable {list : L} {size : Nat}

theorem fetch_of_lt (h : Shut list size) {index : Nat} (hindex : index < size) :
    WordList.fetch list index = (.error .closed, list) := by
  rw [h.fetch_eq, if_pos hindex]

/-- A search in a closed list fails at the first word that it looks at. -/
theorem binarySearch (h : Shut list size) (query : Word) :
    (Lexicon.binarySearch list query).1 = if 0 < size then .error .closed else .ok none := by
  rw [Lexicon.binarySearch, searchBetween, h.size_eq]
  split_ifs with hpos
  · have hmiddle : 0 + (size - 0) / 2 < size := by omega
    simp only [h.fetch_of_lt hmiddle]
  · rfl

/-- A walk over a closed list feeds no word. -/
theorem fold {β : Type} (h : Shut list size) (add : β → Word → β) (acc : β) {walk : Walk}
    (hindices : ∀ index ∈ walk.indices, index < size) :
    (walk.fold add acc list).1 = if walk.indices = [] then .ok acc else .error .closed := by
  unfold Walk.fold
  split
  · next hnext => rw [if_pos (Walk.indices_of_next?_none hnext)]
  · next index after hnext =>
    rw [Walk.indices_of_next?_some hnext] at hindices ⊢
    rw [h.fetch_of_lt (hindices index List.mem_cons_self)]
    rfl

/-- No tree can be built from a closed list, but from an empty one. -/
theorem ofList (h : Shut list size) (median : Bool) :
    (Ternary.Tree.ofList median list).1
      = if 0 < size then .error .closed
        else .ok (Ternary.Tree.empty (WordList.order list)) := by
  have hwithin := InUse.within_ofList median list
  rw [h.size_eq] at hwithin
  have hlength := hwithin.given_add_length
  dsimp only at hlength
  rw [Ternary.Tree.ofList, h.fold _ _ hwithin.lt_size]
  by_cases hpos : 0 < size
  · have hne : (Walk.ofList median list).indices ≠ [] := List.length_pos_iff.mp (by omega)
    rw [if_pos hpos, if_neg hne]
  · have hnil : (Walk.ofList median list).indices = [] := List.length_eq_zero_iff.mp (by omega)
    rw [if_neg hpos, if_pos hnil]

/-- A walk over a closed list still gives as many items as it has indices before it. -/
theorem items (h : Shut list size) {walk : Walk} (hindices : ∀ index ∈ walk.indices, index < size) :
    walk.items list = List.replicate walk.indices.length (.error .closed) := by
  fun_induction Walk.items walk list with
  | case1 walk list hstep =>
    rw [Walk.indices_of_next?_none (Walk.step_eq_none_iff.mp hstep)]
    rfl
  | case2 walk list item after list' hstep hleft ih =>
    obtain ⟨index, hnext, hfetch⟩ := Walk.step_eq_some_iff.mp hstep
    rw [Walk.indices_of_next?_some hnext] at hindices ⊢
    rw [h.fetch_of_lt (hindices index List.mem_cons_self)] at hfetch
    obtain ⟨rfl, rfl⟩ := Prod.mk.inj hfetch
    rw [ih h fun i hi => hindices i (List.mem_cons_of_mem _ hi)]
    rfl

/-- Nothing that is done with a closed list changes it. -/
theorem apply {state : InUse L} (h : Shut state.list size) (use : Use) :
    (state.apply use).list = state.list := by
  by_cases huse : use = .close
  · rw [huse]
    exact h.close_eq
  · -- All other uses do no more to a list than to read from it.
    have hread : ∀ l, l = state.list → ∀ index, (WordList.fetch l index).2 = state.list := by
      rintro l rfl index
      rw [h.fetch_eq]
    exact InUse.apply_keeps (P := (· = state.list)) hread rfl huse

end Shut

/-! ### Before and after the first close -/

/-- A list that has the given words until it is closed, and only their number from then on,
    whatever is done with it and in whatever order. -/
structure LastsUntilClosed (list : L) (sampledOf : L → OffsetIndex) (order : WordOrder)
    (words : List Word) : Prop where
  /-- The order never changes. -/
  order_eq : ∀ uses, WordList.order (InUse.after list uses).list = order
  /-- The size never changes. -/
  size_eq : ∀ uses, WordList.size (InUse.after list uses).list = words.length
  /-- The kept offsets never change. -/
  sampled_eq : ∀ uses, sampledOf (InUse.after list uses).list = sampledOf list
  /-- No index is ever in range that is not one of a word. -/
  fetch_of_le : ∀ uses index, words.length ≤ index →
    (WordList.fetch (InUse.after list uses).list index).1
      = .error (.outOfRange index words.length)
  /-- Before the first close, the words are read. -/
  fetch_open : ∀ uses, .close ∉ uses → ∀ index (hindex : index < words.length),
    (WordList.fetch (InUse.after list uses).list index).1 = .ok words[index]
  /-- From then on, none is. -/
  fetch_closed : ∀ uses, .close ∈ uses → ∀ index < words.length,
    (WordList.fetch (InUse.after list uses).list index).1 = .error .closed
  /-- Another close changes nothing. -/
  close_closed : ∀ uses, .close ∈ uses →
    WordList.close (InUse.after list uses).list = (InUse.after list uses).list
  /-- A search fails, if there are words to look at. -/
  search_closed : ∀ uses, .close ∈ uses → ∀ query,
    (binarySearch (InUse.after list uses).list query).1
      = if 0 < words.length then .error .closed else .ok none
  /-- Building a tree fails, if there are words to add. -/
  tree_closed : ∀ uses, .close ∈ uses → ∀ median,
    (Ternary.Tree.ofList median (InUse.after list uses).list).1
      = if 0 < words.length then .error .closed else .ok (Ternary.Tree.empty order)
  /-- Every walk, begun before or after the close, gives the rest of its items, which are errors. -/
  items_closed : ∀ uses, .close ∈ uses → ∀ underway ∈ (InUse.after list uses).walks,
    underway.given ≤ words.length ∧
      underway.walk.items (InUse.after list uses).list
        = List.replicate (words.length - underway.given) (.error .closed)

/-- What a list is as long as it is open, and the list that every close leaves. -/
structure Lifetime (IsOpen : L → Prop) (shut : L) (sampledOf : L → OffsetIndex)
    (order : WordOrder) (sampled : OffsetIndex) (words : List Word) : Prop where
  /-- An open list has the order. -/
  order_open : ∀ l, IsOpen l → WordList.order l = order
  /-- An open list has the size. -/
  size_open : ∀ l, IsOpen l → WordList.size l = words.length
  /-- An open list has the offsets. -/
  sampled_open : ∀ l, IsOpen l → sampledOf l = sampled
  /-- An open list has the words. -/
  answer_open : ∀ l, IsOpen l → ∀ index, (WordList.fetch l index).1 = answerAt words index
  /-- A list stays open when a word is read. -/
  read_open : ∀ l, IsOpen l → ∀ index, IsOpen (WordList.fetch l index).2
  /-- A close leaves the closed list. -/
  close_open : ∀ l, IsOpen l → WordList.close l = shut
  /-- The closed list stays closed. -/
  isShut : Shut shut words.length
  /-- The closed list has the order. -/
  order_shut : WordList.order shut = order
  /-- The closed list has the offsets. -/
  sampled_shut : sampledOf shut = sampled

namespace Lifetime

variable {IsOpen : L → Prop} {shut list : L} {sampledOf : L → OffsetIndex} {order : WordOrder}
  {sampled : OffsetIndex} {words : List Word}

/-- After any uses, a list is open or closed, as there was no close or some. -/
theorem list_after (h : Lifetime IsOpen shut sampledOf order sampled words) (hlist : IsOpen list)
    (uses : List Use) :
    (.close ∉ uses → IsOpen (InUse.after list uses).list) ∧
      (.close ∈ uses → (InUse.after list uses).list = shut) := by
  -- The induction is on the last use, for the first close decides.
  induction uses using List.reverseRecOn with
  | nil => exact ⟨fun _ => hlist, fun hclose => nomatch hclose⟩
  | append_singleton uses use ih =>
    rw [InUse.after_concat, List.mem_append, List.mem_singleton]
    by_cases hclosed : Use.close ∈ uses
    · -- What is done after a close changes nothing any more.
      have hshut := ih.2 hclosed
      have hstays : Shut (InUse.after list uses).list words.length := hshut ▸ h.isShut
      exact ⟨fun hopen => absurd (.inl hclosed) hopen, fun _ => (hstays.apply use).trans hshut⟩
    · -- The list has been open so far, and is closed only by a close that comes now.
      have hopen := ih.1 hclosed
      constructor
      · intro huse
        exact InUse.apply_keeps h.read_open hopen fun hlast => huse (.inr hlast.symm)
      · rintro (hmem | rfl)
        · exact absurd hmem hclosed
        · exact h.close_open _ hopen

/-- After a close, the list is closed. -/
theorem shut_after (h : Lifetime IsOpen shut sampledOf order sampled words) (hlist : IsOpen list)
    {uses : List Use} (hclosed : .close ∈ uses) :
    Shut (InUse.after list uses).list words.length := by
  rw [(h.list_after hlist uses).2 hclosed]
  exact h.isShut

/-- Open or closed, a list has its order, size and offsets. -/
theorem fixed_after (h : Lifetime IsOpen shut sampledOf order sampled words) (hlist : IsOpen list)
    (uses : List Use) :
    WordList.order (InUse.after list uses).list = order ∧
      WordList.size (InUse.after list uses).list = words.length ∧
      sampledOf (InUse.after list uses).list = sampled := by
  obtain ⟨hopen, hshut⟩ := h.list_after hlist uses
  by_cases hclosed : Use.close ∈ uses
  · rw [hshut hclosed]
    exact ⟨h.order_shut, h.isShut.size_eq, h.sampled_shut⟩
  · have hstill := hopen hclosed
    exact ⟨h.order_open _ hstill, h.size_open _ hstill, h.sampled_open _ hstill⟩

/-- After any uses, all walks are walks within the list. -/
theorem walks_after (h : Lifetime IsOpen shut sampledOf order sampled words) (hlist : IsOpen list)
    (uses : List Use) :
    ∀ underway ∈ (InUse.after list uses).walks, underway.Within words.length := by
  induction uses using List.reverseRecOn with
  | nil => exact fun underway hunderway => nomatch hunderway
  | append_singleton uses use ih =>
    rw [InUse.after_concat]
    exact InUse.walks_within (h.fixed_after hlist uses).2.1 ih use

/-- A list of this kind lasts until it is closed. -/
theorem lasts (h : Lifetime IsOpen shut sampledOf order sampled words) (hlist : IsOpen list) :
    LastsUntilClosed list sampledOf order words where
  order_eq uses := (h.fixed_after hlist uses).1
  size_eq uses := (h.fixed_after hlist uses).2.1
  sampled_eq uses := (h.fixed_after hlist uses).2.2.trans (h.sampled_open list hlist).symm
  fetch_of_le uses index hindex := by
    by_cases hclosed : Use.close ∈ uses
    · rw [(h.shut_after hlist hclosed).fetch_eq, if_neg (Nat.not_lt.mpr hindex)]
    · have hopen := (h.list_after hlist uses).1 hclosed
      rw [h.answer_open _ hopen, answerAt_of_le hindex]
  fetch_open uses hclosed index hindex := by
    have hopen := (h.list_after hlist uses).1 hclosed
    rw [h.answer_open _ hopen, answerAt_of_lt hindex]
  fetch_closed uses hclosed index hindex := by
    rw [(h.shut_after hlist hclosed).fetch_of_lt hindex]
  close_closed uses hclosed := (h.shut_after hlist hclosed).close_eq
  search_closed uses hclosed query := (h.shut_after hlist hclosed).binarySearch query
  tree_closed uses hclosed median := by
    rw [(h.shut_after hlist hclosed).ofList median, (h.fixed_after hlist uses).1]
  items_closed uses hclosed underway hunderway := by
    -- The items that a walk gave before the close and those that it still gives are all indices.
    have hwithin := h.walks_after hlist uses underway hunderway
    have hcount := hwithin.given_add_length
    rw [(h.shut_after hlist hclosed).items hwithin.lt_size]
    refine ⟨by omega, ?_⟩
    rw [← hcount, Nat.add_sub_cancel_left]

end Lifetime

/-! ### Lists on disk -/

theorem Stored.sampled_fetch (list : Stored) (index : Nat) :
    (list.fetch index).2.sampled = list.sampled := by
  unfold Stored.fetch
  split_ifs
  · rfl
  · cases list.file with
    | none => rfl
    | some file => dsimp only; split <;> rfl

/-- A closed list in a file knows its size, and tells indices out of range apart. -/
theorem Stored.shut_mk (order : WordOrder) (size : Nat) (sampled : OffsetIndex) :
    Shut (⟨order, size, sampled, none⟩ : Stored) size where
  size_eq := rfl
  fetch_eq index := by
    show Stored.fetch _ index = _
    unfold Stored.fetch
    by_cases hindex : index < size
    · rw [if_pos hindex, if_neg (Nat.not_le.mpr hindex)]
    · rw [if_neg hindex, if_pos (Nat.not_lt.mp hindex)]
  close_eq := rfl

/-- A closed list in mapped memory does as well. -/
theorem Mapped.shut_mk (order : WordOrder) (size : Nat) (sampled : OffsetIndex) :
    Shut (⟨order, size, sampled, none⟩ : Mapped) size where
  size_eq := rfl
  fetch_eq index := by
    show (Mapped.get _ index, _) = _
    unfold Mapped.get
    by_cases hindex : index < size
    · rw [if_pos hindex, if_neg (Nat.not_le.mpr hindex)]
    · rw [if_neg hindex, if_pos (Nat.not_lt.mp hindex)]
  close_eq := rfl

/-- The lifetime of a list in an open file. -/
theorem Stored.lifetime (order : WordOrder) (contents : Bytes) (found : List (Nat × Word))
    (sampled : OffsetIndex) :
    Lifetime (fun l : Stored => l.Reads order contents found ∧ l.sampled = sampled)
      ⟨order, (found.map Prod.snd).length, sampled, none⟩ Stored.sampled order sampled
      (found.map Prod.snd) where
  order_open l hl := hl.1.order_eq
  size_open l hl := hl.1.indexes.length_words
  sampled_open l hl := hl.2
  answer_open l hl index := (hl.1.fetch index).1
  read_open l hl index := ⟨(hl.1.fetch index).2, (l.sampled_fetch index).trans hl.2⟩
  close_open l hl := by
    obtain ⟨hreads, hsampled⟩ := hl
    show Stored.close l = _
    rw [Stored.close, hreads.order_eq, hreads.indexes.length_words, hsampled]
  isShut := Stored.shut_mk order _ sampled
  order_shut := rfl
  sampled_shut := rfl

/-- The lifetime of a list in mapped memory. -/
theorem Mapped.lifetime (order : WordOrder) (contents : Bytes) (found : List (Nat × Word))
    (sampled : OffsetIndex) :
    Lifetime (fun l : Mapped => l.Reads order contents found ∧ l.sampled = sampled)
      ⟨order, (found.map Prod.snd).length, sampled, none⟩ Mapped.sampled order sampled
      (found.map Prod.snd) where
  order_open l hl := hl.1.order_eq
  size_open l hl := hl.1.indexes.length_words
  sampled_open l hl := hl.2
  answer_open l hl index := hl.1.get index
  read_open l hl index := hl
  close_open l hl := by
    obtain ⟨hreads, hsampled⟩ := hl
    show Mapped.close l = _
    rw [Mapped.close, hreads.order_eq, hreads.indexes.length_words, hsampled]
  isShut := Mapped.shut_mk order _ sampled
  order_shut := rfl
  sampled_shut := rfl

/-- **Lists on disk until they are closed.** Whatever the share of kept offsets is, a list on an
    open file and one on mapped bytes have the words of the file until they are closed, and only
    their number from then on, whatever is done with them in whatever order. -/
theorem disk_lists_last_until_closed (order : WordOrder) (percent : Int) (contents : Bytes) :
    (∀ list, Stored.ofContents order percent contents = .ok list →
        ∃ words, Source.words [contents] = .ok words ∧
          LastsUntilClosed list Stored.sampled order words) ∧
      ∀ list, Mapped.ofContents order percent contents = .ok list →
        ∃ words, Source.words [contents] = .ok words ∧
          LastsUntilClosed list Mapped.sampled order words := by
  constructor
  · intro list hlist
    obtain ⟨found, hreads⟩ := Stored.reads_of_ofContents hlist
    have hlifetime := Stored.lifetime order contents found list.sampled
    exact ⟨found.map Prod.snd, hreads.indexes.words_eq, hlifetime.lasts ⟨hreads, rfl⟩⟩
  · intro list hlist
    obtain ⟨found, hreads⟩ := Mapped.reads_of_ofContents hlist
    have hlifetime := Mapped.lifetime order contents found list.sampled
    exact ⟨found.map Prod.snd, hreads.indexes.words_eq, hlifetime.lasts ⟨hreads, rfl⟩⟩

/-- Lists of lines with every kind of ending, and of no lines at all. -/
theorem disk_lists_last_on_mixed_lines :
    (∃ list words, Stored.ofContents .exact 50 mixedLines = .ok list ∧
        Source.words [mixedLines] = .ok words ∧
        LastsUntilClosed list Stored.sampled .exact words) ∧
      ∃ list words, Mapped.ofContents .exact 50 [] = .ok list ∧
        Source.words [[]] = .ok words ∧ LastsUntilClosed list Mapped.sampled .exact words := by
  obtain ⟨stored, hstored⟩ := exists_eq_ok
    (show (Stored.ofContents .exact 50 mixedLines).isOk = true by decide +kernel)
  obtain ⟨mapped, hmapped⟩ := exists_eq_ok
    (show (Mapped.ofContents .exact 50 []).isOk = true by decide +kernel)
  obtain ⟨words, hwords⟩ := (disk_lists_last_until_closed .exact 50 mixedLines).1 stored hstored
  obtain ⟨words', hwords'⟩ := (disk_lists_last_until_closed .exact 50 []).2 mapped hmapped
  exact ⟨⟨stored, words, hstored, hwords⟩, ⟨mapped, words', hmapped, hwords'⟩⟩

end Lexicon
