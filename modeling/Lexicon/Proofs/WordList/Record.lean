import Lexicon.Proofs.WordList.Holds

namespace Lexicon

/-!
# Word lists that keep a record

What a procedure asks of a list shows when it is given a list that writes down what it is asked.

* `WordList.transcript` — the answers of a list at some indices, one after the other.
* `Recorded` — a list beside the record of what has been read from it.
* `Recorded.Since` — the record is the transcript of a list, and misses nothing.
* `WordList.Gives` — a list that gives words as long as nothing else is asked of it.
-/

/-- An index that a list was asked at, and the answer that it gave. -/
abbrev Reply := Nat × Except ListError Word

namespace WordList

variable {L : Type} [WordList L]

/-- What a list answers at some indices, one after the other. -/
def transcript (list : L) : List Nat → List Reply
  | [] => []
  | index :: later => (index, (fetch list index).1) :: transcript (fetch list index).2 later

theorem afterFetches_concat (list : L) (asked : List Nat) (index : Nat) :
    afterFetches list (asked ++ [index]) = (fetch (afterFetches list asked) index).2 :=
  List.foldl_append

theorem transcript_concat (list : L) (asked : List Nat) (index : Nat) :
    transcript list (asked ++ [index])
      = transcript list asked ++ [(index, (fetch (afterFetches list asked) index).1)] := by
  induction asked generalizing list with
  | nil => rfl
  | cons first asked ih => exact congrArg _ (ih (fetch list first).2)

/-- An answer of a transcript is that of the list after all that was asked before. -/
theorem exists_of_mem_transcript {list : L} {asked : List Nat} {index : Nat}
    {answer : Except ListError Word} (h : (index, answer) ∈ transcript list asked) :
    ∃ earlier later, asked = earlier ++ index :: later ∧
      answer = (fetch (afterFetches list earlier) index).1 := by
  induction asked generalizing list with
  | nil => exact nomatch h
  | cons first asked ih =>
    rcases List.mem_cons.mp h with hfirst | hlater
    · -- Nothing was asked before the first question.
      obtain ⟨rfl, rfl⟩ := Prod.mk.inj hfirst
      exact ⟨[], asked, rfl, rfl⟩
    · obtain ⟨earlier, later, rfl, rfl⟩ := ih hlater
      exact ⟨first :: earlier, later, rfl, rfl⟩

/-! ### Lists that give words -/

/-- A list that gives the word at every index below its size, as long as it is not asked at any
    other. -/
structure Gives (list : L) (words : List Word) : Prop where
  /-- The size is the number of the words. -/
  size_eq : size list = words.length
  /-- Every answer below the size is a word. -/
  fetch_eq : ∀ earlier, (∀ index ∈ earlier, index < words.length) →
    ∀ index (h : index < words.length),
      (fetch (afterFetches list earlier) index).1 = .ok words[index]

theorem Holds.gives {list : L} {order : WordOrder} {words : List Word}
    (h : Holds list order words) : Gives list words where
  size_eq := h.size_now
  fetch_eq earlier _ index hindex := (h.fetch_eq earlier index).trans (answerAt_of_lt hindex)

/-- The transcript of a list that gives words has no other answers. -/
theorem Gives.of_mem_transcript {list : L} {words : List Word} (h : Gives list words)
    {asked : List Nat} (hasked : ∀ index ∈ asked, index < words.length) {index : Nat}
    {answer : Except ListError Word} (hanswer : (index, answer) ∈ transcript list asked) :
    ∃ word, words[index]? = some word ∧ answer = .ok word := by
  obtain ⟨earlier, later, rfl, rfl⟩ := exists_of_mem_transcript hanswer
  have hindex : index < words.length := hasked index (by simp)
  -- What was asked before was below the size as well, so that the list still gives words.
  have hearlier : ∀ i ∈ earlier, i < words.length := fun i hi =>
    hasked i (List.mem_append_left _ hi)
  exact ⟨words[index], List.getElem?_eq_getElem hindex, h.fetch_eq earlier hearlier index hindex⟩

end WordList

/-! ### Recording -/

/-- A list, and what has been read from it. -/
structure Recorded (L : Type) where
  /-- The list. -/
  list : L
  /-- The indices that it was asked at and its answers, the first one first. -/
  record : List Reply

variable {L : Type} [WordList L]

instance : WordList (Recorded L) where
  order r := WordList.order r.list
  size r := WordList.size r.list
  fetch r index :=
    let (answer, after) := WordList.fetch r.list index
    (answer, ⟨after, r.record ++ [(index, answer)]⟩)
  close r := ⟨WordList.close r.list, r.record⟩

namespace Recorded

variable {r r' : Recorded L} {index : Nat} {answer : Except ListError Word}

/-- A list that records is read as the list itself is. -/
theorem fetch_list_eq (h : WordList.fetch r index = (answer, r')) :
    WordList.fetch r.list index = (answer, r'.list) := by
  obtain ⟨rfl, rfl⟩ := Prod.mk.inj h
  rfl

/-- Whatever is read gets recorded. -/
theorem record_eq (h : WordList.fetch r index = (answer, r')) :
    r'.record = r.record ++ [(index, answer)] := by
  obtain ⟨rfl, rfl⟩ := Prod.mk.inj h
  rfl

/-- All that was read since the list was `start` is on record. -/
structure Since (r : Recorded L) (start : L) : Prop where
  /-- Nothing else has changed the list. -/
  list_eq : r.list = WordList.afterFetches start (r.record.map Prod.fst)
  /-- The record tells the answers of the list. -/
  record_eq : r.record = WordList.transcript start (r.record.map Prod.fst)

theorem since_start (start : L) : Since ⟨start, []⟩ start where
  list_eq := rfl
  record_eq := rfl

theorem Since.fetch {start : L} (h : Since r start) (index : Nat) :
    Since (WordList.fetch r index).2 start := by
  -- One more question stands at the end of the record, and so at the end of the transcript.
  have hasked : (WordList.fetch r index).2.record.map Prod.fst
      = r.record.map Prod.fst ++ [index] := List.map_append
  constructor
  · rw [hasked, WordList.afterFetches_concat, ← h.list_eq]
    rfl
  · rw [hasked, WordList.transcript_concat, ← h.list_eq, ← h.record_eq]
    rfl

end Recorded

end Lexicon
