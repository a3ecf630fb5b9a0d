import Lexicon.WordList.InMemory

namespace Lexicon

/-!
# What a word list holds

A list answers from its words at every time: reading may move a cursor, but no later answer
depends on it.

* `answerAt` — the answer of a list of given words at an index.
* `WordList.afterFetches` — a list after words have been read at some indices.
* `WordList.Holds` — a list that gives the answers of given words, after any fetches.
* `WordList.Holds.of_invariant` — an invariant that every fetch keeps makes a list hold words.
-/

/-- The word at an index, or the error that there is none. -/
def answerAt (words : List Word) (index : Nat) : Except ListError Word :=
  match words[index]? with
  | some word => .ok word
  | none => .error (.outOfRange index words.length)

theorem answerAt_of_lt {words : List Word} {index : Nat} (h : index < words.length) :
    answerAt words index = .ok words[index] := by
  rw [answerAt, List.getElem?_eq_getElem h]

theorem answerAt_of_le {words : List Word} {index : Nat} (h : words.length ≤ index) :
    answerAt words index = .error (.outOfRange index words.length) := by
  rw [answerAt, List.getElem?_eq_none h]

namespace WordList

variable {L : Type} [WordList L]

/-- The list after words have been read at some indices, whatever the answers were. -/
def afterFetches (list : L) (earlier : List Nat) : L :=
  earlier.foldl (fun list index => (fetch list index).2) list

/-- A list that has the given order and words, and that no fetches change. -/
structure Holds (list : L) (order : WordOrder) (words : List Word) : Prop where
  /-- The list keeps its order. -/
  order_eq : ∀ earlier, WordList.order (afterFetches list earlier) = order
  /-- The list keeps its size, the number of the words. -/
  size_eq : ∀ earlier, size (afterFetches list earlier) = words.length
  /-- Every answer is that of the words. -/
  fetch_eq : ∀ earlier index, (fetch (afterFetches list earlier) index).1 = answerAt words index

variable {list : L} {order : WordOrder} {words : List Word}

/-- An invariant that every fetch keeps, and under which the answers are those of some words,
    makes a list hold the words. -/
theorem Holds.of_invariant (Inv : L → Prop) (hlist : Inv list)
    (horder : ∀ l, Inv l → WordList.order l = order) (hsize : ∀ l, Inv l → size l = words.length)
    (hfetch : ∀ l, Inv l → ∀ index, (fetch l index).1 = answerAt words index ∧
      Inv (fetch l index).2) :
    Holds list order words := by
  -- By induction on the earlier fetches, each of which keeps the invariant.
  have hafter : ∀ earlier l, Inv l → Inv (afterFetches l earlier) := by
    intro earlier
    induction earlier with
    | nil => exact fun l hl => hl
    | cons index earlier ih => exact fun l hl => ih _ (hfetch l hl index).2
  exact
    { order_eq := fun earlier => horder _ (hafter earlier list hlist)
      size_eq := fun earlier => hsize _ (hafter earlier list hlist)
      fetch_eq := fun earlier index => (hfetch _ (hafter earlier list hlist) index).1 }

/-- A list holds its words after a fetch as it did before. -/
theorem Holds.fetch (h : Holds list order words) (index : Nat) :
    Holds (fetch list index).2 order words where
  order_eq earlier := h.order_eq (index :: earlier)
  size_eq earlier := h.size_eq (index :: earlier)
  fetch_eq earlier := h.fetch_eq (index :: earlier)

theorem Holds.order_now (h : Holds list order words) : WordList.order list = order :=
  h.order_eq []

theorem Holds.size_now (h : Holds list order words) : size list = words.length :=
  h.size_eq []

/-- Below the size, a list that holds words gives the word at the index. -/
theorem Holds.of_fetch_eq (h : Holds list order words) {index : Nat} (hindex : index < words.length)
    {answer : Except ListError Word} {after : L}
    (hfetch : WordList.fetch list index = (answer, after)) :
    answer = .ok words[index] ∧ Holds after order words := by
  have hanswer := h.fetch_eq [] index
  have hafter := h.fetch index
  rw [afterFetches, List.foldl_nil, hfetch, answerAt_of_lt hindex] at hanswer
  rw [hfetch] at hafter
  exact ⟨hanswer, hafter⟩

/-- A word that is read below the size is the one at the index. -/
theorem Holds.of_fetch_ok (h : Holds list order words) {index : Nat} (hindex : index < words.length)
    {word : Word} {after : L} (hfetch : WordList.fetch list index = (.ok word, after)) :
    word = words[index] ∧ Holds after order words := by
  obtain ⟨hword, hafter⟩ := h.of_fetch_eq hindex hfetch
  exact ⟨Except.ok.inj hword, hafter⟩

/-- A list in memory holds the words that it was given. -/
theorem holds_inMemory (list : InMemory) : Holds list list.order list.words.toList := by
  refine Holds.of_invariant (· = list) rfl ?_ ?_ ?_
  · rintro l rfl
    rfl
  · rintro l rfl
    exact Array.length_toList.symm
  · rintro l rfl index
    refine ⟨?_, rfl⟩
    show l.get index = _
    cases hword : l.words[index]? with
    | none => simp [InMemory.get, answerAt, hword]
    | some word => simp [InMemory.get, answerAt, hword]

end WordList

end Lexicon
