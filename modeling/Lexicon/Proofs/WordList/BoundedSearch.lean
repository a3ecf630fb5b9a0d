import Lexicon.Proofs.MedianOrder.Bounded
import Lexicon.Proofs.WordList.Search

namespace Lexicon

open MedianOrder (word? minus? word?_of_lt minus?_of_le)

/-!
# Binary search with 64-bit numbers

A search counts with numbers of a fixed size, and goes on until its range is empty.

* `WordOrder.searchBetween?`, `binarySearch?` — a search that fails where a number is out of range,
  and that has no answer unless it comes to an end.
* `binarySearch?_eq` — in lists whose size is such a number it ends and fails nowhere.
* `WordList.binarySearch_exact_and_sound` — a search is right where the words ascend, and takes its
  outcome from the list wherever it is applied.
-/

variable {L : Type} [WordList L]

/-- Looks for a word at the indices from `low` to before `high`. -/
def WordOrder.searchBetween? (order : WordOrder) (query : Word) (list : L) (low high : Nat) :
    Option (Except ListError (Option Nat) × L) := do
  if low < high then
    let middle ← word? (low + (← minus? high low) / 2)
    match WordList.fetch list middle with
    | (.error e, list) => return (.error e, list)
    | (.ok found, list) =>
      match order.compare found query with
      | .lt => order |>.searchBetween? query list (← word? (middle + 1)) high
      | .gt => order |>.searchBetween? query list low middle
      | .eq => return (.ok (some middle), list)
  else return (.ok none, list)
partial_fixpoint

/-- Looks for a word in a whole list. -/
def binarySearch? (list : L) (query : Word) : Option (Except ListError (Option Nat) × L) := do
  (WordList.order list).searchBetween? query list 0 (← word? (WordList.size list))

variable {order : WordOrder} {list after : L} {query : Word} {low high : Nat}

/-- One step of a search among 64-bit numbers fails nowhere. -/
theorem WordOrder.searchBetween?_of_lt {answer : Except ListError Word} (hrange : low < high)
    (hword : high < 2 ^ 64)
    (hfetch : WordList.fetch list (low + (high - low) / 2) = (answer, after)) :
    order.searchBetween? query list low high =
      match answer with
      | .error e => some (.error e, after)
      | .ok word =>
        match order.compare word query with
        | .lt => order.searchBetween? query after (low + (high - low) / 2 + 1) high
        | .gt => order.searchBetween? query after low (low + (high - low) / 2)
        | .eq => some (.ok (some (low + (high - low) / 2)), after) := by
  -- The middle is below `high`, so that the index behind it is `high` at most.
  have hmiddle : low + (high - low) / 2 < high := by omega
  have hnext : low + (high - low) / 2 + 1 < 2 ^ 64 := by omega
  rw [searchBetween?, if_pos hrange, minus?_of_le hrange.le]
  simp only [Option.bind_eq_bind, Option.bind_some, word?_of_lt (hmiddle.trans hword), hfetch,
    word?_of_lt hnext]
  cases answer <;> rfl

/-- In a range of 64-bit numbers a search ends, and nothing that it counts is out of range. -/
theorem WordOrder.searchBetween?_eq (hword : high < 2 ^ 64) :
    order.searchBetween? query list low high
      = some (searchBetween order list query low high) := by
  fun_induction searchBetween order list query low high with
  | case1 list low high hlt middle e after hfetch => rw [searchBetween?_of_lt hlt hword hfetch]
  | case2 list low high hlt middle found after hfetch hcompare ih =>
    rw [searchBetween?_of_lt hlt hword hfetch, ← ih hword]
    simp only [hcompare]
    rfl
  | case3 list low high hlt middle found after hfetch hcompare ih =>
    -- The lower half ends at the middle, which is a number of 64 bits as well.
    have hmiddle : middle < high := by omega
    rw [searchBetween?_of_lt hlt hword hfetch, ← ih (hmiddle.trans hword)]
    simp only [hcompare]
    rfl
  | case4 list low high hlt middle found after hfetch hcompare =>
    rw [searchBetween?_of_lt hlt hword hfetch]
    simp only [hcompare]
    rfl
  | case5 list low high hge =>
    rw [searchBetween?, if_neg hge]
    rfl

theorem binarySearch?_eq (list : L) (query : Word) (hword : WordList.size list < 2 ^ 64) :
    binarySearch? list query = some (binarySearch list query) := by
  rw [binarySearch?, word?_of_lt hword]
  exact WordOrder.searchBetween?_eq hword

namespace WordList

/-- **Exact on ascending words, sound everywhere.** A search in a list that gives ascending words
    ends with the index of a word that equals the query, or with none if there is no such word.  In
    any list, whatever it answers, it asks for words below the size only; an error that it ends with
    is one of the answers, and a word that it finds is one that equals the query.  Where the size is
    a number of 64 bits, so is all that it counts, and it comes to an end. -/
theorem binarySearch_exact_and_sound (list : L) (query : Word) :
    (∀ words, Gives list words → (WordList.order list).Ascends words →
        ∃ found, (binarySearch list query).1 = .ok found ∧
          Finds (WordList.order list) words query found) ∧
      (∃ asked, (∀ index ∈ asked, index < size list) ∧
        binarySearch (⟨list, []⟩ : Recorded L) query = ((binarySearch list query).1,
          ⟨afterFetches list asked, transcript list asked⟩) ∧
        (binarySearch list query).2 = afterFetches list asked ∧
        Evident (WordList.order list) query (size list) (transcript list asked)
          (binarySearch list query).1) ∧
      (size list < 2 ^ 64 → binarySearch? list query = some (binarySearch list query)) :=
  ⟨fun _ h hsorted => h.binarySearch hsorted query, exists_asked_binarySearch list query,
    binarySearch?_eq list query⟩

/-- A search among words of which two differ in case only, and one is listed twice. -/
theorem binarySearch_among_tied :
    Gives (InMemory.mk (.folding .unicode) #[['a'], ['A'], ['b'], ['b']])
        [['a'], ['A'], ['b'], ['b']] ∧
      (WordOrder.folding .unicode).Ascends [['a'], ['A'], ['b'], ['b']] ∧ 4 < 2 ^ 64 ∧
      ∃ found after,
        binarySearch? (InMemory.mk (.folding .unicode) #[['a'], ['A'], ['b'], ['b']]) ['B']
          = some (.ok found, after) ∧
        Finds (.folding .unicode) [['a'], ['A'], ['b'], ['b']] ['B'] found := by
  have hgives : Gives (InMemory.mk (.folding .unicode) #[['a'], ['A'], ['b'], ['b']])
      [['a'], ['A'], ['b'], ['b']] := (holds_inMemory _).gives
  have hsorted : (WordOrder.folding .unicode).Ascends [['a'], ['A'], ['b'], ['b']] := by
    unfold WordOrder.Ascends
    decide +kernel
  have hword : 4 < 2 ^ 64 := by decide
  obtain ⟨hexact, -, hbounded⟩ := binarySearch_exact_and_sound
    (InMemory.mk (.folding .unicode) #[['a'], ['A'], ['b'], ['b']]) ['B']
  obtain ⟨found, hfound, hfinds⟩ := hexact _ hgives hsorted
  exact ⟨hgives, hsorted, hword, found, _,
    (hbounded hword).trans (congrArg some (Prod.ext hfound rfl)), hfinds⟩

end WordList

end Lexicon
