import Lexicon.Proofs.Order.Laws
import Lexicon.Proofs.WordList.Record
import Lexicon.WordList.Search

namespace Lexicon

open Std

/-!
# Binary search in word lists

* `Finds` — what the outcome of a search says of ascending words.
* `Narrowed` — how far a search has come, by what is on record.
* `Evident` — what the record of a search says for its outcome.
* `Narrowed.searchBetween` — a search in any list asks for words of it only, and its outcome is on
  record.
* `Narrowed.finds_none`, `Finds.of_evident` — where the words ascend, an outcome on record is right.
* `WordList.Gives.binarySearch`, `WordList.Holds.binarySearch` — so is a search in a list of them.
* `searchBetween_keeps` — a search keeps what every fetch keeps.
-/

/-- The index of a word that equals the query, or none if there is no such word. -/
def Finds (order : WordOrder) (words : List Word) (query : Word) : Option Nat → Prop
  | some index => ∃ word, words[index]? = some word ∧ order.compare word query = .eq
  | none => ∀ word ∈ words, order.compare word query ≠ .eq

theorem Finds.isSome_iff {order : WordOrder} {words : List Word} {query : Word}
    {found : Option Nat} (h : Finds order words query found) :
    found.isSome = true ↔ ∃ word ∈ words, order.compare word query = .eq := by
  cases found with
  | none =>
    simp only [Option.isSome_none, Bool.false_eq_true, false_iff]
    rintro ⟨word, hword, heq⟩
    exact h word hword heq
  | some index =>
    obtain ⟨word, hword, heq⟩ := h
    simp only [Option.isSome_some, true_iff]
    exact ⟨word, List.mem_of_getElem? hword, heq⟩

/-! ### What a search has seen -/

section Record

variable {order : WordOrder} {query : Word} {size low high middle : Nat} {record : List Reply}

/-- A search has narrowed down to a range if the record tells why: the word in front of the range
    comes before the query, and the word behind it comes after it. -/
structure Narrowed (order : WordOrder) (query : Word) (size : Nat) (record : List Reply)
    (low high : Nat) : Prop where
  /-- The range does not end before it begins. -/
  low_le : low ≤ high
  /-- The range lies within the list. -/
  high_le : high ≤ size
  /-- So does everything that has been asked for. -/
  asked_lt : ∀ reply ∈ record, reply.1 < size
  /-- The word in front, if there is one, comes before the query. -/
  front : ∀ index, index + 1 = low →
    ∃ word, (index, .ok word) ∈ record ∧ order.compare word query = .lt
  /-- The word behind, if there is one, comes after the query. -/
  back : high < size → ∃ word, (high, .ok word) ∈ record ∧ order.compare word query = .gt

theorem narrowed_start (order : WordOrder) (query : Word) (size : Nat) :
    Narrowed order query size [] 0 size where
  low_le := Nat.zero_le _
  high_le := Nat.le_refl _
  asked_lt _ h := nomatch h
  front _ h := nomatch h
  back h := absurd h (Nat.lt_irrefl _)

/-- A word of the range may be asked for. -/
theorem Narrowed.asked_lt_concat (h : Narrowed order query size record low high)
    (hmiddle : middle < high) (answer : Except ListError Word) :
    ∀ reply ∈ record ++ [(middle, answer)], reply.1 < size := by
  intro reply hreply
  rcases List.mem_append.mp hreply with hreply | hreply
  · exact h.asked_lt reply hreply
  · obtain rfl := List.mem_singleton.mp hreply
    exact Nat.lt_of_lt_of_le hmiddle h.high_le

/-- A word before the query becomes the one in front. -/
theorem Narrowed.after (h : Narrowed order query size record low high) (hmiddle : middle < high)
    {word : Word} (hlt : order.compare word query = .lt) :
    Narrowed order query size (record ++ [(middle, .ok word)]) (middle + 1) high where
  low_le := hmiddle
  high_le := h.high_le
  asked_lt := h.asked_lt_concat hmiddle _
  front := by
    intro index hindex
    obtain rfl := Nat.succ.inj hindex
    exact ⟨word, List.mem_concat_self, hlt⟩
  back := by
    intro hhigh
    obtain ⟨behind, hbehind, hgt⟩ := h.back hhigh
    exact ⟨behind, List.mem_append_left _ hbehind, hgt⟩

/-- A word after the query becomes the one behind. -/
theorem Narrowed.before (h : Narrowed order query size record low high) (hlow : low ≤ middle)
    (hmiddle : middle < high) {word : Word} (hgt : order.compare word query = .gt) :
    Narrowed order query size (record ++ [(middle, .ok word)]) low middle where
  low_le := hlow
  high_le := hmiddle.le.trans h.high_le
  asked_lt := h.asked_lt_concat hmiddle _
  front := by
    intro index hindex
    obtain ⟨ahead, hahead, hlt⟩ := h.front index hindex
    exact ⟨ahead, List.mem_append_left _ hahead, hlt⟩
  back _ := ⟨word, List.mem_concat_self, hgt⟩

/-- The outcome of a search as the record bears it out: an error was an answer, a word that was
    found equals the query, and a word that was not found has a place without any word in it. -/
def Evident (order : WordOrder) (query : Word) (size : Nat) (record : List Reply) :
    Except ListError (Option Nat) → Prop
  | .error e => ∃ index, (index, .error e) ∈ record
  | .ok (some index) => ∃ word, (index, .ok word) ∈ record ∧ order.compare word query = .eq
  | .ok none => ∃ place, Narrowed order query size record place place

end Record

/-! ### Searches in any list -/

section Runs

variable {L : Type} [WordList L] {order : WordOrder} {query : Word} {size low high : Nat}

/-- Whatever the list is, a search asks for words of it only, and its outcome is on record. -/
theorem Narrowed.searchBetween {r : Recorded L}
    (h : Narrowed order query size r.record low high) :
    (∀ reply ∈ (searchBetween order r query low high).2.record, reply.1 < size) ∧
      Evident order query size (searchBetween order r query low high).2.record
        (searchBetween order r query low high).1 := by
  fun_induction Lexicon.searchBetween order r query low high with
  | case1 r low high hlt middle e after hfetch =>
    have hmiddle : middle < high := by omega
    rw [Recorded.record_eq hfetch]
    exact ⟨h.asked_lt_concat hmiddle _, middle, List.mem_concat_self⟩
  | case2 r low high hlt middle word after hfetch hcompare ih =>
    apply ih
    rw [Recorded.record_eq hfetch]
    exact h.after (by omega) hcompare
  | case3 r low high hlt middle word after hfetch hcompare ih =>
    apply ih
    rw [Recorded.record_eq hfetch]
    exact h.before (by omega) (by omega) hcompare
  | case4 r low high hlt middle word after hfetch hcompare =>
    have hmiddle : middle < high := by omega
    rw [Recorded.record_eq hfetch]
    exact ⟨h.asked_lt_concat hmiddle _, word, List.mem_concat_self, hcompare⟩
  | case5 r low high hge =>
    -- No index is left, so that front and back are next to each other.
    obtain rfl : low = high := by have := h.low_le; omega
    exact ⟨h.asked_lt, low, h⟩

/-- One step of a search: an error ends it, and so does a word that equals the query; by any other
    word one half of the range is left. -/
theorem searchBetween_of_lt {list after : L} {answer : Except ListError Word} (hrange : low < high)
    (hfetch : WordList.fetch list (low + (high - low) / 2) = (answer, after)) :
    searchBetween order list query low high =
      match answer with
      | .error e => (.error e, after)
      | .ok word =>
        match order.compare word query with
        | .lt => searchBetween order after query (low + (high - low) / 2 + 1) high
        | .gt => searchBetween order after query low (low + (high - low) / 2)
        | .eq => (.ok (some (low + (high - low) / 2)), after) := by
  rw [searchBetween, if_pos hrange]
  simp only [hfetch]
  cases answer <;> rfl

/-- Recording changes nothing in a search. -/
theorem searchBetween_recorded (order : WordOrder) (r : Recorded L) (query : Word)
    (low high : Nat) :
    searchBetween order r.list query low high
      = ((searchBetween order r query low high).1,
        (searchBetween order r query low high).2.list) := by
  fun_induction searchBetween order r query low high with
  | case1 r low high hlt middle e after hfetch =>
    rw [searchBetween_of_lt hlt (Recorded.fetch_list_eq hfetch)]
  | case2 r low high hlt middle word after hfetch hcompare ih =>
    rw [searchBetween_of_lt hlt (Recorded.fetch_list_eq hfetch), ← ih]
    simp only [hcompare]
    rfl
  | case3 r low high hlt middle word after hfetch hcompare ih =>
    rw [searchBetween_of_lt hlt (Recorded.fetch_list_eq hfetch), ← ih]
    simp only [hcompare]
    rfl
  | case4 r low high hlt middle word after hfetch hcompare =>
    rw [searchBetween_of_lt hlt (Recorded.fetch_list_eq hfetch)]
    simp only [hcompare]
    rfl
  | case5 r low high hge => rw [searchBetween, if_neg hge]

/-! ### What reading keeps -/

variable {P : L → Prop} {list : L} (hread : ∀ l, P l → ∀ index, P (WordList.fetch l index).2)

include hread

theorem keeps_of_fetch_eq (h : P list) {index : Nat} {answer : Except ListError Word} {list' : L}
    (hfetch : WordList.fetch list index = (answer, list')) : P list' := by
  have hkept := hread list h index
  rwa [hfetch] at hkept

theorem searchBetween_keeps (order : WordOrder) (query : Word) (low high : Nat) (h : P list) :
    P (searchBetween order list query low high).2 := by
  fun_induction searchBetween order list query low high with
  | case1 list low high hlt middle e later hfetch => exact keeps_of_fetch_eq hread h hfetch
  | case2 list low high hlt middle found later hfetch hcompare ih =>
    exact ih (keeps_of_fetch_eq hread h hfetch)
  | case3 list low high hlt middle found later hfetch hcompare ih =>
    exact ih (keeps_of_fetch_eq hread h hfetch)
  | case4 list low high hlt middle found later hfetch hcompare =>
    exact keeps_of_fetch_eq hread h hfetch
  | case5 list low high hge => exact h

end Runs

namespace WordList

variable {L : Type} [WordList L]

/-- A search in any list, with all that it asks for. -/
theorem exists_asked_binarySearch (list : L) (query : Word) :
    ∃ asked, (∀ index ∈ asked, index < size list) ∧
      binarySearch (⟨list, []⟩ : Recorded L) query = ((binarySearch list query).1,
        ⟨afterFetches list asked, transcript list asked⟩) ∧
      (binarySearch list query).2 = afterFetches list asked ∧
      Evident (WordList.order list) query (size list) (transcript list asked)
        (binarySearch list query).1 := by
  let recorded : Recorded L := ⟨list, []⟩
  have hsame : binarySearch list query = ((binarySearch recorded query).1,
      (binarySearch recorded query).2.list) :=
    searchBetween_recorded _ recorded query _ _
  have hsince : (binarySearch recorded query).2.Since list :=
    searchBetween_keeps (P := (Recorded.Since · list)) (fun _ h index => h.fetch index) _ query _ _
      (Recorded.since_start list)
  have hconcluded : (∀ reply ∈ (binarySearch recorded query).2.record, reply.1 < size list) ∧
      Evident (WordList.order list) query (size list) (binarySearch recorded query).2.record
        (binarySearch recorded query).1 :=
    (narrowed_start (WordList.order list) query (size list)).searchBetween
  generalize binarySearch recorded query = run at hsame hsince hconcluded ⊢
  obtain ⟨outcome, after, record⟩ := run
  obtain ⟨hasked, hevident⟩ := hconcluded
  refine ⟨record.map Prod.fst, ?_, ?_, ?_, ?_⟩
  · exact List.forall_mem_map.mpr hasked
  · rw [hsame, ← hsince.list_eq, ← hsince.record_eq]
  · rw [hsame, ← hsince.list_eq]
  · rw [hsame, ← hsince.record_eq]
    exact hevident

end WordList

/-! ### Searches among ascending words -/

theorem WordOrder.Ascends.ne_gt {order : WordOrder} {words : List Word} (h : order.Ascends words)
    {i j : Nat} (hj : j < words.length) (hij : i ≤ j) :
    order.compare words[i] words[j] ≠ .gt := by
  rcases Nat.lt_or_eq_of_le hij with hlt | rfl
  · exact List.pairwise_iff_getElem.mp h i j (by omega) hj hlt
  · simp [ReflCmp.compare_self]

section Exact

variable {order : WordOrder} {words : List Word} {query : Word} {record : List Reply}

/-- Where the words ascend, none of them equals a query whose place lies between two that are next
    to each other. -/
theorem Narrowed.finds_none {place : Nat}
    (h : Narrowed order query words.length record place place) (hsorted : order.Ascends words)
    (hrecord : ∀ index word, (index, .ok word) ∈ record → words[index]? = some word) :
    Finds order words query none := by
  intro word hword heq
  obtain ⟨index, hindex, rfl⟩ := List.getElem_of_mem hword
  by_cases hfront : index < place
  · -- The word is not above the one in front of the place, which comes before the query.
    obtain ⟨ahead, hanswer, hlt⟩ := h.front (place - 1) (by omega)
    obtain ⟨hlast, rfl⟩ := List.getElem?_eq_some_iff.mp (hrecord _ _ hanswer)
    have hle := Ordering.ne_gt_iff_isLE.mp (hsorted.ne_gt hlast (Nat.le_sub_one_of_lt hfront))
    rw [TransCmp.lt_of_isLE_of_lt hle hlt] at heq
    exact nomatch heq
  · -- The word is not below the one behind the place, which comes after the query.
    obtain ⟨behind, hanswer, hgt⟩ := h.back (by omega)
    obtain ⟨hfirst, rfl⟩ := List.getElem?_eq_some_iff.mp (hrecord _ _ hanswer)
    have hle := Ordering.ne_gt_iff_isLE.mp (hsorted.ne_gt hindex (Nat.le_of_not_lt hfront))
    rw [OrientedCmp.gt_of_lt (TransCmp.lt_of_lt_of_isLE (OrientedCmp.lt_of_gt hgt) hle)] at heq
    exact nomatch heq

/-- Where the words ascend and all answers are words, an outcome on record is right. -/
theorem Finds.of_evident {outcome : Except ListError (Option Nat)} (hsorted : order.Ascends words)
    (hrecord : ∀ index answer, (index, answer) ∈ record →
      ∃ word, words[index]? = some word ∧ answer = .ok word)
    (h : Evident order query words.length record outcome) :
    ∃ found, outcome = .ok found ∧ Finds order words query found := by
  have hwords : ∀ index word, (index, .ok word) ∈ record → words[index]? = some word := by
    intro index word hanswer
    obtain ⟨_, hword, hok⟩ := hrecord _ _ hanswer
    rwa [Except.ok.inj hok]
  match outcome with
  | .error e =>
    obtain ⟨index, hanswer⟩ := h
    obtain ⟨word, -, hok⟩ := hrecord _ _ hanswer
    exact nomatch hok
  | .ok (some index) =>
    obtain ⟨word, hanswer, heq⟩ := h
    exact ⟨some index, rfl, word, hwords _ _ hanswer, heq⟩
  | .ok none =>
    obtain ⟨place, hplace⟩ := h
    exact ⟨none, rfl, hplace.finds_none hsorted hwords⟩

end Exact

namespace WordList

variable {L : Type} [WordList L] {list : L} {order : WordOrder} {words : List Word}

/-- A search in a list that gives ascending words finds one that equals the query, if there is
    any. -/
theorem Gives.binarySearch (h : Gives list words) (hsorted : (WordList.order list).Ascends words)
    (query : Word) :
    ∃ found, (binarySearch list query).1 = .ok found ∧
      Finds (WordList.order list) words query found := by
  obtain ⟨asked, hasked, -, -, hevident⟩ := exists_asked_binarySearch list query
  rw [h.size_eq] at hasked hevident
  exact Finds.of_evident hsorted (fun _ _ => h.of_mem_transcript hasked) hevident

/-- So does one in a list that holds them, and it changes nothing of what the list holds. -/
theorem Holds.binarySearch (h : Holds list order words) (hsorted : order.Ascends words)
    (query : Word) :
    ∃ found after, binarySearch list query = (.ok found, after) ∧
      Finds order words query found ∧ Holds after order words := by
  rw [← h.order_now] at hsorted
  obtain ⟨found, hfound, hfinds⟩ := h.gives.binarySearch hsorted query
  rw [h.order_now] at hfinds
  have hafter : Holds (Lexicon.binarySearch list query).2 order words :=
    searchBetween_keeps (P := (Holds · order words)) (fun _ h index => h.fetch index) _ query _ _ h
  exact ⟨found, _, Prod.ext hfound rfl, hfinds, hafter⟩

end WordList

end Lexicon
