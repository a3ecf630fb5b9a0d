import Lexicon.Proofs.Success
import Lexicon.Proofs.WordList.Ascending
import Lexicon.Proofs.WordList.Holds
import Mathlib.Order.Bounds.Basic

namespace Lexicon

/-!
# The first inversion

The check of a list compares neighbours only.  Still it vouches for all pairs of words, and where
it fails, it names the least index up to which the words are not in order.

* `WordOrder.ascends_iff_getElem` — words in order, by their indices.
* `WordOrder.ascends_take_succ_iff` — whether one more word keeps a beginning in order.
* `firstDrop_iff_isLeast` — the first drop ends the shortest beginning that is not in order.
* `ensureAscending_eq_error_iff` — what the check reports.
* `ensureAscending_finds_first_inversion` — the verdict on every list, and what the lists that are
  built from it are good for.
-/

variable {order : WordOrder} {words : List Word} {index : Nat} {previous word : Word}

/-- Words are in order if none of two, wherever they stand, is above a later one. -/
theorem WordOrder.ascends_iff_getElem :
    order.Ascends words ↔
      ∀ i j (hij : i < j) (hj : j < words.length), order.compare words[i] words[j] ≠ .gt := by
  unfold WordOrder.Ascends
  rw [List.pairwise_iff_getElem]
  exact ⟨fun h i j hij hj => h i j (hij.trans hj) hj hij, fun h i j _ hj hij => h i j hij hj⟩

/-! ### Beginnings in order -/

/-- A beginning of words stays in order with the next word if that is not below the last. -/
theorem WordOrder.ascends_take_succ_iff (hpos : 0 < index)
    (hprevious : words[index - 1]? = some previous) (hword : words[index]? = some word) :
    order.Ascends (words.take (index + 1)) ↔
      order.Ascends (words.take index) ∧ order.compare previous word ≠ .gt := by
  have hlast : (words.take index).getLast? = some previous := by
    rw [List.getLast?_take, if_neg hpos.ne', hprevious, Option.some_or]
  rw [List.take_add_one, hword, Option.toList_some, ascends_concat_iff, hlast]
  simp

/-- Beginnings of words in order are in order. -/
theorem WordOrder.Ascends.take_of_le {n m : Nat} (h : order.Ascends (words.take m)) (hle : n ≤ m) :
    order.Ascends (words.take n) :=
  h.sublist (List.take_sublist_take_left hle)

/-- **The first drop.** A word is the first that drops exactly if the words up to it are the
    shortest beginning that is not in order. -/
theorem firstDrop_iff_isLeast :
    FirstDrop order words index previous word ↔
      IsLeast {k | ¬order.Ascends (words.take (k + 1))} index ∧ 0 < index ∧
        words[index - 1]? = some previous ∧ words[index]? = some word := by
  constructor
  · intro h
    have hnot : ¬order.Ascends (words.take (index + 1)) := by
      rw [WordOrder.ascends_take_succ_iff h.index_pos h.previous_eq h.word_eq]
      exact fun hascends => hascends.2 h.compare_eq
    refine ⟨⟨hnot, fun k hk => ?_⟩, h.index_pos, h.previous_eq, h.word_eq⟩
    -- A shorter beginning is part of the words in front, which are in order.
    by_contra hlt
    exact hk (h.ascends_take.take_of_le (not_le.mp hlt))
  · rintro ⟨⟨hnot, hleast⟩, hpos, hprevious, hword⟩
    have hfront : order.Ascends (words.take index) := by
      by_contra hfront
      have hle := hleast (show ¬order.Ascends (words.take (index - 1 + 1)) by
        rwa [Nat.sub_add_cancel hpos])
      omega
    refine ⟨hpos, hprevious, hword, ?_, hfront⟩
    by_contra hcompare
    exact hnot ((WordOrder.ascends_take_succ_iff hpos hprevious hword).mpr ⟨hfront, hcompare⟩)

/-- There is one first drop at most. -/
theorem FirstDrop.unique {index' : Nat} {previous' word' : Word}
    (h : FirstDrop order words index previous word)
    (h' : FirstDrop order words index' previous' word') :
    index = index' ∧ previous = previous' ∧ word = word' := by
  obtain rfl : index = index' :=
    (firstDrop_iff_isLeast.mp h).1.unique (firstDrop_iff_isLeast.mp h').1
  exact ⟨rfl, Option.some.inj (h.previous_eq.symm.trans h'.previous_eq),
    Option.some.inj (h.word_eq.symm.trans h'.word_eq)⟩

/-! ### The verdict -/

/-- The check fails exactly where there is a first drop, and reports that. -/
theorem ensureAscending_eq_error_iff (order : WordOrder) (words : List Word) (e : ListError) :
    ensureAscending order words = .error e ↔
      ∃ index previous word, e = .unsorted index previous word ∧
        FirstDrop order words index previous word := by
  obtain ⟨hascends, hcheck⟩ | ⟨index, previous, word, hdrop, hcheck⟩ :=
    ensureAscending_cases order words
  · rw [hcheck]
    constructor
    · exact nofun
    · rintro ⟨index, previous, word, -, hdrop⟩
      exact absurd hascends hdrop.not_ascends
  · rw [hcheck, Except.error.injEq]
    constructor
    · rintro rfl
      exact ⟨index, previous, word, rfl, hdrop⟩
    · rintro ⟨index', previous', word', rfl, hdrop'⟩
      obtain ⟨rfl, rfl, rfl⟩ := hdrop.unique hdrop'
      rfl

/-- A list of words that have to be in order is built if they are, and refused as the check
    refuses them. -/
theorem InMemory.ofSorted_eq (order : WordOrder) (words : List Word) :
    ofSorted order words = (ensureAscending order words).map fun _ => ⟨order, words.toArray⟩ := by
  unfold ofSorted
  cases ensureAscending order words <;> rfl

/-- **The check finds the first inversion, and otherwise vouches for the whole list.** In either
    order it accepts words exactly if none is above any later one.  Of other words it reports the
    least index up to which they are not in order, with the word there and the one in front of it.
    Hence a list is built in memory of exactly the words in order, refused as the check refuses
    them; and a list that is built has them for good, in order, which is all that a search in it
    and a tree in its median order ask for. -/
theorem ensureAscending_finds_first_inversion (order : WordOrder) (words : List Word) :
    (ensureAscending order words = .ok () ↔
      ∀ i j (hij : i < j) (hj : j < words.length), order.compare words[i] words[j] ≠ .gt) ∧
      (∀ e, ensureAscending order words = .error e ↔
        ∃ k previous word, e = .unsorted k previous word ∧
          IsLeast {k | ¬order.Ascends (words.take (k + 1))} k ∧ 0 < k ∧
          words[k - 1]? = some previous ∧ words[k]? = some word) ∧
      ((∃ list, InMemory.ofSorted order words = .ok list) ↔
        ∀ i j (hij : i < j) (hj : j < words.length), order.compare words[i] words[j] ≠ .gt) ∧
      (∀ e, InMemory.ofSorted order words = .error e ↔ ensureAscending order words = .error e) ∧
      ∀ list, InMemory.ofSorted order words = .ok list →
        WordList.Holds list order words ∧ order.Ascends words := by
  have hcheck := ensureAscending_eq_ok_iff order words
  have hbuilt : ∀ list, InMemory.ofSorted order words = .ok list ↔
      order.Ascends words ∧ ⟨order, words.toArray⟩ = list := by
    intro list
    rw [InMemory.ofSorted_eq, map_eq_ok_iff, ← hcheck]
    exact ⟨fun ⟨_, hok, hlist⟩ => ⟨hok, hlist⟩, fun ⟨hok, hlist⟩ => ⟨(), hok, hlist⟩⟩
  rw [← WordOrder.ascends_iff_getElem]
  refine ⟨hcheck, fun e => ?_, ⟨?_, ?_⟩, fun e => ?_, ?_⟩
  · simp only [ensureAscending_eq_error_iff, firstDrop_iff_isLeast]
  · rintro ⟨list, hlist⟩
    exact ((hbuilt list).mp hlist).1
  · intro hascends
    exact ⟨_, (hbuilt _).mpr ⟨hascends, rfl⟩⟩
  · rw [InMemory.ofSorted_eq, map_eq_error_iff]
  · intro list hlist
    obtain ⟨hascends, rfl⟩ := (hbuilt list).mp hlist
    exact ⟨WordList.holds_inMemory ⟨order, words.toArray⟩, hascends⟩

end Lexicon
