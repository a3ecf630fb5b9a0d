import Lexicon.Proofs.Ternary.Near
import Lexicon.Proofs.Text.Edits

namespace Lexicon.Ternary

/-!
# Words near a query and their edit distance

A search near a query compares place by place, which is one way to edit a word.

* `levenshtein_le_mismatches` — words that differ in few places have a small edit distance.
* `Tree.near_within_levenshtein` — so have the words that a search lists, and a greater distance
  lists them in the same order, with others among them.
-/

/-- Words have no greater edit distance than the number of places where they differ. -/
theorem levenshtein_le_mismatches (a b : Word) : levenshtein a b ≤ mismatches a b := by
  induction a generalizing b with
  | nil => rw [levenshtein_nil_left, mismatches_nil_left]
  | cons c a ih =>
    cases b with
    | nil => rw [levenshtein_nil_right, mismatches_nil_right]
    | cons d b =>
      have hle := ih b
      rw [levenshtein_cons_cons, mismatches_cons_cons]
      omega

/-- A word that is moved by one place differs everywhere, but two edits are enough. -/
example : levenshtein ['b', 'c', 'd'] ['a', 'b', 'c'] = 2 ∧
    mismatches ['b', 'c', 'd'] ['a', 'b', 'c'] = 3 := by
  cbv

@[simp] theorem mismatches_self (a : Word) : mismatches a a = 0 := by
  induction a with
  | nil => rw [mismatches_nil_left, List.length_nil]
  | cons c a ih => rw [mismatches_cons_cons, ih, if_pos rfl]

namespace Tree

/-- **No false positives.** In a tree that tells cases apart, a search near a query lists words that
    were added and that so many edits lead from to the query, among them the query itself if it was
    added.  A search for a greater distance lists the same words in the same order, and maybe others
    between them. -/
theorem near_within_levenshtein (added : List Word) (query : Word) :
    (∀ distance, ∃ found, (ofWords .exact added).near query distance = .ok found ∧
        (∀ word ∈ found, word ∈ added ∧ levenshtein word query ≤ distance) ∧
        (query ∈ added → query ∈ found)) ∧
      ∀ distance distance', distance ≤ distance' →
        ∃ found found', (ofWords .exact added).near query distance = .ok found ∧
          (ofWords .exact added).near query distance' = .ok found' ∧ found.Sublist found' := by
  have hmem := (words_ofWords_exact added).2
  refine ⟨fun distance => ⟨_, near_eq_filter added query distance, ?_, ?_⟩, ?_⟩
  · intro word hword
    obtain ⟨hstored, hnear⟩ := List.mem_filter.mp hword
    exact ⟨(hmem word).mp hstored,
      (levenshtein_le_mismatches word query).trans (of_decide_eq_true hnear)⟩
  · intro hquery
    exact List.mem_filter.mpr ⟨(hmem query).mpr hquery, by simp⟩
  · intro distance distance' hle
    refine ⟨_, _, near_eq_filter added query distance, near_eq_filter added query distance', ?_⟩
    -- Whatever is within the distance is within the greater one.
    apply List.monotone_filter_right
    intro word hword
    exact decide_eq_true ((of_decide_eq_true hword).trans hle)

/-- Among words of different lengths: one edit leads from the second one to the query. -/
theorem near_within_levenshtein_longer :
    0 ≤ 1 ∧ ['a', 'b'] ∈ [['c'], ['a', 'b', 'c'], ['a', 'b']] ∧
      (∃ found,
        (ofWords .exact [['c'], ['a', 'b', 'c'], ['a', 'b']]).near ['a', 'b'] 1 = .ok found ∧
        (∀ word ∈ found, word ∈ [['c'], ['a', 'b', 'c'], ['a', 'b']] ∧
          levenshtein word ['a', 'b'] ≤ 1) ∧
        ['a', 'b'] ∈ found) ∧
      ∃ found found',
        (ofWords .exact [['c'], ['a', 'b', 'c'], ['a', 'b']]).near ['a', 'b'] 0 = .ok found ∧
          (ofWords .exact [['c'], ['a', 'b', 'c'], ['a', 'b']]).near ['a', 'b'] 1 = .ok found' ∧
          found.Sublist found' := by
  have hle : 0 ≤ 1 := Nat.zero_le 1
  have hquery : ['a', 'b'] ∈ [['c'], ['a', 'b', 'c'], ['a', 'b']] := by decide
  obtain ⟨hwithin, hgrows⟩ :=
    near_within_levenshtein [['c'], ['a', 'b', 'c'], ['a', 'b']] ['a', 'b']
  obtain ⟨found, hfound, hall, hself⟩ := hwithin 1
  exact ⟨hle, hquery, ⟨found, hfound, hall, hself hquery⟩, hgrows 0 1 hle⟩

end Tree

end Lexicon.Ternary
