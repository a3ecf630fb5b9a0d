import Lexicon.Proofs.Ternary.Trail

namespace Lexicon.Ternary

open Std

/-!
# Spellings in a tree that is blind to case

Words share the nodes of the beginning that they have in common.  So a word is not listed as it was
added, but as a patchwork: at each place it has the character of the first word that agreed with it
up to there.

* `spelling` — the patchwork of a word.
* `Tree.words_ofWords_spelled` — the words of a tree are the spellings of the words that were added.
* `Tree.first_spelling_lost` — a word may be listed in a spelling in which it was never added.
-/

variable {order : WordOrder}

/-- A word with the character, at each place, of the first one among others that agrees with it up
    to this place. -/
def spelling (order : WordOrder) (added : List Word) (word : Word) : Word :=
  word.mapIdx fun place c =>
    ((added.find? (agree order (place + 1) · word)).bind (·[place]?)).getD c

namespace Tree

/-! ### Words as they are listed -/

/-- A listed word that equals one that was added has the spelling of it. -/
theorem eq_spelling {added : List Word} {stored word : Word}
    (hstored : stored ∈ (ofWords order added).words) (heq : order.compare stored word = .eq) :
    stored = spelling order added word := by
  have hsound := sound_ofWords order added
  have htrail : stored = (ofWords order added).trail word :=
    hsound.eq_trail hstored (by rwa [order_ofWords])
  have hlength : stored.length = word.length := by
    have hkey := congrArg List.length ((order.compare_eq_eq_iff stored word).mp heq)
    simpa [WordOrder.key] using hkey
  refine List.ext_getElem? fun place => ?_
  rw [spelling, List.getElem?_mapIdx]
  by_cases hplace : place < word.length
  · -- The node that the word meets at this place settles the character.
    have hchar := getElem?_trail_ofWords order added hplace
    rw [← htrail, List.getElem?_eq_getElem (hlength ▸ hplace)] at hchar
    rw [← hchar, List.getElem?_eq_getElem (hlength ▸ hplace), List.getElem?_eq_getElem hplace]
    rfl
  · rw [List.getElem?_eq_none (by omega), List.getElem?_eq_none (by omega)]
    rfl

/-- A word is spelled as it is if all earlier ones that agree with some beginning of it have this
    beginning. -/
theorem spelling_eq_self {before : List Word} {first : Word} {after : List Word}
    (h : ∀ earlier ∈ before, ∀ places ≤ first.length, agree order places earlier first = true →
      earlier.take places = first.take places) :
    spelling order (before ++ first :: after) first = first := by
  refine List.ext_getElem? fun place => ?_
  rw [spelling, List.getElem?_mapIdx]
  cases hplace : first[place]? with
  | none => rfl
  | some c =>
    have hself : agree order (place + 1) first first = true := beq_self_eq_true _
    have hplaces : place + 1 ≤ first.length := (List.getElem?_eq_some_iff.mp hplace).1
    simp only [List.find?_append, List.find?_cons, hself]
    cases hearlier : before.find? (agree order (place + 1) · first) with
    | none => simp [hplace]
    | some earlier =>
      have htake := h earlier (List.mem_of_find?_eq_some hearlier) (place + 1)
        hplaces (agree_of_find? hearlier)
      have hchar := congrArg (·[place]?) htake
      simp only [List.getElem?_take_of_lt (Nat.lt_succ_self place), hplace] at hchar
      simp [hchar]

/-- **Spellings.** The words of a tree are the words that were added, each equal to itself in the
    order but spelled with the characters of the first words that agree with it, place by place.  A
    word is listed as it was added first if all earlier ones spell alike what they have in common
    with it. -/
theorem words_ofWords_spelled (order : WordOrder) (added : List Word) :
    (∀ stored, stored ∈ (ofWords order added).words ↔
        ∃ word ∈ added, stored = spelling order added word) ∧
      (∀ word ∈ added, order.compare (spelling order added word) word = .eq) ∧
      ∀ before first after, added = before ++ first :: after →
        (∀ earlier ∈ before, ∀ places ≤ first.length, agree order places earlier first = true →
          earlier.take places = first.take places) →
        first ∈ (ofWords order added).words := by
  have hspelled : ∀ word ∈ added, spelling order added word ∈ (ofWords order added).words ∧
      order.compare (spelling order added word) word = .eq := by
    intro word hword
    obtain ⟨stored, hstored, heq⟩ := exists_mem_words_ofWords order hword
    rw [← eq_spelling hstored heq]
    exact ⟨hstored, heq⟩
  refine ⟨fun stored => ⟨fun hstored => ?_, ?_⟩, fun word hword => (hspelled word hword).2, ?_⟩
  · obtain ⟨word, hword, heq⟩ := exists_of_mem_words_ofWords hstored
    exact ⟨word, hword, eq_spelling hstored (OrientedCmp.eq_symm heq)⟩
  · rintro ⟨word, hword, rfl⟩
    exact (hspelled word hword).1
  · rintro before first after rfl halike
    have hmem : first ∈ before ++ first :: after := by simp
    have hfirst := (hspelled first hmem).1
    rwa [spelling_eq_self halike] at hfirst

/-- A word that goes on behind an earlier one of the same case, and comes again in another. -/
theorem words_ofWords_spelled_alike :
    (∀ earlier ∈ [['A', 'b'], ['c']], ∀ places ≤ ['A', 'b', 'c'].length,
        agree (.folding .unicode) places earlier ['A', 'b', 'c'] = true →
          earlier.take places = ['A', 'b', 'c'].take places) ∧
      ['A', 'b', 'c'] ∈ (ofWords (.folding .unicode)
        [['A', 'b'], ['c'], ['A', 'b', 'c'], ['a', 'B', 'C']]).words := by
  have halike : ∀ earlier ∈ [['A', 'b'], ['c']], ∀ places ≤ ['A', 'b', 'c'].length,
      agree (.folding .unicode) places earlier ['A', 'b', 'c'] = true →
        earlier.take places = ['A', 'b', 'c'].take places := by
    decide +kernel
  exact ⟨halike, (words_ofWords_spelled (.folding .unicode)
    [['A', 'b'], ['c'], ['A', 'b', 'c'], ['a', 'B', 'C']]).2.2 _ _ _ rfl halike⟩

/-- A word that goes on behind an earlier one in another case is listed with a spelling in which no
    word was added, and not as it was added. -/
theorem first_spelling_lost :
    (ofWords (.folding .unicode) [['a'], ['A', 'B']]).words = [['a'], ['a', 'B']] ∧
      ¬∀ added : List Word,
        ∀ stored ∈ (ofWords (.folding .unicode) added).words, stored ∈ added := by
  have hwords : (ofWords (.folding .unicode) [['a'], ['A', 'B']]).words = [['a'], ['a', 'B']] := by
    decide +kernel
  refine ⟨hwords, fun hadded => ?_⟩
  have hstored := hadded [['a'], ['A', 'B']] ['a', 'B'] (by simp [hwords])
  simp at hstored

end Tree

end Lexicon.Ternary
