import Mathlib.Tactic.SplitIfs

namespace Lexicon.Sort

/-!
# Swaps within a range

A sorter that works in place moves words by swapping positions.  Words that arise by swaps of
positions from `start` to before `stop` are a permutation, and the same outside.

* `Shuffled` — words after some swaps within a range.
* `Shuffled.perm`, `Shuffled.getElem_of_outside`, `Shuffled.perm_extract` — what swaps keep.
* `Throughout` — a property of the words of a range.
* `Throughout.shuffled_within`, `Throughout.shuffled_apart` — swaps within a range, and swaps
  elsewhere, keep what holds throughout it.
-/

variable {α : Type} {n start stop : Nat}

/-- Words after some swaps of positions from `start` to before `stop`. -/
inductive Shuffled (start stop : Nat) (words : Vector α n) : Vector α n → Prop where
  /-- No swap. -/
  | refl : Shuffled start stop words words
  /-- One more swap. -/
  | swap {shuffled : Vector α n} (h : Shuffled start stop words shuffled) (i j : Nat) (hi : i < n)
      (hj : j < n) (hirange : start ≤ i ∧ i < stop) (hjrange : start ≤ j ∧ j < stop) :
      Shuffled start stop words (shuffled.swap i j hi hj)

namespace Shuffled

variable {words shuffled later : Vector α n}

theorem trans (h : Shuffled start stop words shuffled) (h' : Shuffled start stop shuffled later) :
    Shuffled start stop words later := by
  induction h' with
  | refl => exact h
  | swap _ i j hi hj hirange hjrange ih => exact swap ih i j hi hj hirange hjrange

/-- Swaps within a range are swaps within any greater one. -/
theorem mono {start' stop' : Nat} (h : Shuffled start stop words shuffled) (hstart : start' ≤ start)
    (hstop : stop ≤ stop') : Shuffled start' stop' words shuffled := by
  induction h with
  | refl => exact refl
  | swap _ i j hi hj hirange hjrange ih =>
    exact swap ih i j hi hj ⟨by omega, by omega⟩ ⟨by omega, by omega⟩

/-- Swaps lose no word and bring none in. -/
theorem perm (h : Shuffled start stop words shuffled) : shuffled.toList.Perm words.toList := by
  induction h with
  | refl => exact List.Perm.refl _
  | swap _ i j hi hj _ _ ih => exact (Vector.swap_perm hi hj).toList.trans ih

/-- Outside the range, no word moves. -/
theorem getElem_of_outside (h : Shuffled start stop words shuffled) {k : Nat} (hk : k < n)
    (houtside : k < start ∨ stop ≤ k) : shuffled[k] = words[k] := by
  induction h with
  | refl => rfl
  | swap _ i j hi hj hirange hjrange ih =>
    rw [Vector.getElem_swap_of_ne (by omega) (by omega)]
    exact ih

/-- The range itself keeps its words, since nothing comes in from outside. -/
theorem perm_extract (h : Shuffled start stop words shuffled) :
    (shuffled.toList.extract start stop).Perm (words.toList.extract start stop) := by
  have hparts : ∀ l : List α,
      l = l.take start ++ (l.extract start stop ++ l.drop (start + (stop - start))) := fun l => by
    rw [List.extract_eq_take_drop, ← List.drop_drop, List.take_append_drop, List.take_append_drop]
  have hfront : shuffled.toList.take start = words.toList.take start := by
    refine List.ext_getElem (by simp) fun k hk _ => ?_
    rw [List.length_take, Vector.length_toList] at hk
    simpa using h.getElem_of_outside (by omega) (.inl (by omega))
  have hback : shuffled.toList.drop (start + (stop - start))
      = words.toList.drop (start + (stop - start)) := by
    refine List.ext_getElem (by simp) fun k hk _ => ?_
    rw [List.length_drop, Vector.length_toList] at hk
    simpa using h.getElem_of_outside (by omega) (.inr (by omega))
  have hperm := h.perm
  rw [hparts shuffled.toList, hparts words.toList, hfront, hback, List.perm_append_left_iff,
    List.perm_append_right_iff] at hperm
  exact hperm

end Shuffled

/-- What holds of the words at all positions from `start` to before `stop`. -/
def Throughout (start stop : Nat) (P : α → Prop) (words : Vector α n) : Prop :=
  ∀ (k : Nat) (hk : k < n), start ≤ k → k < stop → P words[k]

/-- Anything holds throughout a range of no words. -/
theorem throughout_of_le {P : α → Prop} (h : stop ≤ start) (words : Vector α n) :
    Throughout start stop P words := by
  intro k hk hstart hstop
  omega

/-- Swaps within a range keep what holds throughout it. -/
theorem Throughout.shuffled_within {P : α → Prop} {words shuffled : Vector α n}
    (h : Throughout start stop P words) (hshuffled : Shuffled start stop words shuffled) :
    Throughout start stop P shuffled := by
  induction hshuffled with
  | refl => exact h
  | swap _ i j hi hj hirange hjrange ih =>
    -- A word that comes to a place of the range comes from another one of it.
    intro k hk hstart hstop
    rw [Vector.getElem_swap]
    split_ifs
    · exact ih j hj hjrange.1 hjrange.2
    · exact ih i hi hirange.1 hirange.2
    · exact ih k hk hstart hstop

/-- Swaps elsewhere keep what holds throughout a range. -/
theorem Throughout.shuffled_apart {P : α → Prop} {words shuffled : Vector α n} {start' stop' : Nat}
    (h : Throughout start stop P words) (hshuffled : Shuffled start' stop' words shuffled)
    (hapart : stop ≤ start' ∨ stop' ≤ start) : Throughout start stop P shuffled := by
  intro k hk hstart hstop
  rw [hshuffled.getElem_of_outside hk (by omega)]
  exact h k hk hstart hstop

end Lexicon.Sort
