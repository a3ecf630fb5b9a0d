import Lexicon.Proofs.Sort.InPlace.Quick

namespace Lexicon.Sort.InPlace

open Std

/-!
# What a partition in place promises

A partition answers with the last position of its left side, if there is one, and with the first
position of its right side.  What it promises of them is all that a sorter relies on.

* `Parts` — the promise to every comparison: the words of the range stay in it, and the two sides
  are apart, neither of them the whole range.
* `PartsAround` — the promise to a comparison that agrees with an order: the words of either side
  are on the right side of a pivot, and those between the sides are equal to it.
* `partition_parts_range` — a partition in place keeps both promises.
-/

variable {σ α : Type} {n first last : Nat}

/-- The range `first ≤ i ≤ last` of some words after its partition. -/
structure Parts (first last : Nat) (words parted : Vector α n) (left? : Option Nat)
    (right : Nat) : Prop where
  /-- The range has the words that it had. -/
  perm : (parted.toList.extract first (last + 1)).Perm (words.toList.extract first (last + 1))
  /-- No other word moves. -/
  outside : ∀ (k : Nat) (hk : k < n), k < first ∨ last < k → parted[k] = words[k]
  /-- The left side ends no earlier than the range begins. -/
  first_le_stop : first ≤ stopAfter left?
  /-- The left side leaves out the last position. -/
  left_le : ∀ left ∈ left?, left ≤ last - 1
  /-- The right side leaves out the first position. -/
  succ_le_right : first + 1 ≤ right
  /-- The right side begins no later than just past the range. -/
  right_le : right ≤ last + 1
  /-- The sides do not overlap. -/
  left_lt_right : ∀ left ∈ left?, left < right

/-- The range `first ≤ i ≤ last` of some words after its partition around a pivot. -/
structure PartsAround (compare : α → α → Ordering) (pivot : α) (first last : Nat)
    (parted : Vector α n) (left? : Option Nat) (right : Nat) : Prop where
  /-- The words of the left side are not above the pivot. -/
  low : Throughout first (stopAfter left?) (compare · pivot ≠ .gt) parted
  /-- The words of the right side are not below the pivot. -/
  high : Throughout right (last + 1) (compare · pivot ≠ .lt) parted
  /-- The words between the sides are equal to the pivot. -/
  between : Throughout (stopAfter left?) right (compare · pivot = .eq) parted

/-- Swaps within the range and the bounds of the sides make up the promise. -/
theorem parts_of_shuffled {words : Vector α n} (p : Parted α n first last)
    (hshuffled : Shuffled first (last + 1) words p.words) (hfirst : first ≤ p.leftStop) :
    Parts first last words p.words (lastBefore p.leftStop) p.rightStart where
  perm := hshuffled.perm_extract
  outside k hk houtside := hshuffled.getElem_of_outside hk houtside
  first_le_stop := by
    rw [stopAfter_lastBefore]
    exact hfirst
  left_le left hleft := by
    have hstop := eq_succ_of_mem_lastBefore hleft
    have hle := p.leftStop_le
    omega
  succ_le_right := p.lt_rightStart
  right_le := p.rightStart_le
  left_lt_right left hleft := by
    have hstop := eq_succ_of_mem_lastBefore hleft
    have hle := p.leftStop_le_rightStart
    omega

/-- Words that are split around a pivot up to where the right side begins, and from where the
    left side ends, are equal to it between the sides. -/
theorem partsAround_of_split {compare : α → α → Ordering} {pivot : α} (p : Parted α n first last)
    (hsplit : Split compare pivot first last p.rightStart p.leftStop p.words)
    (hfirst : first ≤ p.leftStop) :
    PartsAround compare pivot first last p.words (lastBefore p.leftStop) p.rightStart := by
  have hle := p.leftStop_le_rightStart
  have hend := p.rightStart_le
  constructor
  · intro k hk hfirstk hkstop
    rw [stopAfter_lastBefore] at hkstop
    exact hsplit.low k hk hfirstk (by omega)
  · intro k hk hrightk hklast
    exact hsplit.high k hk (by omega) hklast
  · intro k hk hstopk hkright
    rw [stopAfter_lastBefore] at hstopk
    -- The split is known up to the right side and from the left side on, and so here both ways.
    have hlow := hsplit.low k hk (by omega) hkright
    have hhigh := hsplit.high k hk hstopk (by omega)
    cases hanswer : compare p.words[k] pivot with
    | lt => exact absurd hanswer hhigh
    | eq => rfl
    | gt => exact absurd hanswer hlow

/-- **Partition of a range.** Whatever a comparison answers, and whatever it remembers, the
    partition in place succeeds and does what `Sort.partition` does: it moves words of its range
    only, and parts it into two sides that are apart and neither of which is the whole range.  If
    the comparison agrees with an order in which words are equal to themselves, no word on the left
    is above the word that was in the middle, none on the right is below it, and those between the
    sides are equal to it. -/
theorem partition_parts_range (ask : Comparison σ α) (words : Vector α n) (hrange : first < last)
    (hn : last < n) (state : σ) :
    ∃ (p : Parted α n first last) (after : σ) (_ : first + (last - first) / 2 < n),
      Sort.partition ask words first last hrange hn state = (p, after) ∧
      partition ask words.toList first last state
        = some ((p.words.toList, lastBefore p.leftStop, p.rightStart), after) ∧
      Parts first last words p.words (lastBefore p.leftStop) p.rightStart ∧
      ∀ (compare : α → α → Ordering) [ReflCmp compare], Agrees ask compare →
        PartsAround compare words[first + (last - first) / 2] first last p.words
          (lastBefore p.leftStop) p.rightStart := by
  -- The scan down stops at `first` at the latest, so that the left side ends no earlier.
  have hfirst := partition_first_le ask words hrange hn state
  refine ⟨_, _, by omega, rfl, ?_, ?_, fun compare _ hask => ?_⟩
  · rw [partition_eq ask words hrange hn]
    rfl
  · exact parts_of_shuffled _ (partition_shuffled ask words hrange hn state) hfirst
  · exact partsAround_of_split _ (partition_split hask words hrange hn rfl (by omega) state) hfirst

/-- Numbers whose middle one comes twice: one of them ends up on the left, the other one between
    the sides. -/
theorem partition_parts_range_around_two :
    1 < 5 ∧ 5 < 7 ∧ ReflCmp (compare (α := Nat)) ∧
      partition (Comparison.ofOrder compare) [9, 3, 1, 2, 2, 5, 9] 1 5 ()
        = some (([9, 2, 1, 2, 3, 5, 9], some 2, 4), ()) ∧
      Parts 1 5 #v[9, 3, 1, 2, 2, 5, 9] #v[9, 2, 1, 2, 3, 5, 9] (some 2) 4 ∧
      PartsAround compare 2 1 5 #v[9, 2, 1, 2, 3, 5, 9] (some 2) 4 := by
  have hrun : partition (Comparison.ofOrder compare) [9, 3, 1, 2, 2, 5, 9] 1 5 ()
      = some (([9, 2, 1, 2, 3, 5, 9], some 2, 4), ()) := by with_unfolding_all rfl
  obtain ⟨p, after, _, -, hinPlace, hparts, haround⟩ :=
    partition_parts_range (Comparison.ofOrder compare) #v[9, 3, 1, 2, 2, 5, 9]
      (show 1 < 5 by decide) (by decide) ()
  have hsame := hinPlace.symm.trans hrun
  simp only [Option.some.injEq, Prod.mk.injEq] at hsame
  obtain ⟨⟨hwords, hleft, hright⟩, -⟩ := hsame
  have hvector : p.words = #v[9, 2, 1, 2, 3, 5, 9] := Vector.toList_inj.mp hwords
  have hsides := haround compare (agrees_ofOrder compare)
  rw [hvector, hleft, hright] at hparts hsides
  exact ⟨by decide, by decide, inferInstance, hrun, hparts, hsides⟩

end Lexicon.Sort.InPlace
