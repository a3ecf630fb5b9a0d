import Lexicon.Sort.Basic

namespace Lexicon.Sort

/-!
# Partition around a pivot

Two scans close in on each other from the ends of a range and swap the words that stop them.
Each scan is also stopped by the far end of the range, so that no comparison can lead it
out, however it answers.

* `climb`, `descend` — the two scans.
* `Parted` — the words after the partition, and where its two sides end and begin.
* `partition` — partition of a range around the word in its middle.
-/

variable {σ α : Type} {n : Nat}

/-- First position from `i` on whose word does not compare below the pivot, or `last`. -/
def climb (ask : Comparison σ α) (words : Vector α n) (pivot : α) (last : Nat) (hlast : last < n)
    (i : Nat) (hi : i ≤ last) : StateM σ { k : Nat // i ≤ k ∧ k ≤ last } :=
  if h : i < last then do
    if (← ask words[i] pivot) == .lt then
      let ⟨k, hk⟩ ← climb ask words pivot last hlast (i + 1) h
      return ⟨k, by omega⟩
    else
      return ⟨i, by omega⟩
  else
    return ⟨i, by omega⟩
termination_by last - i

/-- Last position down from `i` whose word does not compare above the pivot, or `first`. -/
def descend (ask : Comparison σ α) (words : Vector α n) (pivot : α) (first : Nat)
    (i : Nat) (hn : i < n) (hi : first ≤ i) : StateM σ { k : Nat // first ≤ k ∧ k ≤ i } :=
  if h : first < i then do
    if (← ask words[i] pivot) == .gt then
      let ⟨k, hk⟩ ← descend ask words pivot first (i - 1) (by omega) (by omega)
      return ⟨k, by omega⟩
    else
      return ⟨i, by omega⟩
  else
    return ⟨i, by omega⟩
termination_by i - first

/-- A range `first ≤ i ≤ last` after its partition: the left side ends before `leftStop`, the
    right side begins at `rightStart`, and neither fills the range. -/
structure Parted (α : Type) (n first last : Nat) where
  /-- All words, those outside the range included. -/
  words : Vector α n
  /-- The position just past the left side. -/
  leftStop : Nat
  /-- The first position of the right side. -/
  rightStart : Nat
  /-- The left side leaves out the last position. -/
  leftStop_le : leftStop ≤ last
  /-- The right side leaves out the first position. -/
  lt_rightStart : first < rightStart
  /-- The right side ends with the range. -/
  rightStart_le : rightStart ≤ last + 1
  /-- The sides do not overlap. -/
  leftStop_le_rightStart : leftStop ≤ rightStart

/-- Goes on with the positions from `i` to before `stop`, the only ones not yet assigned to a
    side.  They are all of the range at first; after a swap both ends have moved. -/
def partitionFrom (ask : Comparison σ α) (pivot : α) (first last : Nat) (hrange : first < last)
    (hn : last < n) (words : Vector α n) (i stop : Nat)
    (hends : (i = first ∧ stop = last + 1) ∨ (first < i ∧ i ≤ last + 1 ∧ stop ≤ last)) :
    StateM σ (Parted α n first last) :=
  if h : i < stop then do
    let ⟨left, hleft⟩ ← climb ask words pivot last hn i (by omega)
    let ⟨right, hright⟩ ← descend ask words pivot first (stop - 1) (by omega) (by omega)
    -- Once the scans have passed each other, the positions between them are settled.
    if hswap : left ≤ right then
      partitionFrom ask pivot first last hrange hn (words.swap left right) (left + 1) right
        (by omega)
    else
      return ⟨words, right + 1, left, by omega, by omega, by omega, by omega⟩
  else
    return ⟨words, stop, i, by omega, by omega, by omega, by omega⟩
termination_by stop - i

/-- Partitions the range around the word in its middle. -/
def partition (ask : Comparison σ α) (words : Vector α n) (first last : Nat)
    (hrange : first < last) (hn : last < n) : StateM σ (Parted α n first last) :=
  partitionFrom ask words[first + (last - first) / 2] first last hrange hn words first (last + 1)
    (by omega)

end Lexicon.Sort
