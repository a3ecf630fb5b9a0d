import Lexicon.Sort.Partition

namespace Lexicon.Sort

/-!
# Quicksort

* `Parted.sides` — the two sides of a partition, the smaller one first.
* `quickRange` — sorts a range: a partition, then the smaller side, then the greater one.
* `quick` — sorts a list.

Only the smaller side is sorted by a nested call, since the greater one comes last; as the
smaller side has at most half of the range, the nesting grows with the logarithm of the
number of words.
-/

variable {σ α : Type} {n : Nat}

/-- A stretch of positions, from `start` to before `stop`. -/
structure Stretch where
  /-- The first position. -/
  start : Nat
  /-- The position just past the last one. -/
  stop : Nat

/-- The number of positions of a stretch. -/
def Stretch.size (s : Stretch) : Nat :=
  s.stop - s.start

/-- Positions left of the pivot's place. -/
def Parted.left {first last : Nat} (p : Parted α n first last) : Stretch :=
  ⟨first, p.leftStop⟩

/-- Positions right of the pivot's place. -/
def Parted.right {first last : Nat} (p : Parted α n first last) : Stretch :=
  ⟨p.rightStart, last + 1⟩

/-- The side with fewer positions, then the other one; of equal sides the right one is first. -/
def Parted.sides {first last : Nat} (p : Parted α n first last) : Stretch × Stretch :=
  if p.left.size < p.right.size then (p.left, p.right) else (p.right, p.left)

/-- A stretch that lies in a range and misses a position of it. -/
structure Stretch.Within (s : Stretch) (first last : Nat) : Prop where
  /-- It does not begin before the range. -/
  first_le : first ≤ s.start
  /-- It does not end after the range. -/
  stop_le : s.stop ≤ last + 1
  /-- It is shorter than the range. -/
  shorter : s.stop + first < s.start + last + 1

/-- The last position of a stretch lies below every bound of the range. -/
theorem Stretch.Within.last_lt {s : Stretch} {first last : Nat} (h : s.Within first last)
    (hn : last < n) : s.stop - 1 < n := by
  have := h.stop_le
  omega

/-- A stretch of two words or more has less to go than the range. -/
theorem Stretch.Within.span_lt {s : Stretch} {first last : Nat} (h : s.Within first last)
    (hsize : s.start < s.stop - 1) : s.stop - 1 - s.start < last - first := by
  have := h.shorter
  omega

theorem Parted.left_within {first last : Nat} (p : Parted α n first last) :
    p.left.Within first last := by
  have := p.leftStop_le
  refine ⟨Nat.le_refl _, ?_, ?_⟩ <;> simp only [Parted.left] <;> omega

theorem Parted.right_within {first last : Nat} (p : Parted α n first last) :
    p.right.Within first last := by
  have := p.lt_rightStart
  refine ⟨?_, Nat.le_refl _, ?_⟩ <;> simp only [Parted.right] <;> omega

/-- Both sides are shorter than the range they come from. -/
theorem Parted.sides_within {first last : Nat} (p : Parted α n first last) :
    p.sides.1.Within first last ∧ p.sides.2.Within first last := by
  unfold Parted.sides
  split
  · exact ⟨p.left_within, p.right_within⟩
  · exact ⟨p.right_within, p.left_within⟩

/-- Sorts a range of at least two words; sides of fewer words are in order as they are. -/
def quickRange (ask : Comparison σ α) (words : Vector α n) (first last : Nat)
    (hrange : first < last) (hn : last < n) : StateM σ (Vector α n) := do
  let p ← partition ask words first last hrange hn
  -- The nested call: a side with at most half of the range.
  let words ←
    if h : p.sides.1.start < p.sides.1.stop - 1 then
      quickRange ask p.words p.sides.1.start (p.sides.1.stop - 1) h (p.sides_within.1.last_lt hn)
    else pure p.words
  -- The last call, which needs no nesting.
  if h : p.sides.2.start < p.sides.2.stop - 1 then
    quickRange ask words p.sides.2.start (p.sides.2.stop - 1) h (p.sides_within.2.last_lt hn)
  else pure words
termination_by last - first
decreasing_by
  · exact p.sides_within.2.span_lt h
  · exact p.sides_within.1.span_lt h

/-- Sorts by partition, in place. -/
def quick (ask : Comparison σ α) (words : List α) : StateM σ (List α) :=
  if h : 1 < words.length then do
    let sorted ← quickRange ask ⟨words.toArray, List.size_toArray⟩ 0 (words.length - 1)
      (by omega) (by omega)
    return sorted.toList
  else
    return words

end Lexicon.Sort
