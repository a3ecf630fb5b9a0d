namespace Lexicon

/-!
# Median order

A sorted list that is visited in median order, the middle first, then the quarters, then the
eighths, fills a search tree evenly.  The levels of a perfect tree come first; the indices
that no level reaches follow in ascending order.

* `MedianOrder` — how far a visit of the indices below `count` has come.
* `MedianOrder.next?` — the next index.
* `MedianOrder.lt_count_of_inLevels` — the levels reach no index past the end, so the search
  for one that they miss ends.
-/

/-- A visit of the indices below `count` in median order. -/
structure MedianOrder where
  /-- The number of indices in all. -/
  count : Nat
  /-- The number of indices visited. -/
  position : Nat
  /-- The least index not yet looked at in the search for those between the levels. -/
  cursor : Nat

namespace MedianOrder

/-- A visit that has yet to begin. -/
def start (count : Nat) : MedianOrder :=
  ⟨count, 0, 0⟩

/-- Number of indices still to be visited. -/
def left (visit : MedianOrder) : Nat :=
  visit.count - visit.position

/-- One more than the size of the largest perfect tree that `count` indices fill, as far as
    a 64-bit word can hold it. -/
def width (count : Nat) : Nat :=
  Nat.pow 2 (min (count + 1) 0xFFFFFFFFFFFFFFFF).log2

/-- Index at the `m`-th of `width` even parts of the list. -/
def partEnd (count m : Nat) : Nat :=
  count * m / width count

/-- Whether some part between the first and the last ends at the index; the only one that can
    is the first that reaches it. -/
def inLevels (count index : Nat) : Bool :=
  let m := max 1 ((index * width count + count - 1) / count)
  decide (m < width count) && partEnd count m == index

theorem lt_count_of_inLevels {count index : Nat} (h : inLevels count index = true) :
    index < count := by
  simp only [inLevels, Bool.and_eq_true, decide_eq_true_eq, beq_iff_eq] at h
  obtain ⟨hlt, heq⟩ := h
  rw [← heq]
  cases count with
  | zero =>
    have hwidth : width 0 = 1 := by decide
    omega
  | succ count =>
    refine (Nat.div_lt_iff_lt_mul (by omega)).mpr ?_
    exact Nat.mul_lt_mul_of_pos_left hlt (by omega)

/-- The first index from `candidate` on that the levels do not reach. -/
def skipLevels (count candidate : Nat) : Nat :=
  if h : inLevels count candidate = true then
    have := lt_count_of_inLevels h
    skipLevels count (candidate + 1)
  else candidate
termination_by count - candidate

/-- Index at a position within the levels: on the level that starts with the greatest power
    of two up to the position, counted from one, at the odd multiples of its share. -/
def levelIndex (count position : Nat) : Nat :=
  let level := Nat.pow 2 (position + 1).log2
  let offset := position + 1 - level
  partEnd count ((2 * offset + 1) * (width count / (2 * level)))

/-- The next index and the visit after it. -/
def next? (visit : MedianOrder) : Option (Nat × MedianOrder) :=
  if visit.count ≤ visit.position then none
  else if visit.position < width visit.count - 1 then
    some (levelIndex visit.count visit.position, { visit with position := visit.position + 1 })
  else
    let index := skipLevels visit.count visit.cursor
    some (index, { visit with position := visit.position + 1, cursor := index + 1 })

theorem left_of_next? {visit after : MedianOrder} {index : Nat}
    (h : visit.next? = some (index, after)) : visit.left = after.left + 1 := by
  unfold next? at h
  split at h
  · simp at h
  · split at h <;> simp only [Option.some.injEq, Prod.mk.injEq] at h <;> obtain ⟨_, rfl⟩ := h <;>
      simp only [left] <;> omega

/-- The next indices, up to the given number of them, and the visit after them. -/
def take : (number : Nat) → MedianOrder → List Nat × MedianOrder
  | 0, visit => ([], visit)
  | number + 1, visit =>
    match visit.next? with
    | none => ([], visit)
    | some (index, after) =>
      let (indices, last) := take number after
      (index :: indices, last)

/-- All indices below `count` in median order. -/
def indices (count : Nat) : List Nat :=
  ((start count).take count).1

end MedianOrder

end Lexicon
