import Lexicon.Proofs.MedianOrder.Levels

namespace Lexicon.MedianOrder

/-!
# A median order visits every index once

The levels come first, and the indices that they miss after them.

* `rest` — the indices that a visit has yet to come to.
* `missedFrom` — the indices that the levels miss.
* `rest_of_missed`, `rest_of_levels` — the rest of a visit behind the levels, and within them.
* `indices_perm` — the indices in median order are a permutation of all.
-/

/-! ### The rest of a visit -/

/-- The indices still to be visited, in order. -/
def rest (visit : MedianOrder) : List Nat :=
  (visit.take visit.left).1

theorem rest_of_next?_none {visit : MedianOrder} (h : visit.next? = none) : visit.rest = [] := by
  unfold rest
  cases visit.left with
  | zero => rfl
  | succ number => rw [take, h]

/-- A visit goes on with its next index and then with the rest behind it. -/
theorem rest_of_next?_some {visit after : MedianOrder} {index : Nat}
    (h : visit.next? = some (index, after)) : visit.rest = index :: after.rest := by
  rw [rest, left_of_next? h, take, h]
  rfl

/-! ### Indices that the levels miss -/

/-- The indices from a candidate on that the levels miss. -/
def missedFrom (count candidate : Nat) : List Nat :=
  (List.range' candidate (count - candidate)).filter fun index => !inLevels count index

theorem missedFrom_of_le {count candidate : Nat} (h : count ≤ candidate) :
    missedFrom count candidate = [] := by
  rw [missedFrom, Nat.sub_eq_zero_of_le h, List.range'_zero, List.filter_nil]

theorem missedFrom_of_lt {count candidate : Nat} (h : candidate < count) :
    missedFrom count candidate =
      if inLevels count candidate then missedFrom count (candidate + 1)
      else candidate :: missedFrom count (candidate + 1) := by
  have hrange : count - candidate = (count - (candidate + 1)) + 1 := by omega
  rw [missedFrom, hrange, List.range'_succ, List.filter_cons]
  cases inLevels count candidate <;> rfl

/-- Passing over what the levels reach misses nothing that they miss. -/
theorem missedFrom_skipLevels (count candidate : Nat) :
    missedFrom count (skipLevels count candidate) = missedFrom count candidate := by
  fun_induction skipLevels count candidate with
  | case1 candidate hlevel hlt ih =>
    rw [ih, missedFrom_of_lt hlt, if_pos hlevel]
  | case2 => rfl

theorem inLevels_skipLevels (count candidate : Nat) :
    inLevels count (skipLevels count candidate) = false := by
  fun_induction skipLevels count candidate with
  | case1 candidate hlevel hlt ih => exact ih
  | case2 candidate hlevel => simpa using hlevel

/-- As long as an index is missed, the search for one stops in front of the end. -/
theorem skipLevels_lt {count candidate : Nat} (h : missedFrom count candidate ≠ []) :
    skipLevels count candidate < count := by
  rw [← missedFrom_skipLevels] at h
  by_contra hge
  exact h (missedFrom_of_le (not_lt.mp hge))

/-- Where the search for a missed index stops, the missed ones go on. -/
theorem missedFrom_eq_cons {count candidate : Nat} (h : missedFrom count candidate ≠ []) :
    missedFrom count candidate =
      skipLevels count candidate :: missedFrom count (skipLevels count candidate + 1) := by
  rw [← missedFrom_skipLevels, missedFrom_of_lt (skipLevels_lt h), inLevels_skipLevels]
  rfl

/-- There are as many missed indices as positions behind the levels. -/
theorem length_missedFrom (count : Nat) :
    (missedFrom count 0).length = count - (width count - 1) := by
  have hlevels := (levels_perm count).length_eq
  rw [List.length_map, List.length_range] at hlevels
  have hsplit := List.length_eq_length_filter_add (l := List.range count) (inLevels count)
  rw [List.length_range, ← hlevels] at hsplit
  rw [missedFrom, Nat.sub_zero, ← List.range_eq_range']
  omega

/-! ### Visits -/

/-- Behind the levels, a visit comes to the missed indices one by one. -/
theorem rest_of_missed {number count position cursor : Nat} (hlevels : width count - 1 ≤ position)
    (hnumber : position + number = count) (hlength : (missedFrom count cursor).length = number) :
    (⟨count, position, cursor⟩ : MedianOrder).rest = missedFrom count cursor := by
  -- There are as many positions left as missed indices, and each position takes one.
  induction number generalizing position cursor with
  | zero =>
    have hnone : (⟨count, position, cursor⟩ : MedianOrder).next? = none := by
      simp only [next?]
      rw [if_pos (by omega)]
    rw [rest_of_next?_none hnone, List.eq_nil_of_length_eq_zero hlength]
  | succ number ih =>
    have hnext : (⟨count, position, cursor⟩ : MedianOrder).next?
        = some (skipLevels count cursor,
          ⟨count, position + 1, skipLevels count cursor + 1⟩) := by
      simp only [next?]
      rw [if_neg (by omega), if_neg (by omega)]
    have hcons : missedFrom count cursor =
        skipLevels count cursor :: missedFrom count (skipLevels count cursor + 1) := by
      refine missedFrom_eq_cons fun hnil => ?_
      rw [hnil, List.length_nil] at hlength
      omega
    rw [hcons, List.length_cons] at hlength
    rw [rest_of_next?_some hnext, hcons, ih (by omega) (by omega) (by omega)]

/-- Within the levels, a visit comes to their other positions and then to the missed indices. -/
theorem rest_of_levels {number count position : Nat} (h : position + number = width count - 1) :
    (⟨count, position, 0⟩ : MedianOrder).rest
      = (List.range' position number).map (levelIndex count) ++ missedFrom count 0 := by
  have hwidth := width_le count
  induction number generalizing position with
  | zero =>
    -- Behind the levels the search for missed indices starts from the first index.
    rw [List.range'_zero, List.map_nil, List.nil_append]
    refine rest_of_missed (by omega) (Nat.add_sub_cancel' (by omega)) ?_
    rw [length_missedFrom, ← h, Nat.add_zero]
  | succ number ih =>
    have hnext : (⟨count, position, 0⟩ : MedianOrder).next?
        = some (levelIndex count position, ⟨count, position + 1, 0⟩) := by
      simp only [next?]
      rw [if_neg (by omega), if_pos (by omega)]
    rw [rest_of_next?_some hnext, ih (by omega), List.range'_succ, List.map_cons, List.cons_append]

/-- The levels come first, and then the indices that they miss. -/
theorem indices_eq (count : Nat) :
    indices count
      = (List.range (width count - 1)).map (levelIndex count) ++ missedFrom count 0 := by
  rw [List.range_eq_range']
  exact rest_of_levels (Nat.zero_add _)

/-- The indices in median order are a permutation of all. -/
theorem indices_perm (count : Nat) : (indices count).Perm (List.range count) := by
  have hmissed : missedFrom count 0
      = (List.range count).filter fun index => !inLevels count index := by
    rw [missedFrom, Nat.sub_zero, List.range_eq_range']
  have hsplit := List.filter_append_perm (inLevels count) (List.range count)
  rw [indices_eq, hmissed]
  exact ((levels_perm count).append_right _).trans hsplit

end Lexicon.MedianOrder
