import Lexicon.Proofs.MedianOrder.Permutation
import Mathlib.Tactic.Simps.Basic

namespace Lexicon.MedianOrder

/-!
# Median orders of 64-bit numbers

A visit counts with numbers of a fixed size.  No step of it leaves their range, divides by zero or
looks for an index that is not there, however many indices there are.

* `word?`, `doubleWord?`, `minus?`, `quotient?` — operations that fail out of range.
* `Counters` — a visit with these operations in place of those on all numbers.
* `Reached` — what holds of every visit that has begun at the start.
* `Reached.next?_counters` — a step that is reached fails nowhere, and is the step of the visit.
* `indices_bounded` — so does a whole visit, which comes to every index once and then ends.
-/

/-! ### Operations that fail out of range -/

/-- A number that fits into 64 bits. -/
def word? (n : Nat) : Option Nat :=
  if n < 2 ^ 64 then some n else none

/-- A number that fits into 128 bits. -/
def doubleWord? (n : Nat) : Option Nat :=
  if n < 2 ^ 128 then some n else none

/-- A difference that is not negative. -/
def minus? (a b : Nat) : Option Nat :=
  if b ≤ a then some (a - b) else none

/-- A quotient, rounded down, by a number other than zero. -/
def quotient? (a b : Nat) : Option Nat :=
  if b = 0 then none else some (a / b)

/-- A quotient of 128 bits, rounded up: one more than the one rounded down if something is left. -/
def quotientUp? (a b : Nat) : Option Nat := do
  let quotient ← quotient? a b
  if a % b = 0 then some quotient else doubleWord? (quotient + 1)

/-- Number of zeros in front of a number of 64 bits. -/
def leadingZeros (n : Nat) : Nat :=
  if n = 0 then 64 else 63 - n.log2

/-- The greatest power of two up to a number, as a one shifted to the first one of the number. -/
def floorPowerOfTwo? (n : Nat) : Option Nat := do
  let shift ← minus? 63 (leadingZeros n)
  word? (2 ^ shift)

variable {a b n : Nat}

theorem word?_of_lt (h : n < 2 ^ 64) : word? n = some n :=
  if_pos h

theorem word?_eq_some_iff {m : Nat} : word? n = some m ↔ n < 2 ^ 64 ∧ n = m := by
  rw [word?, Option.ite_none_right_eq_some, Option.some.injEq]

theorem doubleWord?_of_lt (h : n < 2 ^ 128) : doubleWord? n = some n :=
  if_pos h

theorem minus?_of_le (h : b ≤ a) : minus? a b = some (a - b) :=
  if_pos h

theorem quotient?_of_pos (h : 0 < b) : quotient? a b = some (a / b) :=
  if_neg h.ne'

/-- A product of two numbers of 64 bits fits into 128 bits. -/
theorem doubleWord?_mul (ha : a < 2 ^ 64) (hb : b < 2 ^ 64) : doubleWord? (a * b) = some (a * b) :=
  doubleWord?_of_lt ((Nat.mul_lt_mul'' ha hb).trans_eq (Nat.pow_add 2 64 64).symm)

/-- Rounding up leaves no range that rounding down keeps to. -/
theorem quotientUp?_of_pos (ha : a < 2 ^ 128) (hb : 0 < b) :
    quotientUp? a b = some ((a + b - 1) / b) := by
  -- Divided part by part, `a + (b - 1)` gives the quotient of `a`, and one more for what is left.
  have hpred : (b - 1) / b = 0 ∧ (b - 1) % b = b - 1 :=
    ⟨Nat.div_eq_of_lt (by omega), Nat.mod_eq_of_lt (by omega)⟩
  have hmod := Nat.mod_lt a hb
  rw [quotientUp?, quotient?_of_pos hb, Nat.add_sub_assoc hb, Nat.add_div hb, hpred.1, hpred.2]
  simp only [Option.bind_eq_bind, Option.bind_some]
  split_ifs with hrest
  · omega
  · rfl
  · -- Something is left only by a divisor of at least two, which makes room for one more.
    have hlt : a / b < a := Nat.div_lt_self (Nat.pos_of_ne_zero (by rintro rfl; simp at hrest))
      (by
        by_contra hle
        obtain rfl : b = 1 := by omega
        exact hrest (Nat.mod_one a))
    exact doubleWord?_of_lt (by omega)
  · omega

theorem floorPowerOfTwo?_of_pos (hpos : 0 < n) (h : n < 2 ^ 64) :
    floorPowerOfTwo? n = some (2 ^ n.log2) := by
  have hlog : n.log2 < 64 := (Nat.log2_lt hpos.ne').mpr h
  have hzeros : leadingZeros n = 63 - n.log2 := if_neg hpos.ne'
  have hshift : 63 - (63 - n.log2) = n.log2 := by omega
  rw [floorPowerOfTwo?, hzeros, minus?_of_le (Nat.sub_le _ _), hshift]
  exact word?_of_lt (Nat.pow_lt_pow_right Nat.one_lt_two hlog)

/-! ### Visits that count in 64 bits -/

/-- A visit that keeps the number of parts beside it. -/
structure Counters where
  /-- The number of indices in all. -/
  count : Nat
  /-- The number of parts. -/
  parts : Nat
  /-- The number of indices visited. -/
  position : Nat
  /-- The least index not yet looked at in the search for those between the levels. -/
  cursor : Nat

namespace Counters

/-- A visit that has yet to begin; where one more index cannot be counted, the parts are those of
    the indices themselves. -/
def start? (count : Nat) : Option Counters := do
  let parts ← floorPowerOfTwo? (min (count + 1) (2 ^ 64 - 1))
  return ⟨count, parts, 0, 0⟩

/-- Index at the `m`-th of the parts. -/
def partEnd? (visit : Counters) (m : Nat) : Option Nat := do
  let product ← doubleWord? (visit.count * m)
  word? (← quotient? product visit.parts)

/-- Whether some part between the first and the last ends at the index. -/
def inLevels? (visit : Counters) (index : Nat) : Option Bool := do
  let product ← doubleWord? (index * visit.parts)
  let m ← word? (← quotientUp? product visit.count)
  let m := max m 1
  if m < visit.parts then return (← visit.partEnd? m) == index else return false

/-- The first index from `candidate` on that the levels do not reach, if there is one in range. -/
def skipLevels? (visit : Counters) (candidate : Nat) : Option Nat := do
  if ← visit.inLevels? candidate then
    match h : word? (candidate + 1) with
    | none => none
    | some next =>
      have := word?_eq_some_iff.mp h
      visit.skipLevels? next
  else return candidate
termination_by 2 ^ 64 - candidate

/-- Index at the position within the levels. -/
def levelIndex? (visit : Counters) : Option Nat := do
  let place ← word? (visit.position + 1)
  let level ← floorPowerOfTwo? place
  let offset ← minus? place level
  let odd ← word? ((← word? (2 * offset)) + 1)
  let share ← quotient? visit.parts (← word? (2 * level))
  visit.partEnd? (← word? (odd * share))

/-- The next index, if there is one, and the visit after it. -/
def next? (visit : Counters) : Option (Option (Nat × Counters)) := do
  if visit.count ≤ visit.position then return none
  let complete ← minus? visit.parts 1
  if visit.position < complete then
    let index ← visit.levelIndex?
    let position ← word? (visit.position + 1)
    return some (index, { visit with position })
  else
    let index ← visit.skipLevels? visit.cursor
    let cursor ← word? (index + 1)
    let position ← word? (visit.position + 1)
    return some (index, { visit with position, cursor })

/-- The number of indices still to be visited, as a lower and as an upper bound. -/
def sizeHint? (visit : Counters) : Option (Nat × Option Nat) := do
  let left ← minus? visit.count visit.position
  return (left, some left)

/-- The indices that some calls give, where a visit that has ended gives no more, and the visit
    after them. -/
def take? : (calls : Nat) → Counters → Option (List Nat × Counters)
  | 0, visit => some ([], visit)
  | calls + 1, visit => do
    match ← visit.next? with
    | none => take? calls visit
    | some (index, after) =>
      let (indices, last) ← take? calls after
      return (index :: indices, last)

/-- The indices that the first calls give, and the visit after them. -/
def run? (count calls : Nat) : Option (List Nat × Counters) := do
  take? calls (← start? count)

/-! ### The numbers of a visit -/

/-- The numbers of a visit. -/
@[simps]
def ofVisit (visit : MedianOrder) : Counters :=
  ⟨visit.count, width visit.count, visit.position, visit.cursor⟩

variable {visit : MedianOrder}

theorem width_lt (count : Nat) : width count < 2 ^ 64 := by
  calc width count ≤ min (count + 1) 0xFFFFFFFFFFFFFFFF := Nat.log2_self_le (by omega)
    _ ≤ 0xFFFFFFFFFFFFFFFF := Nat.min_le_right _ _
    _ < 2 ^ 64 := by decide

theorem start?_eq (count : Nat) : start? count = some (ofVisit (start count)) := by
  rw [start?, floorPowerOfTwo?_of_pos (by omega) (by omega)]
  rfl

theorem partEnd?_eq (hword : visit.count < 2 ^ 64) {m : Nat} (hm : m ≤ width visit.count) :
    (ofVisit visit).partEnd? m = some (partEnd visit.count m) := by
  have hwidth := width_lt visit.count
  have hend : partEnd visit.count m ≤ visit.count := by
    have := Nat.div_le_div_right (c := width visit.count) (Nat.mul_le_mul_left visit.count hm)
    rwa [Nat.mul_div_cancel _ (width_pos _)] at this
  have hend' : visit.count * m / width visit.count < 2 ^ 64 := hend.trans_lt hword
  rw [partEnd?]
  simp only [ofVisit_count, ofVisit_parts, doubleWord?_mul hword (hm.trans_lt hwidth),
    quotient?_of_pos (width_pos _), Option.bind_eq_bind, Option.bind_some]
  exact word?_of_lt hend'

theorem inLevels?_eq (hword : visit.count < 2 ^ 64) {index : Nat} (hindex : index < visit.count) :
    (ofVisit visit).inLevels? index = some (inLevels visit.count index) := by
  have hwidth := width_lt visit.count
  have hpos : 0 < visit.count := by omega
  have hproduct : index * width visit.count < 2 ^ 128 :=
    (Nat.mul_lt_mul'' (hindex.trans hword) hwidth).trans_eq (Nat.pow_add 2 64 64).symm
  have hfirst : (index * width visit.count + visit.count - 1) / visit.count
      ≤ width visit.count := by
    refine Nat.le_of_lt_succ ((Nat.div_lt_iff_lt_mul hpos).mpr ?_)
    have := Nat.mul_le_mul_right (width visit.count) hindex.le
    rw [Nat.succ_mul, Nat.mul_comm (width visit.count)]
    omega
  rw [inLevels?, inLevels, Nat.max_comm 1]
  simp only [ofVisit_count, ofVisit_parts, doubleWord?_of_lt hproduct,
    quotientUp?_of_pos hproduct hpos, word?_of_lt (hfirst.trans_lt hwidth), Option.bind_eq_bind,
    Option.bind_some]
  split_ifs with hlt
  · rw [partEnd?_eq hword hlt.le, decide_eq_true hlt, Bool.true_and]
    rfl
  · rw [decide_eq_false hlt, Bool.false_and]
    rfl

/-- A search that ends at an index ends there within the range of 64 bits. -/
theorem skipLevels?_eq (hword : visit.count < 2 ^ 64) {candidate : Nat}
    (hlast : skipLevels visit.count candidate < visit.count) :
    (ofVisit visit).skipLevels? candidate = some (skipLevels visit.count candidate) := by
  -- The induction is over the search alone, which needs a count that is a variable.
  obtain ⟨count, hcount⟩ : ∃ count, count = visit.count := ⟨_, rfl⟩
  rw [← hcount] at hlast ⊢
  fun_induction skipLevels count candidate with
  | case1 candidate hlevel hlt ih =>
    rw [hcount] at hlevel hlt
    rw [skipLevels?, inLevels?_eq hword hlt, hlevel]
    simp only [Option.bind_eq_bind, Option.bind_some, if_true]
    rw [word?_of_lt (by omega)]
    exact ih hlast
  | case2 candidate hlevel =>
    rw [hcount] at hlevel hlast
    rw [skipLevels?, inLevels?_eq hword hlast]
    simp only [Option.bind_eq_bind, Option.bind_some, hlevel]
    rfl

theorem levelIndex?_eq (hword : visit.count < 2 ^ 64)
    (h : visit.position + 1 < width visit.count) :
    (ofVisit visit).levelIndex? = some (levelIndex visit.count visit.position) := by
  have hwidth := width_lt visit.count
  have hslot := (slot_mem h).2
  obtain ⟨offset, rest, hposition, hoffset, hparts, -⟩ := exists_slot_eq h
  have hself : 2 ^ (visit.position + 1).log2 ≤ visit.position + 1 := Nat.log2_self_le (by omega)
  -- Within the levels, the parts are no fewer than twice the power of two up to the place.
  have hdouble : 2 * 2 ^ (visit.position + 1).log2 ≤ width visit.count := by
    rw [hparts, ← Nat.pow_succ']
    exact Nat.le_mul_of_pos_right _ (Nat.two_pow_pos rest)
  have hodd : 2 * (visit.position + 1 - 2 ^ (visit.position + 1).log2) + 1 < 2 ^ 64 := by omega
  rw [levelIndex?, levelIndex]
  simp only [ofVisit_parts, ofVisit_position, word?_of_lt (h.trans hwidth),
    floorPowerOfTwo?_of_pos (Nat.succ_pos visit.position) (h.trans hwidth), minus?_of_le hself,
    word?_of_lt (Nat.lt_of_succ_lt hodd), word?_of_lt hodd, word?_of_lt (hdouble.trans_lt hwidth),
    quotient?_of_pos (Nat.mul_pos Nat.two_pos (Nat.two_pow_pos _)), Option.bind_eq_bind,
    Option.bind_some]
  show (word? (slot visit.count visit.position)).bind _ = _
  rw [word?_of_lt (hslot.trans hwidth), Option.bind_some]
  exact partEnd?_eq hword hslot.le

end Counters

/-! ### Visits that are reached -/

/-- What holds of a visit after any number of steps from its start. -/
structure Reached (visit : MedianOrder) : Prop where
  /-- Indices are visited until all have been. -/
  position_le : visit.position ≤ visit.count
  /-- From the cursor on there are as many missed indices as have yet to be visited. -/
  length_missed : (missedFrom visit.count visit.cursor).length
    = visit.count - max visit.position (width visit.count - 1)

variable {visit after : MedianOrder} {index : Nat}

theorem reached_start (count : Nat) : (start count).Reached where
  position_le := Nat.zero_le _
  length_missed := by
    show (missedFrom count 0).length = count - max 0 (width count - 1)
    rw [length_missedFrom, Nat.zero_max]

/-- Behind the levels, there is an index left that the levels miss. -/
theorem Reached.missed_ne_nil (h : visit.Reached) (hlevels : width visit.count - 1 ≤ visit.position)
    (hlast : visit.position < visit.count) : missedFrom visit.count visit.cursor ≠ [] := by
  intro hnil
  have := h.length_missed
  rw [hnil, List.length_nil] at this
  omega

/-- A visit that goes on is reached as before. -/
theorem Reached.next? (h : visit.Reached) (hnext : visit.next? = some (index, after)) :
    after.Reached ∧ after.count = visit.count ∧ after.position = visit.position + 1 := by
  have hlength := h.length_missed
  unfold MedianOrder.next? at hnext
  split_ifs at hnext with hend hlevels
  · obtain ⟨-, rfl⟩ := Prod.mk.inj (Option.some.inj hnext)
    refine ⟨⟨?_, ?_⟩, rfl, rfl⟩
    · show visit.position + 1 ≤ visit.count
      omega
    · show (missedFrom visit.count visit.cursor).length
        = visit.count - max (visit.position + 1) (width visit.count - 1)
      omega
  · obtain ⟨rfl, rfl⟩ := Prod.mk.inj (Option.some.inj hnext)
    rw [missedFrom_eq_cons (h.missed_ne_nil (by omega) (by omega)), List.length_cons] at hlength
    refine ⟨⟨?_, ?_⟩, rfl, rfl⟩
    · show visit.position + 1 ≤ visit.count
      omega
    · show (missedFrom visit.count (skipLevels visit.count visit.cursor + 1)).length
        = visit.count - max (visit.position + 1) (width visit.count - 1)
      omega

/-- A step that is reached fails nowhere, and is the step of the visit. -/
theorem Reached.next?_counters (h : visit.Reached) (hword : visit.count < 2 ^ 64) :
    (Counters.ofVisit visit).next?
      = some (visit.next?.map fun (index, after) => (index, Counters.ofVisit after)) := by
  have hwidth := width_pos visit.count
  rw [Counters.next?, MedianOrder.next?]
  simp only [Counters.ofVisit_count, Counters.ofVisit_parts, Counters.ofVisit_position,
    minus?_of_le (Nat.succ_le_of_lt hwidth), Option.bind_eq_bind, Option.bind_some]
  split_ifs with hend hlevels
  · rfl
  · rw [Counters.levelIndex?_eq hword (by omega), word?_of_lt (by omega)]
    rfl
  · -- An index is left that the levels miss, so that the search for it stops in range.
    have hskip := skipLevels_lt (h.missed_ne_nil (by omega) (by omega))
    rw [Counters.ofVisit_cursor, Counters.skipLevels?_eq hword hskip, Option.bind_some,
      word?_of_lt (by omega), Option.bind_some, word?_of_lt (by omega)]
    rfl

/-! ### Whole visits -/

/-- A visit ends when all indices have been visited. -/
theorem next?_eq_none_iff : visit.next? = none ↔ visit.count ≤ visit.position := by
  unfold MedianOrder.next?
  split_ifs with hend hlevels <;> simp [hend]

theorem take_of_next?_none (h : visit.next? = none) (calls : Nat) :
    visit.take calls = ([], visit) := by
  cases calls with
  | zero => rfl
  | succ calls => rw [take, h]

theorem take_of_next?_some (h : visit.next? = some (index, after)) (calls : Nat) :
    visit.take (calls + 1) = (index :: (after.take calls).1, (after.take calls).2) := by
  rw [take, h]

/-- Some calls give the first of the indices that have yet to be visited. -/
theorem take_eq_rest (visit : MedianOrder) (calls : Nat) :
    (visit.take calls).1 = visit.rest.take calls := by
  induction calls generalizing visit with
  | zero => rfl
  | succ calls ih =>
    cases hnext : visit.next? with
    | none => rw [take_of_next?_none hnext, rest_of_next?_none hnext, List.take_nil]
    | some next =>
      obtain ⟨index, after⟩ := next
      rw [take_of_next?_some hnext, rest_of_next?_some hnext, List.take_succ_cons, ih]

/-- After some calls, a visit is reached as before and as many indices further on. -/
theorem Reached.take (h : visit.Reached) (calls : Nat) :
    (visit.take calls).2.Reached ∧ (visit.take calls).2.count = visit.count ∧
      (visit.take calls).2.position = min (visit.position + calls) visit.count := by
  induction calls generalizing visit with
  | zero => exact ⟨h, rfl, (Nat.min_eq_left h.position_le).symm⟩
  | succ calls ih =>
    cases hnext : visit.next? with
    | none =>
      rw [take_of_next?_none hnext]
      have hend := next?_eq_none_iff.mp hnext
      have hle := h.position_le
      refine ⟨h, rfl, ?_⟩
      show visit.position = min (visit.position + (calls + 1)) visit.count
      omega
    | some next =>
      obtain ⟨index, after⟩ := next
      obtain ⟨hafter, hcount, hposition⟩ := h.next? hnext
      obtain ⟨hlast, hlastCount, hlastPosition⟩ := ih hafter
      rw [take_of_next?_some hnext]
      refine ⟨hlast, hlastCount.trans hcount, hlastPosition.trans ?_⟩
      rw [hposition, hcount, Nat.add_assoc, Nat.add_comm 1]

/-- Calls that are reached fail nowhere, and give what the visit gives. -/
theorem Reached.take?_counters (h : visit.Reached) (hword : visit.count < 2 ^ 64) (calls : Nat) :
    Counters.take? calls (Counters.ofVisit visit)
      = some ((visit.take calls).1, Counters.ofVisit (visit.take calls).2) := by
  induction calls generalizing visit with
  | zero => rfl
  | succ calls ih =>
    rw [Counters.take?, h.next?_counters hword]
    simp only [Option.bind_eq_bind, Option.bind_some]
    cases hnext : visit.next? with
    | none =>
      have hcalls := ih h hword
      rw [take_of_next?_none hnext] at hcalls ⊢
      exact hcalls
    | some next =>
      obtain ⟨index, after⟩ := next
      obtain ⟨hafter, hcount, -⟩ := h.next? hnext
      rw [take_of_next?_some hnext]
      simp only [Option.map_some, ih hafter (hcount ▸ hword), Option.bind_some]
      rfl

/-- **Median order of any length.** As long as the number of indices fits into 64 bits, any number
    of calls gives that many of the indices, which are a permutation of all.  No operation leaves
    its range or divides by zero; the number of indices left is known after each call, no call
    gives an index after the last one, and the search for a missed index finds one. -/
theorem indices_bounded (count : Nat) (hword : count < 2 ^ 64) :
    (indices count).length = count ∧ (indices count).Perm (List.range count) ∧
      ∀ calls, ∃ visit, Counters.run? count calls = some ((indices count).take calls, visit) ∧
        visit.sizeHint? = some (count - calls, some (count - calls)) ∧
        (count ≤ calls → visit.next? = some none) ∧
        (width count - 1 ≤ calls → calls < count →
          ∃ index, visit.skipLevels? visit.cursor = some index ∧ index < count) := by
  have hperm := indices_perm count
  refine ⟨hperm.length_eq.trans List.length_range, hperm, fun calls => ?_⟩
  obtain ⟨hreached, hcount, hposition⟩ := (reached_start count).take calls
  have hrun := (reached_start count).take?_counters hword calls
  generalize hvisit : ((start count).take calls).2 = visit at hreached hcount hposition hrun
  have hcount : visit.count = count := hcount
  have hposition : visit.position = min calls count := by
    rw [hposition]
    show min (0 + calls) count = _
    rw [Nat.zero_add]
  refine ⟨Counters.ofVisit visit, ?_, ?_, ?_, ?_⟩
  · rw [Counters.run?, Counters.start?_eq, Option.bind_eq_bind, Option.bind_some, hrun,
      take_eq_rest]
    rfl
  · have hleft : visit.count - visit.position = count - calls := by omega
    simp only [Counters.sizeHint?, Counters.ofVisit_count, Counters.ofVisit_position,
      minus?_of_le hreached.position_le, hleft]
    rfl
  · intro hend
    rw [hreached.next?_counters (hcount ▸ hword), next?_eq_none_iff.mpr (by omega)]
    rfl
  · intro hlevels hlast
    have hskip := skipLevels_lt (hreached.missed_ne_nil (by rw [hcount]; omega) (by omega))
    exact ⟨_, Counters.skipLevels?_eq (hcount ▸ hword) hskip, hcount ▸ hskip⟩

/-- The longest list whose length fits into 64 bits has no room to count one index more. -/
theorem indices_bounded_longest :
    2 ^ 64 - 1 < 2 ^ 64 ∧ (indices (2 ^ 64 - 1)).length = 2 ^ 64 - 1 ∧
      (indices (2 ^ 64 - 1)).Perm (List.range (2 ^ 64 - 1)) ∧
      ∃ visit, Counters.run? (2 ^ 64 - 1) (2 ^ 64 - 1) = some (indices (2 ^ 64 - 1), visit) ∧
        visit.next? = some none := by
  have hword : 2 ^ 64 - 1 < 2 ^ 64 := by decide
  obtain ⟨hlength, hperm, hcalls⟩ := indices_bounded (2 ^ 64 - 1) hword
  obtain ⟨visit, hrun, -, hend, -⟩ := hcalls (2 ^ 64 - 1)
  rw [List.take_of_length_le hlength.le] at hrun
  exact ⟨hword, hlength, hperm, visit, hrun, hend (Nat.le_refl _)⟩

end Lexicon.MedianOrder
