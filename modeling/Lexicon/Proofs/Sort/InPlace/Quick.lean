import Lexicon.Proofs.Sort.InPlace.Basic
import Lexicon.Proofs.Sort.Quick

namespace Lexicon.Sort.InPlace

open Attempt

/-!
# Quicksort in place

* `climb`, `descend`, `partition` — the scans and the partition, by positions.
* `quickRange`, `quick` — the smaller side by a nested call, then the other one in its turn.
* `partition_eq`, `quickRange_eq`, `quick_eq` — they fail nowhere, and do what `Sort.partition`,
  `Sort.quickRange` and `Sort.quick` do.

A range is given by its first and its last position here, so that one that ends in front of the
first word of all has no last position.
-/

variable {σ α : Type} {n : Nat}

/-! ### Scans -/

/-- First position from `i` on whose word does not compare below the pivot, or `last`. -/
def climb (ask : Comparison σ α) (words : List α) (pivot : α) (last i : Nat) :
    Attempt σ { k : Nat // i ≤ k } := do
  if i < last then
    if (← of (ask (← wordAt words i) pivot)) == .lt then
      let ⟨k, hk⟩ ← climb ask words pivot last (i + 1)
      return ⟨k, Nat.le_of_succ_le hk⟩
    else return ⟨i, Nat.le_refl i⟩
  else return ⟨i, Nat.le_refl i⟩
termination_by last - i

theorem le_of_le_below {below i k : Nat} (hbelow : below + 1 = i) (hk : k ≤ below) : k ≤ i := by
  omega

/-- Last position down from `i` whose word does not compare above the pivot, or `first`. -/
def descend (ask : Comparison σ α) (words : List α) (pivot : α) (first i : Nat) :
    Attempt σ { k : Nat // k ≤ i } := do
  if first < i then
    if (← of (ask (← wordAt words i) pivot)) == .gt then
      let ⟨below, hbelow⟩ ← minus i 1
      let ⟨k, hk⟩ ← descend ask words pivot first below
      return ⟨k, le_of_le_below hbelow hk⟩
    else return ⟨i, Nat.le_refl i⟩
  else return ⟨i, Nat.le_refl i⟩
termination_by i

/-! ### Partitions -/

/-- The last position in front of another one, if there is one. -/
def lastBefore : Nat → Option Nat
  | 0 => none
  | stop + 1 => some stop

/-- The position behind a last one, if there is one, or else the first of all. -/
def stopAfter : Option Nat → Nat
  | none => 0
  | some last => last + 1

@[simp] theorem stopAfter_lastBefore (stop : Nat) : stopAfter (lastBefore stop) = stop := by
  cases stop <;> rfl

theorem eq_succ_of_mem_lastBefore {stop last : Nat} (h : last ∈ lastBefore stop) :
    stop = last + 1 := by
  cases stop with
  | zero => cases h
  | succ stop => exact congrArg (· + 1) (Option.some.inj h)

/-- Goes on with the positions from `i` to `right?`, the only ones not yet assigned to a side. -/
def partitionFrom (ask : Comparison σ α) (pivot : α) (first last : Nat) (words : List α) (i : Nat)
    (right? : Option Nat) : Attempt σ (List α × Option Nat × Nat) := do
  match right? with
  | none => return (words, none, i)
  | some right =>
    if i ≤ right then
      let ⟨left, _⟩ ← climb ask words pivot last i
      let ⟨right, _⟩ ← descend ask words pivot first right
      if left ≤ right then
        let words ← swapAt words left right
        partitionFrom ask pivot first last words (left + 1) (lastBefore right)
      -- The scans have passed each other: the next turn finds nothing left, and ends.
      else partitionFrom ask pivot first last words left (some right)
    else return (words, some right, i)
termination_by stopAfter right? - i
decreasing_by
  · rw [stopAfter_lastBefore]
    simp only [stopAfter]
    omega
  · simp only [stopAfter]
    omega

/-- Partitions the range around the word in its middle; answers with the words, the last position
    of the left side, if there is one, and the first position of the right side. -/
def partition (ask : Comparison σ α) (words : List α) (first last : Nat) :
    Attempt σ (List α × Option Nat × Nat) := do
  let pivot ← wordAt words (first + (← minus last first) / 2)
  partitionFrom ask pivot first last words first (some last)

/-! ### Ranges -/

/-- Sorts a range.  The side with fewer positions is sorted by a nested call. -/
def quickRange (ask : Comparison σ α) (words : List α) (first last : Nat) :
    Attempt σ (List α) := do
  if first < last then
    let (words, left?, right) ← partition ask words first last
    let leftSpan := left?.elim 0 fun left => left - first
    let rightSpan := last - right
    if leftSpan < rightSpan then
      let words ← (match left? with
        | some left =>
          if first < left then do
            let ⟨_⟩ ← headway (left - first) (last - first)
            quickRange ask words first left
          else pure words
        | none => pure words)
      let ⟨_⟩ ← headway (last - right) (last - first)
      quickRange ask words right last
    else
      let words ← (if right < last then do
          let ⟨_⟩ ← headway (last - right) (last - first)
          quickRange ask words right last
        else pure words)
      match left? with
      | some left =>
        if first < left then do
          let ⟨_⟩ ← headway (left - first) (last - first)
          quickRange ask words first left
        else pure words
      | none => pure words
  else return words
termination_by last - first

/-- Sorts by partition. -/
def quick (ask : Comparison σ α) (words : List α) : Attempt σ (List α) := do
  if 1 < words.length then quickRange ask words 0 (← minus words.length 1) else return words

/-! ### Scans do not fail -/

theorem wordAt_toList (words : Vector α n) {i : Nat} (hi : i < n) :
    wordAt (σ := σ) words.toList i = pure words[i] :=
  wordAt_eq (by simp [hi])

theorem climb_eq (ask : Comparison σ α) (words : Vector α n) (pivot : α) (last : Nat)
    (hlast : last < n) (i : Nat) (hi : i ≤ last) :
    climb ask words.toList pivot last i
      = of (Sort.climb ask words pivot last hlast i hi) >>= fun k =>
          pure ⟨k.val, k.property.1⟩ := by
  fun_induction Sort.climb ask words pivot last hlast i hi with
  | case1 i hi h ih =>
    -- The word is there to be asked about, as `last` lies in the words.
    rw [climb, if_pos h, wordAt_toList words (by omega), pure_bind, of_bind, bind_assoc]
    refine of_bind_congr fun answer => ?_
    split_ifs
    · rw [ih, of_bind, bind_assoc]
      exact of_bind_congr fun k => rfl
    · rfl
  | case2 i hi h =>
    rw [climb, if_neg h]
    rfl

theorem descend_eq (ask : Comparison σ α) (words : Vector α n) (pivot : α) (first : Nat)
    (i : Nat) (hn : i < n) (hi : first ≤ i) :
    descend ask words.toList pivot first i
      = of (Sort.descend ask words pivot first i hn hi) >>= fun k =>
          pure ⟨k.val, k.property.2⟩ := by
  fun_induction Sort.descend ask words pivot first i hn hi with
  | case1 i hn hi h ih =>
    rw [descend, if_pos h, wordAt_toList words hn, pure_bind, of_bind, bind_assoc]
    refine of_bind_congr fun answer => ?_
    split_ifs
    · -- The scan stands behind `first`, so that it can go down without falling below zero.
      rw [minus_eq (by omega), pure_bind]
      dsimp only
      rw [ih, of_bind, bind_assoc]
      exact of_bind_congr fun k => rfl
    · rfl
  | case2 i hn hi h =>
    rw [descend, if_neg h]
    rfl

/-! ### Partitions do not fail -/

theorem swapAt_toList (words : Vector α n) {i j : Nat} (hi : i < n) (hj : j < n) :
    swapAt (σ := σ) words.toList i j = pure (words.swap i j).toList := by
  rw [swapAt, wordAt_toList words hi, wordAt_toList words hj, Vector.toList_swap hi hj]
  rfl

/-- What a partition in place gives, for the parts that it finds. -/
def located {first last : Nat} (p : Parted α n first last) : List α × Option Nat × Nat :=
  (p.words.toList, lastBefore p.leftStop, p.rightStart)

theorem partitionFrom_eq (ask : Comparison σ α) (pivot : α) {first last : Nat}
    (hrange : first < last) (hn : last < n) (words : Vector α n) (i stop : Nat)
    (hends : (i = first ∧ stop = last + 1) ∨ (first < i ∧ i ≤ last + 1 ∧ stop ≤ last)) :
    partitionFrom ask pivot first last words.toList i (lastBefore stop)
      = of (Sort.partitionFrom ask pivot first last hrange hn words i stop hends) >>= fun p =>
          pure (located p) := by
  fun_induction Sort.partitionFrom ask pivot first last hrange hn words i stop hends with
  | case1 words i stop hends h ih =>
    -- Something is left, so that `stop` has a position in front, from which to scan down.
    obtain ⟨right, rfl⟩ : ∃ right, stop = right + 1 := ⟨stop - 1, by omega⟩
    rw [lastBefore, partitionFrom, if_pos (by omega), climb_eq ask words pivot last hn i (by omega),
      bind_assoc, of_bind, bind_assoc]
    refine of_bind_congr fun left => ?_
    obtain ⟨left, hleft⟩ := left
    rw [pure_bind]
    dsimp only
    rw [descend_eq ask words pivot first right (by omega) (by omega), bind_assoc, of_bind,
      bind_assoc]
    refine of_bind_congr fun right => ?_
    obtain ⟨right, hright⟩ := right
    rw [pure_bind]
    dsimp only
    split_ifs with hswap
    · rw [swapAt_toList words (by omega) (by omega), pure_bind]
      exact ih left hleft right hright
    · -- Nothing is left between the scans once they have passed each other.
      rw [partitionFrom, if_neg hswap]
      rfl
  | case2 words i stop hends h =>
    cases stop with
    | zero =>
      -- The left side ends in front of the first word of all, and has no last position.
      rw [lastBefore, partitionFrom]
      rfl
    | succ right =>
      rw [lastBefore, partitionFrom, if_neg (by omega)]
      rfl

theorem partition_eq (ask : Comparison σ α) (words : Vector α n) {first last : Nat}
    (hrange : first < last) (hn : last < n) :
    partition ask words.toList first last
      = of (Sort.partition ask words first last hrange hn) >>= fun p => pure (located p) := by
  rw [partition, minus_eq (by omega), pure_bind]
  dsimp only
  -- The pivot stands in the middle, which is a position of the range.
  rw [wordAt_toList words (by omega), pure_bind]
  exact partitionFrom_eq ask _ hrange hn words first (last + 1) _

/-! ### Ranges do not fail -/

/-- Sorts a stretch of two words or more. -/
def quickStretch (ask : Comparison σ α) (words : List α) (s : Stretch) : Attempt σ (List α) :=
  if s.start < s.stop - 1 then quickRange ask words s.start (s.stop - 1) else pure words

/-- A stretch of one word, or of none, is left as it is. -/
theorem quickStretch_of_size_le (ask : Comparison σ α) (words : List α) {s : Stretch}
    (h : s.size ≤ 1) : quickStretch ask words s = pure words :=
  if_neg (by unfold Stretch.size at h; omega)

/-- The left side, given by its last position, is sorted as a stretch, and with headway. -/
theorem quickStretch_left (ask : Comparison σ α) (words : List α) {first last : Nat}
    (p : Parted α n first last) :
    (match lastBefore p.leftStop with
      | some left =>
        if first < left then do
          let ⟨_⟩ ← headway (left - first) (last - first)
          quickRange ask words first left
        else pure words
      | none => pure words) = quickStretch ask words p.left := by
  have hle := p.leftStop_le
  unfold quickStretch Parted.left
  generalize p.leftStop = leftStop at hle
  cases leftStop with
  | zero => exact (if_neg (Nat.not_lt_zero first)).symm
  | succ left =>
    dsimp only [lastBefore]
    rw [Nat.add_sub_cancel]
    split_ifs with h
    · -- The left side ends in front of `last`, which is the headway.
      rw [headway_eq (by omega), pure_bind]
    · rfl

/-- The right side is sorted as a stretch, and with headway. -/
theorem quickStretch_right (ask : Comparison σ α) (words : List α) {first last : Nat}
    (hrange : first < last) (p : Parted α n first last) :
    (do
      let ⟨_⟩ ← headway (last - p.rightStart) (last - first)
      quickRange ask words p.rightStart last) = quickStretch ask words p.right := by
  have hlt := p.lt_rightStart
  rw [headway_eq (by omega), pure_bind]
  unfold quickStretch Parted.right
  dsimp only
  rw [Nat.add_sub_cancel]
  split_ifs with h
  · rfl
  · -- The loop goes on with a side of one word as well, but only to end.
    rw [quickRange, if_neg h]

/-- The left side has one position more than its span, if it has any. -/
theorem leftSpan_eq {first last : Nat} (p : Parted α n first last) :
    ((lastBefore p.leftStop).elim 0 fun left => left - first) = p.left.size - 1 := by
  unfold Parted.left Stretch.size
  cases p.leftStop with
  | zero => simp [lastBefore]
  | succ left => simp only [lastBefore, Option.elim_some]; omega

/-- The right side has one position more than its span, if it has any. -/
theorem rightSpan_eq {first last : Nat} (p : Parted α n first last) :
    last - p.rightStart = p.right.size - 1 := by
  show last - p.rightStart = last + 1 - p.rightStart - 1
  omega

/-- A range in place is sorted as its sides are, the smaller one first. -/
theorem quickRange_sides (ask : Comparison σ α) (words : List α) {first last : Nat}
    (hrange : first < last) {parting : StateM σ (Parted α n first last)}
    (hparting : partition ask words first last = of parting >>= fun p => pure (located p)) :
    quickRange ask words first last = of parting >>= fun p =>
      quickStretch ask p.words.toList p.sides.1 >>= fun words =>
        quickStretch ask words p.sides.2 := by
  rw [quickRange, if_pos hrange, hparting, bind_assoc]
  refine of_bind_congr fun p => ?_
  -- A nested call is made only for two words or more, but one word would come to the same.
  have hright : ∀ words : List α,
      (if p.rightStart < last then quickStretch ask words p.right else pure words)
        = quickStretch ask words p.right := fun words => by
    split_ifs with h
    · rfl
    · have hspan := rightSpan_eq p
      exact (quickStretch_of_size_le ask words (by omega)).symm
  rw [pure_bind]
  dsimp only [located]
  simp only [quickStretch_left, quickStretch_right ask _ hrange, hright, leftSpan_eq, rightSpan_eq]
  -- Spans are compared here and sizes there, which differ only where a side is empty.
  unfold Parted.sides
  split_ifs with hspan hsize hsize
  · rfl
  · omega
  · -- Both sides are too short to be sorted, so that their order does not count.
    have hleftSize : p.left.size ≤ 1 := by omega
    have hrightSize : p.right.size ≤ 1 := by omega
    simp only [quickStretch_of_size_le ask _ hleftSize, quickStretch_of_size_le ask _ hrightSize,
      pure_bind]
  · rfl

/-- A stretch in place is sorted as the range is that it stands for. -/
theorem quickStretch_eq (ask : Comparison σ α) (words : Vector α n) {s : Stretch}
    {hn : s.stop - 1 < n}
    (hrange : ∀ h : s.start < s.stop - 1, quickRange ask words.toList s.start (s.stop - 1)
      = of (Sort.quickRange ask words s.start (s.stop - 1) h hn) >>= fun sorted =>
          pure sorted.toList) :
    quickStretch ask words.toList s
      = of (Sort.quickStretch ask words s hn) >>= fun sorted => pure sorted.toList := by
  unfold quickStretch Sort.quickStretch
  split_ifs with h
  · exact hrange h
  · rfl

theorem quickRange_eq (ask : Comparison σ α) (words : Vector α n) (first last : Nat)
    (hrange : first < last) (hn : last < n) :
    quickRange ask words.toList first last
      = of (Sort.quickRange ask words first last hrange hn) >>= fun sorted =>
          pure sorted.toList := by
  induction words, first, last, hrange, hn using Sort.quickRange.induct with
  | case1 words first last hrange hn ih2 ih1 =>
    -- Both ways the first side is sorted before the second one, each by the same call.
    rw [quickRange_sides ask words.toList hrange (partition_eq ask words hrange hn),
      Sort.quickRange_eq, of_bind, bind_assoc]
    refine of_bind_congr fun p => ?_
    rw [quickStretch_eq ask p.words (ih1 p), bind_assoc, of_bind, bind_assoc]
    refine of_bind_congr fun words1 => ?_
    rw [pure_bind, quickStretch_eq ask words1 (ih2 p words1)]

/-- **Quicksort in place** fails nowhere, whatever the comparison answers. -/
theorem quick_eq (ask : Comparison σ α) (words : List α) :
    quick ask words = of (Sort.quick ask words) := by
  unfold quick Sort.quick
  split_ifs with h
  · rw [minus_eq (by omega), pure_bind, of_bind]
    exact quickRange_eq ask ⟨words.toArray, List.size_toArray⟩ 0 (words.length - 1) _ _
  · rfl

end Lexicon.Sort.InPlace
