import Lexicon.MedianOrder
import Mathlib.Algebra.Order.Ring.Nat
import Mathlib.Data.List.Nodup
import Mathlib.Data.List.Perm.Subperm

namespace Lexicon.MedianOrder

/-!
# The levels of a median order

The levels of the largest perfect tree reach one index at each of its parts.

* `width_le` — the tree has no more parts than there are indices.
* `partEnd_lt` — different parts end at different indices.
* `inLevels_iff` — which indices the levels reach.
* `slot`, `slots_perm` — the part at a position of the levels, each part at one position.
* `levels_perm` — the levels visit each index that they reach once.
-/

/-! ### Parts of a list -/

theorem width_pos (count : Nat) : 0 < width count :=
  Nat.pow_pos (Nat.zero_lt_succ 1)

/-- There are no more parts than gaps between the indices and at their ends. -/
theorem width_le (count : Nat) : width count ≤ count + 1 := by
  calc width count ≤ min (count + 1) 0xFFFFFFFFFFFFFFFF :=
        Nat.log2_self_le (by omega)
    _ ≤ count + 1 := Nat.min_le_left _ _

/-- Where there is one index less than parts, no part but the last ends at a whole index. -/
theorem mul_width_ne {count m : Nat} (hcount : count + 1 = width count) (hm : 0 < m)
    (hlast : m < count) (q : Nat) : q * width count ≠ count * m := by
  intro heq
  -- Then `q` itself is a multiple of `count`, but is less than `m`.
  rw [← hcount, Nat.mul_add, Nat.mul_one, Nat.mul_comm count m] at heq
  have hlt : q < m := by
    by_contra hge
    have := Nat.mul_le_mul_right count (not_lt.mp hge)
    omega
  have hstep : q * count + count ≤ m * count :=
    Nat.succ_mul q count ▸ Nat.mul_le_mul_right count hlt
  omega

/-- The next part ends at a later index. -/
theorem partEnd_lt_succ {count m : Nat} (hm : 0 < m) (hnext : m + 1 < width count) :
    partEnd count m < partEnd count (m + 1) := by
  have hwidth := width_le count
  have hfloor : partEnd count m * width count ≤ count * m := Nat.div_mul_le_self _ _
  refine (Nat.le_div_iff_mul_le (width_pos count)).mpr ?_
  rw [Nat.succ_mul, Nat.mul_succ]
  -- A part has at least one index unless there is one part more than indices; then rounding down
  -- leaves room for it, as `mul_width_ne` says.
  by_cases hcount : width count ≤ count
  · omega
  · have hne : partEnd count m * width count ≠ count * m :=
      mul_width_ne (by omega) hm (by omega) _
    omega

/-- Later parts end at later indices. -/
theorem partEnd_lt {count m m' : Nat} (hm : 0 < m) (hlt : m < m') (hm' : m' < width count) :
    partEnd count m < partEnd count m' := by
  induction m', hlt using Nat.le_induction with
  | base => exact partEnd_lt_succ hm hm'
  | succ m' hmm' ih =>
    exact lt_trans (ih (by omega)) (partEnd_lt_succ (by omega) hm')

theorem partEnd_injective {count m m' : Nat} (hm : 0 < m) (hlt : m < width count) (hm' : 0 < m')
    (hlt' : m' < width count) (heq : partEnd count m = partEnd count m') : m = m' := by
  rcases Nat.lt_trichotomy m m' with h | h | h
  · exact absurd heq (partEnd_lt hm h hlt').ne
  · exact h
  · exact absurd heq (partEnd_lt hm' h hlt).ne'

/-- The levels reach the indices where parts end, other than the last. -/
theorem inLevels_iff (count index : Nat) :
    inLevels count index = true ↔ ∃ m, 0 < m ∧ m < width count ∧ partEnd count m = index := by
  simp only [inLevels, Bool.and_eq_true, decide_eq_true_eq, beq_iff_eq]
  constructor
  · rintro ⟨hlt, heq⟩
    exact ⟨_, Nat.le_max_left 1 _, hlt, heq⟩
  · rintro ⟨m, hm, hlt, rfl⟩
    have hcount : 0 < count := by
      have := width_le count
      omega
    -- The first part that ends at the index or after it is not after the given one.
    generalize hfirst : max 1 ((partEnd count m * width count + count - 1) / count) = first
    have hle : first ≤ m := by
      have hfloor : partEnd count m * width count ≤ count * m := Nat.div_mul_le_self _ _
      have hquot : (partEnd count m * width count + count - 1) / count ≤ m := by
        refine Nat.le_of_lt_succ ((Nat.div_lt_iff_lt_mul hcount).mpr ?_)
        rw [Nat.succ_mul, Nat.mul_comm m]
        omega
      omega
    have hge : partEnd count m ≤ partEnd count first := by
      refine (Nat.le_div_iff_mul_le (width_pos count)).mpr ?_
      have hquot : (partEnd count m * width count + count - 1) / count ≤ first := by omega
      have hmul := (Nat.div_lt_iff_lt_mul hcount).mp (Nat.lt_succ_of_le hquot)
      rw [Nat.succ_mul, Nat.mul_comm first] at hmul
      omega
    refine ⟨by omega, Nat.le_antisymm ?_ hge⟩
    exact Nat.div_le_div_right (Nat.mul_le_mul_left count hle)

/-! ### Parts and positions -/

/-- The part whose end is at a position of the levels. -/
def slot (count position : Nat) : Nat :=
  (2 * (position + 1 - 2 ^ (position + 1).log2) + 1)
    * (width count / (2 * 2 ^ (position + 1).log2))

/-- An odd multiple of a power of two is no multiple of a greater power. -/
theorem odd_mul_two_pow_ne {i j : Nat} (h : i < j) (a b : Nat) :
    (2 * a + 1) * 2 ^ i ≠ b * 2 ^ j := by
  obtain ⟨d, rfl⟩ := Nat.exists_eq_add_of_lt h
  intro heq
  have hcancel : 2 * a + 1 = b * 2 ^ (d + 1) := by
    refine Nat.eq_of_mul_eq_mul_right (Nat.two_pow_pos i) ?_
    rw [heq, Nat.mul_assoc, ← Nat.pow_add]
    congr 2
    omega
  rw [Nat.pow_succ, ← Nat.mul_assoc] at hcancel
  omega

/-- An odd multiple of a power of two determines the odd factor and the power. -/
theorem odd_mul_two_pow_injective {a b i j : Nat}
    (h : (2 * a + 1) * 2 ^ i = (2 * b + 1) * 2 ^ j) : a = b ∧ i = j := by
  rcases Nat.lt_trichotomy i j with hlt | rfl | hgt
  · exact absurd h (odd_mul_two_pow_ne hlt a _)
  · have := Nat.eq_of_mul_eq_mul_right (Nat.two_pow_pos i) h
    exact ⟨by omega, rfl⟩
  · exact absurd h.symm (odd_mul_two_pow_ne hgt b _)

/-- A position is on the level that its logarithm says, and its slot is an odd multiple of the
    share there. -/
theorem exists_slot_eq {count position : Nat} (h : position + 1 < width count) :
    ∃ offset rest, position + 1 = 2 ^ (position + 1).log2 + offset ∧
      offset < 2 ^ (position + 1).log2 ∧
      width count = 2 ^ ((position + 1).log2 + 1) * 2 ^ rest ∧
      slot count position = (2 * offset + 1) * 2 ^ rest := by
  obtain ⟨levels, hlevels⟩ : ∃ levels, width count = 2 ^ levels := ⟨_, rfl⟩
  have hself : 2 ^ (position + 1).log2 ≤ position + 1 := Nat.log2_self_le (by omega)
  have hnext : position + 1 < 2 ^ ((position + 1).log2 + 1) := Nat.lt_log2_self
  have hlevel : (position + 1).log2 + 1 ≤ levels := by
    refine (Nat.log2_lt (by omega)).mpr ?_
    rwa [← hlevels]
  obtain ⟨rest, hrest⟩ := Nat.exists_eq_add_of_le hlevel
  have hwidth : width count = 2 ^ ((position + 1).log2 + 1) * 2 ^ rest := by
    rw [hlevels, hrest, Nat.pow_add]
  rw [Nat.pow_succ] at hnext
  refine ⟨position + 1 - 2 ^ (position + 1).log2, rest, by omega, by omega, hwidth, ?_⟩
  rw [slot, hwidth, ← Nat.pow_succ', Nat.mul_div_cancel_left _ (Nat.two_pow_pos _)]

/-- The further down a level, the less the share of its parts. -/
theorem level_add_eq {count level level' rest rest' : Nat}
    (h : width count = 2 ^ (level + 1) * 2 ^ rest)
    (h' : width count = 2 ^ (level' + 1) * 2 ^ rest') : level + rest = level' + rest' := by
  rw [h, ← Nat.pow_add, ← Nat.pow_add] at h'
  have := Nat.pow_right_injective (Nat.le_refl 2) h'
  omega

/-- A slot is a part between the first and the last. -/
theorem slot_mem {count position : Nat} (h : position + 1 < width count) :
    0 < slot count position ∧ slot count position < width count := by
  obtain ⟨offset, rest, -, hoffset, hwidth, hslot⟩ := exists_slot_eq h
  rw [hslot, hwidth]
  refine ⟨Nat.mul_pos (by omega) (Nat.two_pow_pos rest), ?_⟩
  refine Nat.mul_lt_mul_of_pos_right ?_ (Nat.two_pow_pos rest)
  rw [Nat.pow_succ]
  omega

/-- Different positions have different slots. -/
theorem slot_injective {count position position' : Nat} (h : position + 1 < width count)
    (h' : position' + 1 < width count) (heq : slot count position = slot count position') :
    position = position' := by
  obtain ⟨offset, rest, hposition, -, hwidth, hslot⟩ := exists_slot_eq h
  obtain ⟨offset', rest', hposition', -, hwidth', hslot'⟩ := exists_slot_eq h'
  rw [hslot, hslot'] at heq
  obtain ⟨rfl, rfl⟩ := odd_mul_two_pow_injective heq
  have hlevel : (position + 1).log2 = (position' + 1).log2 :=
    Nat.add_right_cancel (level_add_eq hwidth hwidth')
  rw [hlevel] at hposition
  omega

/-- The positions of the levels have all slots, each once. -/
theorem slots_perm (count : Nat) :
    ((List.range (width count - 1)).map (slot count)).Perm
      (List.range' 1 (width count - 1)) := by
  have hlt : ∀ position ∈ List.range (width count - 1), position + 1 < width count := by
    intro position hposition
    have := List.mem_range.mp hposition
    omega
  have hnodup : ((List.range (width count - 1)).map (slot count)).Nodup := by
    refine List.Nodup.map_on ?_ List.nodup_range
    intro position hposition position' hposition' heq
    exact slot_injective (hlt position hposition) (hlt position' hposition') heq
  have hsubset : (List.range (width count - 1)).map (slot count)
      ⊆ List.range' 1 (width count - 1) := by
    intro m hm
    obtain ⟨position, hposition, rfl⟩ := List.mem_map.mp hm
    have := slot_mem (hlt position hposition)
    exact List.mem_range'_1.mpr (by omega)
  -- As many slots as there are, none of them twice: these are all.
  refine (hnodup.subperm hsubset).perm_of_length_le ?_
  rw [List.length_map, List.length_range, List.length_range']

/-- The levels visit each index that they reach once. -/
theorem levels_perm (count : Nat) :
    ((List.range (width count - 1)).map (levelIndex count)).Perm
      ((List.range count).filter (inLevels count)) := by
  have hparts : ((List.range (width count - 1)).map (levelIndex count)).Perm
      ((List.range' 1 (width count - 1)).map (partEnd count)) := by
    have := (slots_perm count).map (partEnd count)
    rwa [List.map_map] at this
  -- What is left is on parts alone: they end at different indices, those that the levels reach.
  refine hparts.trans ?_
  have hmem : ∀ m ∈ List.range' 1 (width count - 1), 0 < m ∧ m < width count := by
    intro m hm
    have := List.mem_range'_1.mp hm
    omega
  refine (List.perm_ext_iff_of_nodup ?_ (List.nodup_range.filter _)).mpr fun index => ?_
  · refine List.Nodup.map_on ?_ List.nodup_range'
    intro m hm m' hm' heq
    obtain ⟨hpos, hlt⟩ := hmem m hm
    obtain ⟨hpos', hlt'⟩ := hmem m' hm'
    exact partEnd_injective hpos hlt hpos' hlt' heq
  · rw [List.mem_filter, List.mem_range, List.mem_map]
    constructor
    · rintro ⟨m, hm, rfl⟩
      have hlevel := (inLevels_iff count _).mpr ⟨m, (hmem m hm).1, (hmem m hm).2, rfl⟩
      exact ⟨lt_count_of_inLevels hlevel, hlevel⟩
    · rintro ⟨-, hlevel⟩
      obtain ⟨m, hm, hlt, heq⟩ := (inLevels_iff count index).mp hlevel
      exact ⟨m, List.mem_range'_1.mpr (by omega), heq⟩

end Lexicon.MedianOrder
