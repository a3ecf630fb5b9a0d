import Lexicon.Proofs.MedianOrder.Permutation
import Lexicon.Proofs.SearchTree
import Mathlib.Data.Nat.Log

namespace Lexicon.MedianOrder

open SearchTree

/-!
# A median order fills a search tree evenly

The levels of a median order are those of a perfect tree, and each gap that they leave has room
for one index.

* `count_lt_two_mul_width` — as far as a 64-bit word goes, there are less than two indices a part.
* `exists_slot_between`, `exists_part_between` — between two indices of one level, and between two
  that the levels miss, is one of a level before.
* `indices_ranked` — the level of its position ranks an index.
* `height_ofKeys_indices_le` — the indices in median order make no high tree.
* `height_ofKeys_indices` — they make the least high one.
-/

variable {count : Nat}

/-! ### Gaps between the levels -/

/-- There are at most two indices a part. -/
theorem count_lt_two_mul_width (h : count < 2 ^ 64) : count < 2 * width count := by
  have hlog : min (count + 1) 0xFFFFFFFFFFFFFFFF < 2 * width count := by
    have := Nat.lt_log2_self (n := min (count + 1) 0xFFFFFFFFFFFFFFFF)
    rwa [Nat.pow_succ, Nat.mul_comm] at this
  -- The last number of 64 bits has no successor, but is odd itself.
  rcases Nat.lt_or_ge (count + 1) (2 ^ 64) with hlt | hge
  · omega
  · obtain rfl : count = 0xFFFFFFFFFFFFFFFF := by omega
    decide

theorem partEnd_width (count : Nat) : partEnd count (width count) = count :=
  Nat.mul_div_cancel _ (width_pos count)

/-- A part has at most two indices. -/
theorem partEnd_succ_le (h : count < 2 ^ 64) (m : Nat) :
    partEnd count (m + 1) ≤ partEnd count m + 2 := by
  have hcount := count_lt_two_mul_width h
  calc partEnd count (m + 1) ≤ (count * m + 2 * width count) / width count :=
        Nat.div_le_div_right (by rw [Nat.mul_succ]; omega)
    _ = partEnd count m + 2 := Nat.add_mul_div_right _ _ (width_pos count)

/-- The first part has at most one index in front of its end. -/
theorem partEnd_one_le (h : count < 2 ^ 64) : partEnd count 1 ≤ 1 := by
  have hcount := count_lt_two_mul_width h
  rw [partEnd, Nat.mul_one]
  exact Nat.le_of_lt_succ ((Nat.div_lt_iff_lt_mul (width_pos count)).mpr hcount)

/-- Between two indices that the levels miss is one that they reach. -/
theorem exists_part_between (h : count < 2 ^ 64) {a b : Nat} (ha : inLevels count a = false)
    (hb : inLevels count b = false) (hlt : a < b) (hlast : b < count) :
    ∃ c, inLevels count c = true ∧ a < c ∧ c < b := by
  have hcount := count_lt_two_mul_width h
  by_contra hnone
  -- Then the parts end in front of the first of the two, one after the other.
  have hskip : ∀ m, 0 < m → m < width count → partEnd count m ≤ b → partEnd count m < a := by
    intro m hm hwidth hle
    have hreached := (inLevels_iff count _).mpr ⟨m, hm, hwidth, rfl⟩
    have hne : ∀ index, inLevels count index = false → partEnd count m ≠ index := by
      rintro index hmissed rfl
      simp [hmissed] at hreached
    have hnot : ¬(a < partEnd count m ∧ partEnd count m < b) :=
      fun hbetween => hnone ⟨_, hreached, hbetween⟩
    have := hne a ha
    have := hne b hb
    omega
  have hbefore : ∀ m, 0 < m → m < width count → partEnd count m < a := by
    intro m hm
    induction m, hm using Nat.le_induction with
    | base =>
      intro hwidth
      have := partEnd_one_le h
      exact hskip 1 Nat.one_pos hwidth (by omega)
    | succ m hm ih =>
      intro hwidth
      have := ih (by omega)
      have := partEnd_succ_le h m
      exact hskip (m + 1) (by omega) hwidth (by omega)
  -- But the last part ends with the last index, and there is room for one index only.
  rcases Nat.lt_or_ge 1 (width count) with hwidth | hwidth
  · have hend := partEnd_succ_le h (width count - 1)
    rw [Nat.sub_add_cancel (by omega), partEnd_width] at hend
    have := hbefore (width count - 1) (by omega) (by omega)
    omega
  · omega

/-! ### Levels -/

/-- Between two slots of one level is one of a level before. -/
theorem exists_slot_between {p q : Nat} (hp : p + 1 < width count) (hq : q + 1 < width count)
    (hlevel : (p + 1).log2 = (q + 1).log2) (hlt : slot count p < slot count q) :
    ∃ r, r + 1 < width count ∧ slot count p < slot count r ∧ slot count r < slot count q ∧
      (r + 1).log2 < (p + 1).log2 := by
  obtain ⟨offset, rest, -, -, hpWidth, hpSlot⟩ := exists_slot_eq hp
  obtain ⟨offset', rest', -, -, hqWidth, hqSlot⟩ := exists_slot_eq hq
  obtain rfl : rest = rest' := by
    have := level_add_eq hpWidth hqWidth
    omega
  have hoffsets : offset < offset' := by
    rw [hpSlot, hqSlot] at hlt
    have := Nat.lt_of_mul_lt_mul_right hlt
    omega
  -- The even multiple of the share behind the first slot is an odd one of a greater share.
  have hpos := Nat.two_pow_pos rest
  have hafter : slot count p < (offset + 1) * 2 ^ (rest + 1) := by
    rw [hpSlot, Nat.pow_succ', ← Nat.mul_assoc]
    exact Nat.mul_lt_mul_of_pos_right (by omega) hpos
  have hbefore : (offset + 1) * 2 ^ (rest + 1) < slot count q := by
    rw [hqSlot, Nat.pow_succ', ← Nat.mul_assoc]
    exact Nat.mul_lt_mul_of_pos_right (by omega) hpos
  have hmem : (offset + 1) * 2 ^ (rest + 1) ∈ List.range' 1 (width count - 1) := by
    have := (slot_mem hq).2
    exact List.mem_range'_1.mpr (by omega)
  obtain ⟨r, hr, hrSlot⟩ := List.mem_map.mp ((slots_perm count).mem_iff.mpr hmem)
  have hr : r + 1 < width count := by
    have := List.mem_range.mp hr
    omega
  refine ⟨r, hr, hrSlot ▸ hafter, hrSlot ▸ hbefore, ?_⟩
  obtain ⟨offset', rest', -, -, hrWidth, hrSlot'⟩ := exists_slot_eq hr
  have hrest : rest < rest' := by
    by_contra hle
    exact odd_mul_two_pow_ne (Nat.lt_succ_of_le (not_lt.mp hle)) offset' (offset + 1)
      (hrSlot'.symm.trans hrSlot)
  have := level_add_eq hpWidth hrWidth
  omega

/-- The level of the position at which an index is visited. -/
def level (count index : Nat) : Nat :=
  ((indices count).idxOf index + 1).log2

theorem level_eq {p index : Nat} (h : (indices count)[p]? = some index) :
    level count index = (p + 1).log2 := by
  obtain ⟨hp, rfl⟩ := List.getElem?_eq_some_iff.mp h
  have hnodup := (indices_perm count).nodup_iff.mpr List.nodup_range
  rw [level, hnodup.idxOf_getElem]

/-- What is visited at a position: the end of its part, or an index that the levels miss. -/
theorem index_cases {p index : Nat} (h : (indices count)[p]? = some index) :
    (p + 1 < width count ∧ index = partEnd count (slot count p)) ∨
      (width count ≤ p + 1 ∧ inLevels count index = false) := by
  rw [indices_eq, List.getElem?_append, List.length_map, List.length_range] at h
  have hwidth := width_pos count
  split_ifs at h with hp
  · rw [List.getElem?_map, List.getElem?_range hp, Option.map_some, Option.some.injEq] at h
    exact .inl ⟨by omega, h.symm⟩
  · refine .inr ⟨by omega, ?_⟩
    have hmissed := (List.mem_filter.mp (List.mem_of_getElem? h)).2
    simpa using hmissed

/-- The levels end with the widest one. -/
theorem log2_lt_of_width {p q : Nat} (hp : p + 1 < width count) (hq : width count ≤ q + 1) :
    (p + 1).log2 < (q + 1).log2 := by
  obtain ⟨levels, hlevels⟩ : ∃ levels, width count = 2 ^ levels := ⟨_, rfl⟩
  rw [hlevels] at hp hq
  exact lt_of_lt_of_le ((Nat.log2_lt (by omega)).mpr hp) ((Nat.le_log2 (by omega)).mpr hq)

theorem log2_le_log2 {m n : Nat} (h : m ≤ n) : m.log2 ≤ n.log2 := by
  simpa only [Nat.log2_eq_log_two] using Nat.log_mono_right h

/-- The level of its position ranks an index. -/
theorem indices_ranked (h : count < 2 ^ 64) : Ranked (level count) (indices count) where
  ascending := by
    refine List.pairwise_iff_getElem.mpr fun p q hp hq hlt => ?_
    rw [level_eq (List.getElem?_eq_getElem hp), level_eq (List.getElem?_eq_getElem hq)]
    exact log2_le_log2 (by omega)
  apart := by
    intro a ha b hb hlt heq
    obtain ⟨p, hp⟩ := List.mem_iff_getElem?.mp ha
    obtain ⟨q, hq⟩ := List.mem_iff_getElem?.mp hb
    rw [level_eq hp, level_eq hq] at heq
    rw [level_eq hp]
    rcases index_cases hp, index_cases hq with
      ⟨⟨hpWidth, rfl⟩ | ⟨hpWidth, hpMissed⟩, ⟨hqWidth, rfl⟩ | ⟨hqWidth, hqMissed⟩⟩
    · have hslots : slot count p < slot count q := by
        by_contra hle
        have := Nat.div_le_div_right (c := width count)
          (Nat.mul_le_mul_left count (not_lt.mp hle))
        exact absurd hlt (not_lt.mpr this)
      obtain ⟨r, hr, hpr, hrq, hlevel⟩ := exists_slot_between hpWidth hqWidth heq hslots
      have hmem : (indices count)[r]? = some (levelIndex count r) := by
        rw [indices_eq, List.getElem?_append_left (by simp; omega), List.getElem?_map,
          List.getElem?_range (by omega), Option.map_some]
      refine ⟨levelIndex count r, List.mem_of_getElem? hmem, ?_, ?_, ?_⟩
      · exact partEnd_lt (slot_mem hpWidth).1 hpr (slot_mem hr).2
      · exact partEnd_lt (slot_mem hr).1 hrq (slot_mem hqWidth).2
      · rw [level_eq hmem]
        exact hlevel
    · exact absurd heq (log2_lt_of_width hpWidth hqWidth).ne
    · exact absurd heq (log2_lt_of_width hqWidth hpWidth).ne'
    · have hlast := List.mem_range.mp ((indices_perm count).subset hb)
      obtain ⟨c, hreached, hac, hcb⟩ := exists_part_between h hpMissed hqMissed hlt hlast
      have hc := (indices_perm count).mem_iff.mpr (List.mem_range.mpr (hcb.trans hlast))
      refine ⟨c, hc, hac, hcb, ?_⟩
      obtain ⟨r, hr⟩ := List.mem_iff_getElem?.mp hc
      rw [level_eq hr]
      rcases index_cases hr with ⟨hrWidth, -⟩ | ⟨-, hrMissed⟩
      · exact log2_lt_of_width hrWidth hpWidth
      · simp [hreached] at hrMissed

/-! ### The height -/

/-- The indices in median order make a tree that is no higher than need be. -/
theorem height_ofKeys_indices_le (h : count < 2 ^ 64) :
    (ofKeys (indices count)).height ≤ count.log2 + 1 := by
  have hnodup := (indices_perm count).nodup_iff.mpr List.nodup_range
  have hlevel : ∀ index ∈ indices count, level count index < count.log2 + 1 := by
    intro index hindex
    obtain ⟨p, hp⟩ := List.mem_iff_getElem?.mp hindex
    have hlt : p < count := by
      have := (List.getElem?_eq_some_iff.mp hp).1
      rwa [(indices_perm count).length_eq, List.length_range] at this
    rw [level_eq hp]
    exact Nat.lt_succ_of_le (log2_le_log2 hlt)
  exact (indices_ranked h).height_le hnodup (fun _ _ => Nat.zero_le _) hlevel

/-- One more than the logarithm rounded down is that of the next number rounded up. -/
theorem log2_add_one_eq_clog (h : 1 ≤ count) : count.log2 + 1 = Nat.clog 2 (count + 1) := by
  have hself := Nat.log2_self_le (n := count) (by omega)
  have hnext := Nat.lt_log2_self (n := count)
  refine Nat.le_antisymm ?_ ((Nat.clog_le_iff_le_pow Nat.one_lt_two).mpr hnext)
  exact (Nat.lt_clog_iff_pow_lt Nat.one_lt_two).mpr (Nat.lt_succ_of_le hself)

/-- **Least height.** The indices in median order, added one after the other to a search tree that
    is never balanced, make a tree of all of them which is no higher than any tree with as many
    nodes has to be. -/
theorem height_ofKeys_indices (count : Nat) (hpos : 1 ≤ count) (hword : count < 2 ^ 64) :
    (ofKeys (indices count)).height = count.log2 + 1 ∧
      count.log2 + 1 = Nat.clog 2 (count + 1) ∧
      inorder (ofKeys (indices count)) = List.range count ∧
      ∀ tree : BinaryTree Nat, tree.numNodes = count → count.log2 + 1 ≤ tree.height := by
  have hleast : ∀ tree : BinaryTree Nat, tree.numNodes = count → count.log2 + 1 ≤ tree.height := by
    rintro tree rfl
    exact log2_lt_height (by omega)
  have hnodes : (ofKeys (indices count)).numNodes = count := by
    rw [numNodes_ofKeys, (indices_perm count).length_eq, List.length_range]
  have hinorder : inorder (ofKeys (indices count)) = List.range count :=
    ((inorder_perm _).trans (indices_perm count)).eq_of_pairwise
      (fun _ _ _ _ => Nat.le_antisymm) (inorder_pairwise _) List.pairwise_le_range
  exact ⟨Nat.le_antisymm (height_ofKeys_indices_le hword) (hleast _ hnodes),
    log2_add_one_eq_clog hpos, hinorder, hleast⟩

/-- The longest list whose length fits into 64 bits makes a perfect tree. -/
theorem height_ofKeys_indices_longest :
    1 ≤ 2 ^ 64 - 1 ∧ 2 ^ 64 - 1 < 2 ^ 64 ∧ (ofKeys (indices (2 ^ 64 - 1))).height = 64 := by
  have hpos : 1 ≤ 2 ^ 64 - 1 := by decide
  have hword : 2 ^ 64 - 1 < 2 ^ 64 := by decide
  have hlog : (2 ^ 64 - 1).log2 + 1 = 64 := by decide
  exact ⟨hpos, hword, (height_ofKeys_indices _ hpos hword).1.trans hlog⟩

end Lexicon.MedianOrder
