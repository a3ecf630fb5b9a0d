import Lexicon.OffsetIndex
import Mathlib.Data.Nat.Basic

namespace Lexicon.OffsetIndex

/-!
# Sampled offsets

An index that has been offered the offsets of all words in order keeps every `stride`-th of
them, so that it leads to a word at or before any index.

* `Samples` — an index that keeps the right ones of the offsets that it has been offered.
* `Samples.offer` — one more offset keeps it so.
* `Samples.anchor_eq`, `anchor_le` — where the index leads.
-/

/-- An index that has been offered the given offsets, in order. -/
structure Samples (sampled : OffsetIndex) (offsets : List Nat) : Prop where
  /-- Without a stride nothing is kept. -/
  empty : sampled.stride = 0 → sampled.offsets = #[]
  /-- Otherwise each slot keeps the offset of its own multiple of the stride. -/
  kept : sampled.stride ≠ 0 → ∀ slot, sampled.offsets[slot]? = offsets[slot * sampled.stride]?

variable {sampled : OffsetIndex} {offsets : List Nat}

/-- A fresh index has been offered nothing. -/
theorem samples_nil {percent : Int} (h : ofPercent percent = .ok sampled) : sampled.Samples [] := by
  unfold ofPercent at h
  split_ifs at h
  obtain rfl := Except.ok.inj h
  exact ⟨fun _ => rfl, fun _ slot => by simp⟩

/-- There is a slot for each multiple of the stride below the number of offsets. -/
theorem Samples.lt_size_iff (h : sampled.Samples offsets) (hstride : sampled.stride ≠ 0)
    (slot : Nat) : slot < sampled.offsets.size ↔ slot * sampled.stride < offsets.length := by
  rw [← not_le, ← not_le, ← Array.getElem?_eq_none_iff, ← List.getElem?_eq_none_iff,
    h.kept hstride]

/-- If the next offset is to be kept, the slots in use end right before it. -/
theorem Samples.size_mul_stride (h : sampled.Samples offsets) (hstride : sampled.stride ≠ 0)
    (hmod : offsets.length % sampled.stride = 0) :
    sampled.offsets.size * sampled.stride = offsets.length := by
  -- The slot of the next offset is the first one that is not in use.
  have hquot : offsets.length / sampled.stride * sampled.stride = offsets.length :=
    Nat.div_mul_cancel (Nat.dvd_of_mod_eq_zero hmod)
  have hle : sampled.offsets.size ≤ offsets.length / sampled.stride := by
    have hlast := h.lt_size_iff hstride (offsets.length / sampled.stride)
    rw [hquot] at hlast
    omega
  have hge : offsets.length / sampled.stride ≤ sampled.offsets.size := by
    by_contra hlt
    have hnext := (h.lt_size_iff hstride sampled.offsets.size).mpr
      (hquot ▸ Nat.mul_lt_mul_of_pos_right (not_le.mp hlt) (Nat.pos_of_ne_zero hstride))
    omega
  rw [Nat.le_antisymm hle hge, hquot]

theorem getElem?_concat_of_ne {index : Nat} (h : index ≠ offsets.length) (offset : Nat) :
    (offsets ++ [offset])[index]? = offsets[index]? := by
  rcases Nat.lt_or_gt_of_ne h with hlt | hgt
  · exact List.getElem?_append_left hlt
  · have hlength : (offsets ++ [offset]).length ≤ index := by
      rw [List.length_append, List.length_singleton]
      omega
    rw [List.getElem?_eq_none hlength, List.getElem?_eq_none (by omega)]

/-- Offering the next offset keeps the right ones. -/
theorem Samples.offer (h : sampled.Samples offsets) (offset : Nat) :
    (sampled.offer offsets.length offset).Samples (offsets ++ [offset]) := by
  unfold OffsetIndex.offer
  split_ifs with hsampled
  · obtain ⟨hstride, hmod⟩ := hsampled
    have hsize := h.size_mul_stride hstride hmod
    refine ⟨fun hzero => absurd hzero hstride, fun _ slot => ?_⟩
    -- The slot that is pushed belongs to the offset at the end; no other slot reaches that far.
    show (sampled.offsets.push offset)[slot]? = (offsets ++ [offset])[slot * sampled.stride]?
    rw [Array.getElem?_push]
    split_ifs with hslot
    · rw [hslot, hsize, List.getElem?_concat_length]
    · rw [h.kept hstride slot, getElem?_concat_of_ne]
      rw [← hsize]
      exact fun heq => hslot (Nat.eq_of_mul_eq_mul_right (Nat.pos_of_ne_zero hstride) heq)
  · refine ⟨h.empty, fun hstride slot => ?_⟩
    rw [h.kept hstride slot, getElem?_concat_of_ne]
    -- An offset that is passed over is at no multiple of the stride.
    intro heq
    exact hsampled ⟨hstride, heq ▸ Nat.mul_mod_left slot sampled.stride⟩

/-! ### Where the index leads -/

/-- The index leads to the start of the file or to a word whose offset it keeps. -/
theorem Samples.anchor_eq (h : sampled.Samples offsets) (index : Nat) :
    sampled.anchor index = (0, 0) ∨
      offsets[(sampled.anchor index).1]? = some (sampled.anchor index).2 := by
  unfold anchor
  split_ifs with hstride
  · exact .inl rfl
  · simp only
    split
    · next offset hoffset => exact .inr ((h.kept hstride _).symm.trans hoffset)
    · exact .inl rfl

/-- The word that the index leads to does not come after the one that was asked for. -/
theorem anchor_le (sampled : OffsetIndex) (index : Nat) : (sampled.anchor index).1 ≤ index := by
  unfold anchor
  split_ifs
  · exact Nat.zero_le _
  · simp only
    split
    · calc min (index / sampled.stride) (sampled.offsets.size - 1) * sampled.stride
          ≤ index / sampled.stride * sampled.stride :=
            Nat.mul_le_mul_right _ (Nat.min_le_left _ _)
        _ ≤ index := Nat.div_mul_le_self _ _
    · exact Nat.zero_le _

end Lexicon.OffsetIndex
