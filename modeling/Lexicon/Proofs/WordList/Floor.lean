import Lexicon.Proofs.WordList.Sampled
import Mathlib.Order.Bounds.Defs
import Mathlib.Tactic.Ring

namespace Lexicon.OffsetIndex

/-!
# Anchors are floors

An index that has been offered the offsets of all words in order leads from any index, also from
one past the end, to the last word at or before it whose offset is kept; and it keeps about the
share of the offsets that it was made for.

* `offerAll` — offers the offsets of words in order.
* `Floor` — the last of every so many words at or before an index.
* `Samples.floor_anchor`, `Samples.sub_anchor_lt` — an index leads to that word, which is near.
* `Samples.offsets_ascending` — offsets that grow are kept in growing order.
* `strideFor_bounds`, `Samples.size_bounds` — how many offsets are kept.
* `anchors_are_floors` — all this of any share of any offsets.
-/

/-! ### Offering -/

/-- Offers the offsets of words in order, the first of which has index zero. -/
def offerAll (offsets : List Nat) (sampled : OffsetIndex) : OffsetIndex :=
  offsets.zipIdx.foldl (fun sampled (offset, index) => sampled.offer index offset) sampled

@[simp] theorem stride_offer (sampled : OffsetIndex) (index offset : Nat) :
    (sampled.offer index offset).stride = sampled.stride := by
  unfold offer
  split_ifs <;> rfl

variable {sampled : OffsetIndex} {offsets : List Nat}

/-- Offering more offsets behind others keeps the right ones of all. -/
theorem Samples.foldl_offer (h : sampled.Samples offsets) (later : List Nat) :
    ((later.zipIdx offsets.length).foldl
      (fun sampled (offset, index) => sampled.offer index offset) sampled).Samples
        (offsets ++ later) := by
  induction later generalizing sampled offsets with
  | nil => rwa [List.append_nil]
  | cons offset later ih =>
    have hlater := ih (h.offer offset)
    rwa [List.length_append, List.length_singleton, List.append_assoc,
      List.singleton_append] at hlater

/-- An index that has been offered all offsets keeps the right ones. -/
theorem Samples.offerAll (h : sampled.Samples []) (offsets : List Nat) :
    (sampled.offerAll offsets).Samples offsets :=
  h.foldl_offer offsets

theorem stride_offerAll (sampled : OffsetIndex) (offsets : List Nat) :
    (sampled.offerAll offsets).stride = sampled.stride := by
  unfold OffsetIndex.offerAll
  generalize offsets.zipIdx = found
  induction found generalizing sampled with
  | nil => rfl
  | cons head found ih => rw [List.foldl_cons, ih, stride_offer]

/-! ### Floors -/

/-- Of words with the given offsets every `stride`-th is kept; this is the last of them that does
    not come after the word at `index`, and its offset. -/
structure Floor (stride : Nat) (offsets : List Nat) (index : Nat) (anchor : Nat × Nat) : Prop where
  /-- No word that is kept stands between. -/
  greatest : IsGreatest {kept | kept < offsets.length ∧ stride ∣ kept ∧ kept ≤ index} anchor.1
  /-- The offset is that of the word. -/
  offset_eq : offsets[anchor.1]? = some anchor.2

namespace Samples

/-- Without any offset an index leads to the start. -/
theorem anchor_nil (h : sampled.Samples []) (index : Nat) : sampled.anchor index = (0, 0) := by
  rcases h.anchor_eq index with hstart | hword
  · exact hstart
  · simp at hword

/-- Without a stride an index leads to the start. -/
theorem anchor_of_stride_zero (hstride : sampled.stride = 0) (index : Nat) :
    sampled.anchor index = (0, 0) := by
  rw [anchor, if_pos hstride]

/-- The slot of an anchor: that of the index, or the last one. -/
theorem exists_slot (h : sampled.Samples offsets) (hstride : sampled.stride ≠ 0)
    (hne : offsets ≠ []) (index : Nat) :
    ∃ slot, slot = min (index / sampled.stride) (sampled.offsets.size - 1) ∧
      slot < sampled.offsets.size ∧ (sampled.anchor index).1 = slot * sampled.stride ∧
      offsets[slot * sampled.stride]? = some (sampled.anchor index).2 := by
  -- The first word is kept, so there is a last slot.
  have hsize : 0 < sampled.offsets.size := by
    rw [h.lt_size_iff hstride, Nat.zero_mul]
    exact List.length_pos_iff.mpr hne
  have hslot : min (index / sampled.stride) (sampled.offsets.size - 1) < sampled.offsets.size := by
    omega
  refine ⟨_, rfl, hslot, ?_⟩
  rw [anchor, if_neg hstride, ← h.kept hstride]
  dsimp only
  rw [Array.getElem?_eq_getElem hslot]
  exact ⟨rfl, rfl⟩

/-- **Anchors are floors.** An index leads to the last word at or before the one that is asked
    for, of those that it keeps. -/
theorem floor_anchor (h : sampled.Samples offsets) (hstride : sampled.stride ≠ 0)
    (hne : offsets ≠ []) (index : Nat) :
    Floor sampled.stride offsets index (sampled.anchor index) := by
  obtain ⟨slot, hslot, hlt, hanchor, hoffset⟩ := h.exists_slot hstride hne index
  have hkept := (h.lt_size_iff hstride slot).mp hlt
  refine ⟨⟨⟨hanchor ▸ hkept, hanchor ▸ Nat.dvd_mul_left _ _, anchor_le sampled index⟩, ?_⟩, ?_⟩
  · -- A word that is kept has a slot, and one at or before the index no later one.
    rintro kept ⟨hlength, ⟨slot', rfl⟩, hle⟩
    rw [Nat.mul_comm] at hlength hle ⊢
    have hlast := (h.lt_size_iff hstride slot').mpr hlength
    have hindex := (Nat.le_div_iff_mul_le (Nat.pos_of_ne_zero hstride)).mpr hle
    rw [hanchor]
    exact Nat.mul_le_mul_right _ (by omega)
  · rwa [hanchor]

/-- From the index of a word it is less than a stride to the anchor. -/
theorem sub_anchor_lt (h : sampled.Samples offsets) (hstride : sampled.stride ≠ 0) {index : Nat}
    (hindex : index < offsets.length) : index - (sampled.anchor index).1 < sampled.stride := by
  have hne : offsets ≠ [] := List.ne_nil_of_length_pos (Nat.zero_lt_of_lt hindex)
  obtain ⟨slot, hslot, -, hanchor, -⟩ := h.exists_slot hstride hne index
  -- The slot of the index is in use, so the last one does not come before it.
  have hused := (h.lt_size_iff hstride (index / sampled.stride)).mpr
    ((Nat.div_mul_le_self _ _).trans_lt hindex)
  obtain rfl : slot = index / sampled.stride := by omega
  have hparts := Nat.div_add_mod' index sampled.stride
  have hmod := Nat.mod_lt index (Nat.pos_of_ne_zero hstride)
  omega

/-- Offsets that grow are kept in growing order. -/
theorem offsets_ascending (h : sampled.Samples offsets) (hascending : offsets.Pairwise (· < ·)) :
    sampled.offsets.toList.Pairwise (· < ·) := by
  by_cases hstride : sampled.stride = 0
  · rw [h.empty hstride]
    exact List.Pairwise.nil
  · rw [List.pairwise_iff_getElem] at hascending ⊢
    intro slot later hslot hlater hlt
    have hword := h.kept hstride slot
    have hword' := h.kept hstride later
    rw [← Array.getElem?_toList, List.getElem?_eq_getElem hslot] at hword
    rw [← Array.getElem?_toList, List.getElem?_eq_getElem hlater] at hword'
    obtain ⟨hindex, heq⟩ := List.getElem?_eq_some_iff.mp hword.symm
    obtain ⟨hindex', heq'⟩ := List.getElem?_eq_some_iff.mp hword'.symm
    rw [← heq, ← heq']
    exact hascending _ _ _ _ (Nat.mul_lt_mul_of_pos_right hlt (Nat.pos_of_ne_zero hstride))

/-! ### How many are kept -/

/-- The slots in use reach as far as the offsets do, and the last of them no further. -/
theorem size_bounds (h : sampled.Samples offsets) (hstride : sampled.stride ≠ 0) :
    offsets.length ≤ sampled.offsets.size * sampled.stride ∧
      (0 < offsets.length → 0 < sampled.offsets.size ∧
        (sampled.offsets.size - 1) * sampled.stride < offsets.length) := by
  have hused := h.lt_size_iff hstride
  refine ⟨not_lt.mp fun hlt => lt_irrefl _ ((hused _).mpr hlt), fun hlength => ?_⟩
  have hsize : 0 < sampled.offsets.size := (hused 0).mpr (by rwa [Nat.zero_mul])
  exact ⟨hsize, (hused _).mp (Nat.sub_lt hsize Nat.one_pos)⟩

end Samples

/-- The stride for a share keeps that share, and less than twice as much. -/
theorem strideFor_bounds {percent : Nat} (hpos : 0 < percent) (hle : percent ≤ 100) :
    strideFor percent ≠ 0 ∧ strideFor percent * percent ≤ 100 ∧
      100 < 2 * (strideFor percent * percent) := by
  rw [strideFor, if_neg hpos.ne']
  have hstride : 0 < 100 / percent := Nat.div_pos hle hpos
  have hparts := Nat.div_add_mod' 100 percent
  have hmod := Nat.mod_lt 100 hpos
  have hquot : percent ≤ 100 / percent * percent := Nat.le_mul_of_pos_left percent hstride
  refine ⟨hstride.ne', ?_, ?_⟩ <;> omega

/-- At least the share of the offsets is kept, and apart from one entry less than twice as much. -/
theorem Samples.share_bounds (h : sampled.Samples offsets) {percent : Nat} (hpos : 0 < percent)
    (hle : percent ≤ 100) (hstride : sampled.stride = strideFor percent) :
    offsets.length * percent ≤ 100 * sampled.offsets.size ∧
      (0 < offsets.length → 0 < sampled.offsets.size ∧
        100 * (sampled.offsets.size - 1) < 2 * offsets.length * percent) := by
  obtain ⟨hne, hshare, htwice⟩ := strideFor_bounds hpos hle
  obtain ⟨hreach, hlast⟩ := h.size_bounds (hstride ▸ hne)
  rw [hstride] at hreach hlast
  constructor
  · calc offsets.length * percent
        ≤ sampled.offsets.size * strideFor percent * percent := Nat.mul_le_mul_right _ hreach
      _ = sampled.offsets.size * (strideFor percent * percent) := Nat.mul_assoc _ _ _
      _ ≤ sampled.offsets.size * 100 := Nat.mul_le_mul_left _ hshare
      _ = 100 * sampled.offsets.size := Nat.mul_comm _ _
  · intro hlength
    obtain ⟨hsize, hlt⟩ := hlast hlength
    refine ⟨hsize, ?_⟩
    calc 100 * (sampled.offsets.size - 1)
        ≤ 2 * (strideFor percent * percent) * (sampled.offsets.size - 1) :=
          Nat.mul_le_mul_right _ htwice.le
      _ = 2 * ((sampled.offsets.size - 1) * strideFor percent) * percent := by ring
      _ < 2 * offsets.length * percent :=
          Nat.mul_lt_mul_of_pos_right (Nat.mul_lt_mul_of_pos_left hlt Nat.two_pos) hpos

/-! ### Any share -/

/-- **An exact floor index of bounded density.** Whatever share of the offsets of some words is to
    be kept: if none, none is kept, and every index leads to the start.  Otherwise exactly those of
    every so many words are, and any index, also one past the last word, leads to the last of these
    words that does not come after it, which is less than a stride in front of any word.  Offsets
    that grow are kept in growing order, and as many are kept as the share asks for, but less than
    twice as many and one more. -/
theorem anchors_are_floors (percent : Int) (hpercent : 0 ≤ percent ∧ percent ≤ 100)
    (offsets : List Nat) :
    ∃ sampled, (ofPercent percent).map (offerAll offsets) = .ok sampled ∧
      (percent = 0 → sampled.offsets = #[] ∧ ∀ index, sampled.anchor index = (0, 0)) ∧
      (percent ≠ 0 →
        (∀ slot, sampled.offsets[slot]? = offsets[slot * (100 / percent.toNat)]?) ∧
        (offsets = [] → ∀ index, sampled.anchor index = (0, 0)) ∧
        (offsets ≠ [] →
          ∀ index, Floor (100 / percent.toNat) offsets index (sampled.anchor index)) ∧
        ∀ index < offsets.length, index - (sampled.anchor index).1 < 100 / percent.toNat) ∧
      (∀ index, (sampled.anchor index).1 ≤ index) ∧
      (offsets.Pairwise (· < ·) → sampled.offsets.toList.Pairwise (· < ·)) ∧
      offsets.length * percent ≤ 100 * sampled.offsets.size ∧
      (0 < offsets.length →
        100 * ((sampled.offsets.size : Int) - 1) < 2 * offsets.length * percent) := by
  obtain ⟨share, rfl⟩ := Int.eq_ofNat_of_zero_le hpercent.1
  have hle : share ≤ 100 := Int.ofNat_le.mp hpercent.2
  have hfresh : ofPercent share = .ok ⟨strideFor share, #[]⟩ := if_pos hpercent
  have hsamples := (samples_nil hfresh).offerAll offsets
  have hstride : (offerAll offsets ⟨strideFor share, #[]⟩).stride = strideFor share :=
    stride_offerAll _ offsets
  refine ⟨_, congrArg (Except.map (offerAll offsets)) hfresh, ?_⟩
  -- From here on only the samples and the stride count.
  generalize offerAll offsets ⟨strideFor share, #[]⟩ = sampled at hsamples hstride ⊢
  refine ⟨?_, ?_, anchor_le sampled, hsamples.offsets_ascending, ?_⟩
  · intro hzero
    obtain rfl : share = 0 := Int.ofNat_eq_zero.mp hzero
    exact ⟨hsamples.empty hstride, Samples.anchor_of_stride_zero hstride⟩
  · intro hshare
    have hpos : 0 < share := Nat.pos_of_ne_zero fun hzero => hshare (Int.ofNat_eq_zero.mpr hzero)
    have hne := (strideFor_bounds hpos hle).1
    have hquot : strideFor share = 100 / share := if_neg hpos.ne'
    rw [Int.toNat_natCast, ← hquot]
    rw [← hstride] at hne ⊢
    refine ⟨hsamples.kept hne, ?_, hsamples.floor_anchor hne, fun _ => hsamples.sub_anchor_lt hne⟩
    rintro rfl
    exact hsamples.anchor_nil
  · rcases Nat.eq_zero_or_pos share with rfl | hpos
    · rw [hsamples.empty hstride]
      simp
    · obtain ⟨henough, hfew⟩ := hsamples.share_bounds hpos hle hstride
      refine ⟨by exact_mod_cast henough, fun hlength => ?_⟩
      obtain ⟨hsize, hlt⟩ := hfew hlength
      rw [← Int.natCast_pred_of_pos hsize]
      exact_mod_cast hlt

/-- A share that does not divide a hundred, with a last stride that is not full: past the end the
    index still leads to the last word that is kept. -/
theorem anchors_are_floors_past_end :
    (0 ≤ (30 : Int) ∧ (30 : Int) ≤ 100) ∧
      ∃ sampled, (ofPercent 30).map (offerAll [0, 4, 9, 15, 22]) = .ok sampled ∧
        Floor 3 [0, 4, 9, 15, 22] 1000 (sampled.anchor 1000) ∧
        sampled.offsets.toList.Pairwise (· < ·) ∧ 100 * ((sampled.offsets.size : Int) - 1) < 300 := by
  have hpercent : 0 ≤ (30 : Int) ∧ (30 : Int) ≤ 100 := by decide
  obtain ⟨sampled, hsampled, -, hkept, -, hascending, -, hfew⟩ :=
    anchors_are_floors 30 hpercent [0, 4, 9, 15, 22]
  obtain ⟨-, -, hfloor, -⟩ := hkept (by decide)
  exact ⟨hpercent, sampled, hsampled, hfloor (by decide) 1000, hascending (by decide),
    hfew (by decide)⟩

end Lexicon.OffsetIndex
