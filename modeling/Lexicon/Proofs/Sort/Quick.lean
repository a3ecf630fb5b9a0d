import Lexicon.Proofs.Order.Preorder
import Lexicon.Proofs.Sort.Partition
import Lexicon.Sort.Quick

namespace Lexicon.Sort

open Std

/-!
# Quicksort sorts

* `SortedIn` — words in order from one position to before another.
* `Split.sortedIn` — words that are split around a pivot, with either side in order, are in order.
* `quickRange_shuffled`, `quick_perm` — whatever the comparison answers, no word is lost.
* `quickRange_sorted`, `quick_pairwise` — if it agrees with a total preorder, the words get sorted.
-/

variable {σ α : Type} {n : Nat} {ask : Comparison σ α} {compare : α → α → Ordering}

/-! ### Words in order -/

/-- No word from `start` to before `stop` comes before an earlier one. -/
def SortedIn (compare : α → α → Ordering) (start stop : Nat) (words : Vector α n) : Prop :=
  ∀ (i j : Nat) (hj : j < n) (hij : i < j), start ≤ i → j < stop → compare words[i] words[j] ≠ .gt

/-- A range of one word, or of none, is in order. -/
theorem sortedIn_of_le {start stop : Nat} (h : stop ≤ start + 1) (words : Vector α n) :
    SortedIn compare start stop words := by
  intro i j hj hij hstart hstop
  omega

/-- Swaps elsewhere keep a range in order. -/
theorem SortedIn.shuffled_apart {start stop start' stop' : Nat} {words shuffled : Vector α n}
    (h : SortedIn compare start stop words) (hshuffled : Shuffled start' stop' words shuffled)
    (hapart : stop ≤ start' ∨ stop' ≤ start) : SortedIn compare start stop shuffled := by
  intro i j hj hij hstart hstop
  rw [hshuffled.getElem_of_outside (by omega) (by omega),
    hshuffled.getElem_of_outside hj (by omega)]
  exact h i j hj hij hstart hstop

/-- Words that are split around a pivot are in order if either side is. -/
theorem Split.sortedIn [TransCmp compare] {pivot : α} {first last leftStop rightStart : Nat}
    {words : Vector α n} (h : Split compare pivot first last rightStart leftStop words)
    (hleft : SortedIn compare first leftStop words)
    (hright : SortedIn compare rightStart (last + 1) words) :
    SortedIn compare first (last + 1) words := by
  intro i j hj hij hfirst hlast
  -- Words of one side are in order already, and the pivot stands between any others.
  by_cases hjleft : j < leftStop
  · exact hleft i j hj hij hfirst hjleft
  · by_cases hiright : rightStart ≤ i
    · exact hright i j hj hij hiright hlast
    · have hlow := h.low i (by omega) hfirst (by omega)
      exact ne_gt_trans hlow (ne_gt_of_ne_lt (h.high j hj (by omega) hlast))

/-- Swaps within either side keep words split. -/
theorem Split.shuffled {pivot : α} {first last leftStop rightStart start stop : Nat}
    {words shuffled : Vector α n} (h : Split compare pivot first last rightStart leftStop words)
    (hshuffled : Shuffled start stop words shuffled)
    (hside : (first ≤ start ∧ stop ≤ leftStop) ∨ (rightStart ≤ start ∧ stop ≤ last + 1))
    (hle : leftStop ≤ rightStart) :
    Split compare pivot first last rightStart leftStop shuffled := by
  rcases hside with ⟨hstart, hstop⟩ | ⟨hstart, hstop⟩
  · refine ⟨h.low.shuffled_within (hshuffled.mono hstart (by omega)), ?_⟩
    exact h.high.shuffled_apart hshuffled (.inr hstop)
  · refine ⟨h.low.shuffled_apart hshuffled (.inl hstart), ?_⟩
    exact h.high.shuffled_within (hshuffled.mono (by omega) hstop)

/-! ### Ranges -/

/-- Sorts a stretch of two words or more. -/
def quickStretch (ask : Comparison σ α) (words : Vector α n) (s : Stretch) (hn : s.stop - 1 < n) :
    StateM σ (Vector α n) :=
  if h : s.start < s.stop - 1 then quickRange ask words s.start (s.stop - 1) h hn
  else pure words

/-- To sort a range is to part it and to sort both sides. -/
theorem quickRange_eq (ask : Comparison σ α) (words : Vector α n) (first last : Nat)
    (hrange : first < last) (hn : last < n) :
    quickRange ask words first last hrange hn =
      partition ask words first last hrange hn >>= fun p =>
        quickStretch ask p.words p.sides.1 (p.sides_within.1.last_lt hn) >>= fun words =>
          quickStretch ask words p.sides.2 (p.sides_within.2.last_lt hn) := by
  rw [quickRange]
  congr 1
  funext p
  unfold quickStretch
  split_ifs <;> rfl

/-- What holds of every range up to its end after it was sorted, and of short stretches anyway,
    holds of a stretch. -/
theorem quickStretch_ensures {s : Stretch} (hn : s.stop - 1 < n) {words : Vector α n}
    (P : Nat → Vector α n → Prop)
    (hcall : ∀ h : s.start < s.stop - 1,
      Ensures (quickRange ask words s.start (s.stop - 1) h hn) (P (s.stop - 1 + 1)))
    (hshort : s.stop ≤ s.start + 1 → P s.stop words) :
    Ensures (quickStretch ask words s hn) (P s.stop) := by
  unfold quickStretch
  split_ifs with h
  · have hstop : s.stop - 1 + 1 = s.stop := by omega
    have hsorted := hcall h
    rwa [hstop] at hsorted
  · exact Ensures.pure (hshort (by omega))

/-- Whatever the comparison answers, sorting a range only swaps words of it. -/
theorem quickRange_shuffled (ask : Comparison σ α) (words : Vector α n) (first last : Nat)
    (hrange : first < last) (hn : last < n) :
    Ensures (quickRange ask words first last hrange hn) (Shuffled first (last + 1) words) := by
  induction words, first, last, hrange, hn using quickRange.induct with
  | case1 words first last hrange hn ih2 ih1 =>
    rw [quickRange_eq]
    refine (partition_shuffled ask words hrange hn).bind fun p hp => ?_
    obtain ⟨hwithin1, hwithin2⟩ := p.sides_within
    -- Swaps within a side are swaps within the range.
    refine (quickStretch_ensures (hwithin1.last_lt hn) (Shuffled p.sides.1.start · p.words)
      (ih1 p) fun _ => .refl).bind fun words1 hwords1 => ?_
    refine (quickStretch_ensures (hwithin2.last_lt hn) (Shuffled p.sides.2.start · words1)
      (ih2 p words1) fun _ => .refl).mono fun words2 hwords2 => ?_
    have hside1 := hwords1.mono hwithin1.first_le hwithin1.stop_le
    have hside2 := hwords2.mono hwithin2.first_le hwithin2.stop_le
    exact (hp.trans hside1).trans hside2

/-- Whatever the comparison answers, sorting a stretch only swaps words of it. -/
theorem quickStretch_shuffled (ask : Comparison σ α) (words : Vector α n) (s : Stretch)
    (hn : s.stop - 1 < n) :
    Ensures (quickStretch ask words s hn) (Shuffled s.start s.stop words) :=
  quickStretch_ensures hn (Shuffled s.start · words)
    (fun h => quickRange_shuffled ask words s.start (s.stop - 1) h hn) fun _ => .refl

/-- The sides are the left one and the right one, in some order. -/
theorem Parted.sides_eq {first last : Nat} (p : Parted α n first last) :
    p.sides = (p.left, p.right) ∨ p.sides = (p.right, p.left) := by
  unfold Parted.sides
  split_ifs
  · exact .inl rfl
  · exact .inr rfl

/-- If either side of a split range gets sorted, in any order, the range is. -/
theorem Split.sortedIn_of_sides [TransCmp compare] {pivot : α} {first last : Nat}
    {p : Parted α n first last} {words1 words2 : Vector α n}
    (h : Split compare pivot first last p.rightStart p.leftStop p.words)
    (hwords1 : Shuffled p.sides.1.start p.sides.1.stop p.words words1)
    (hsorted1 : SortedIn compare p.sides.1.start p.sides.1.stop words1)
    (hwords2 : Shuffled p.sides.2.start p.sides.2.stop words1 words2)
    (hsorted2 : SortedIn compare p.sides.2.start p.sides.2.stop words2) :
    SortedIn compare first (last + 1) words2 := by
  have hle := p.leftStop_le_rightStart
  rcases p.sides_eq with hsides | hsides
  · rw [hsides] at hwords1 hsorted1 hwords2 hsorted2
    have hsplit1 := h.shuffled hwords1 (.inl ⟨Nat.le_refl _, Nat.le_refl _⟩) hle
    have hsplit2 := hsplit1.shuffled hwords2 (.inr ⟨Nat.le_refl _, Nat.le_refl _⟩) hle
    exact hsplit2.sortedIn (hsorted1.shuffled_apart hwords2 (.inl hle)) hsorted2
  · rw [hsides] at hwords1 hsorted1 hwords2 hsorted2
    have hsplit1 := h.shuffled hwords1 (.inr ⟨Nat.le_refl _, Nat.le_refl _⟩) hle
    have hsplit2 := hsplit1.shuffled hwords2 (.inl ⟨Nat.le_refl _, Nat.le_refl _⟩) hle
    exact hsplit2.sortedIn hsorted2 (hsorted1.shuffled_apart hwords2 (.inr hle))

/-- If the comparison agrees with a total preorder, a range gets sorted. -/
theorem quickRange_sorted [TransCmp compare] (hask : Agrees ask compare) (words : Vector α n)
    (first last : Nat) (hrange : first < last) (hn : last < n) :
    Ensures (quickRange ask words first last hrange hn) (SortedIn compare first (last + 1)) := by
  induction words, first, last, hrange, hn using quickRange.induct with
  | case1 words first last hrange hn ih2 ih1 =>
    rw [quickRange_eq]
    refine (partition_split hask words hrange hn rfl (by omega)).bind fun p hsplit => ?_
    obtain ⟨hwithin1, hwithin2⟩ := p.sides_within
    -- Either call also swaps words of its own side only, so that the words stay split.
    have hside1 := quickStretch_ensures (hwithin1.last_lt hn)
      (SortedIn compare p.sides.1.start) (ih1 p) fun h => sortedIn_of_le h p.words
    refine ((quickStretch_shuffled ask p.words _ _).and hside1).bind fun words1 hwords1 => ?_
    have hside2 := quickStretch_ensures (hwithin2.last_lt hn)
      (SortedIn compare p.sides.2.start) (ih2 p words1) fun h => sortedIn_of_le h words1
    refine ((quickStretch_shuffled ask words1 _ _).and hside2).mono fun words2 hwords2 => ?_
    exact hsplit.sortedIn_of_sides hwords1.1 hwords1.2 hwords2.1 hwords2.2

/-! ### Lists -/

/-- Whatever the comparison answers, quicksort loses no word and brings none in. -/
theorem quick_perm (ask : Comparison σ α) (words : List α) :
    Ensures (quick ask words) (·.Perm words) := by
  unfold quick
  split_ifs with h
  · refine (quickRange_shuffled ask _ _ _ _ _).bind fun sorted hsorted => Ensures.pure ?_
    exact hsorted.perm
  · exact Ensures.pure (List.Perm.refl _)

/-- If the comparison agrees with a total preorder, quicksort sorts. -/
theorem quick_pairwise [TransCmp compare] (hask : Agrees ask compare) (words : List α) :
    Ensures (quick ask words) (·.Pairwise fun a b => compare a b ≠ .gt) := by
  unfold quick
  split_ifs with h
  · refine (quickRange_sorted hask _ _ _ _ _).bind fun sorted hsorted => Ensures.pure ?_
    refine List.pairwise_iff_getElem.mpr fun i j hi hj hij => ?_
    rw [Vector.length_toList] at hi hj
    have := hsorted i j hj hij (Nat.zero_le i) (by omega)
    simpa using this
  · refine Ensures.pure ?_
    match words, h with
    | [], _ => exact List.Pairwise.nil
    | [word], _ => exact List.pairwise_singleton _ word
    | _ :: _ :: _, h => simp at h

end Lexicon.Sort
