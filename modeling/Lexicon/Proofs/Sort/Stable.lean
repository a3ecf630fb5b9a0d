import Lexicon.Proofs.Sort.Sorter

namespace Lexicon

open Std

/-!
# Sorters that keep the places of equal words

Words that are equal in an order can be told apart all the same, so that an order does not say how
they are sorted.  A stable sorter leaves them as they stood.

* `KeepsTies` — the words equal to any one word stand in the same order as before.
* `KeepsTies.eq_of_pairwise` — of words in order, this leaves one list only.
* `Sort.bubble_keepsTies`, `Sort.insertion_keepsTies`, `mergeSort_keepsTies` — three ways to sort
  that keep ties.
* `Sorter.stable_sorters_agree` — so they sort alike, and in the exact order all sorters do.
-/

variable {σ α : Type} {ask : Comparison σ α} {compare : α → α → Ordering}

/-! ### Ties -/

/-- Whichever word is looked at, the words equal to it are the same ones, in the same order. -/
def KeepsTies (compare : α → α → Ordering) (words sorted : List α) : Prop :=
  ∀ a, sorted.filter (compare a · == .eq) = words.filter (compare a · == .eq)

namespace KeepsTies

variable {words words' words'' : List α} {a b : α}

theorem refl (compare : α → α → Ordering) (words : List α) : KeepsTies compare words words :=
  fun _ => rfl

theorem symm (h : KeepsTies compare words words') : KeepsTies compare words' words :=
  fun a => (h a).symm

theorem trans (h : KeepsTies compare words words') (h' : KeepsTies compare words' words'') :
    KeepsTies compare words words'' :=
  fun a => (h' a).trans (h a)

theorem append (h : KeepsTies compare words words') {later later' : List α}
    (h' : KeepsTies compare later later') :
    KeepsTies compare (words ++ later) (words' ++ later') := by
  intro a
  rw [List.filter_append, List.filter_append, h a, h' a]

theorem cons (h : KeepsTies compare words words') (a : α) :
    KeepsTies compare (a :: words) (a :: words') :=
  (refl compare [a]).append h

theorem reverse (h : KeepsTies compare words words') :
    KeepsTies compare words.reverse words'.reverse := by
  intro a
  rw [List.filter_reverse, List.filter_reverse, h a]

/-- Words that are not equal may change places. -/
theorem swap [TransCmp compare] (h : compare a b ≠ .eq) (rest : List α) :
    KeepsTies compare (a :: b :: rest) (b :: a :: rest) := by
  intro c
  by_cases ha : compare c a = .eq
  · -- No word is equal to both.
    have hb : compare c b ≠ .eq := fun hb => h (TransCmp.eq_trans (OrientedCmp.eq_symm ha) hb)
    simp [ha, hb]
  · simp [List.filter_cons, ha]

/-- No word is lost. -/
theorem mem_of_mem [ReflCmp compare] (h : KeepsTies compare words words') (ha : a ∈ words) :
    a ∈ words' := by
  have hself : compare a a = .eq := ReflCmp.compare_self
  have htie : a ∈ words.filter (compare a · == .eq) :=
    List.mem_filter.mpr ⟨ha, by simp [hself]⟩
  rw [← h a] at htie
  exact List.mem_of_mem_filter htie

/-- Behind the same word, ties are kept as well. -/
theorem of_cons (h : KeepsTies compare (a :: words) (a :: words')) :
    KeepsTies compare words words' := by
  intro c
  have hc := h c
  by_cases ha : compare c a = .eq <;> simpa [List.filter_cons, ha] using hc

/-- **One list only.** Words in order that keep the same ties are the same. -/
theorem eq_of_pairwise [TransCmp compare] (h : KeepsTies compare words words')
    (hwords : words.Pairwise fun a b => compare a b ≠ .gt)
    (hwords' : words'.Pairwise fun a b => compare a b ≠ .gt) : words' = words := by
  induction words generalizing words' with
  | nil =>
    apply List.eq_nil_iff_forall_not_mem.mpr
    intro b hb
    exact nomatch h.symm.mem_of_mem hb
  | cons a words ih =>
    cases words' with
    | nil => exact nomatch h.mem_of_mem List.mem_cons_self
    | cons b words' =>
      -- Neither of the first words is above the other, so that they are equal.
      have hab : compare a b ≠ .gt :=
        ne_gt_of_mem_cons hwords (h.symm.mem_of_mem List.mem_cons_self)
      have hba : compare b a ≠ .gt := ne_gt_of_mem_cons hwords' (h.mem_of_mem List.mem_cons_self)
      have heq : compare a b = .eq := eq_of_ne_gt_of_ne_gt hab hba
      have hself : compare a a = .eq := ReflCmp.compare_self
      -- Both come first among the words that are equal to them.
      have hfirst : b :: words'.filter (compare a · == .eq)
          = a :: words.filter (compare a · == .eq) := by
        simpa [List.filter_cons, heq, hself] using h a
      obtain rfl : b = a := (List.cons.inj hfirst).1
      rw [ih h.of_cons hwords.of_cons hwords'.of_cons]

end KeepsTies

/-! ### Sorters that move only words out of order -/

/-- A pass changes the places of words only if one is above the other. -/
theorem Sort.carry_keepsTies [TransCmp compare] (hask : Agrees ask compare) (word : α)
    (rest : List α) :
    Ensures (carry ask word rest) fun run =>
      KeepsTies compare (word :: rest) (run.1.others ++ [run.1.word]) := by
  induction rest generalizing word with
  | nil => exact Ensures.pure (KeepsTies.refl compare [word])
  | cons next rest ih =>
    rw [carry]
    refine (hask word next).bind fun answer hanswer => ?_
    subst hanswer
    split_ifs with hgt
    · have hne : compare word next ≠ .eq := by simp [beq_iff_eq.mp hgt]
      refine (ih word).bind ?_
      rintro ⟨arrived, _⟩ harrived
      exact Ensures.pure ((KeepsTies.swap hne rest).trans (harrived.cons next))
    · refine (ih next).bind ?_
      rintro ⟨arrived, _⟩ harrived
      exact Ensures.pure (harrived.cons word)

theorem Sort.bubbleBefore_keepsTies [TransCmp compare] (hask : Agrees ask compare)
    (words settled : List α) :
    Ensures (bubbleBefore ask words settled) (KeepsTies compare (words ++ settled)) := by
  induction words, settled using bubbleBefore.induct with
  | case1 settled =>
    rw [bubbleBefore]
    exact Ensures.pure (KeepsTies.refl compare settled)
  | case2 settled word rest ih =>
    rw [bubbleBefore]
    refine (carry_keepsTies hask word rest).bind ?_
    rintro ⟨arrived, moved⟩ harrived
    have hall : KeepsTies compare (word :: rest ++ settled)
        (arrived.others ++ arrived.word :: settled) := by
      rw [List.append_cons]
      exact harrived.append (KeepsTies.refl compare settled)
    dsimp only
    split_ifs
    · exact (ih arrived).mono fun sorted hsorted => hall.trans hsorted
    · exact Ensures.pure hall

theorem Sort.bubble_keepsTies [TransCmp compare] (hask : Agrees ask compare) (words : List α) :
    Ensures (bubble ask words) (KeepsTies compare words) :=
  (bubbleBefore_keepsTies hask words []).mono fun sorted hsorted => by
    rwa [List.append_nil] at hsorted

/-- A word that is settled passes those above it only. -/
theorem Sort.settle_keepsTies [TransCmp compare] (hask : Agrees ask compare) (word : α)
    (settled : List α) :
    Ensures (settle ask word settled) (KeepsTies compare (word :: settled)) := by
  induction settled with
  | nil => exact Ensures.pure (KeepsTies.refl compare [word])
  | cons top settled ih =>
    rw [settle]
    refine (hask top word).bind fun answer hanswer => ?_
    subst hanswer
    split_ifs with hgt
    · have hne : compare word top ≠ .eq := by simp [OrientedCmp.lt_of_gt (beq_iff_eq.mp hgt)]
      refine ih.bind fun below hbelow => Ensures.pure ?_
      exact (KeepsTies.swap hne settled).trans (hbelow.cons top)
    · exact Ensures.pure (KeepsTies.refl compare _)

/-- The words that are settled stand last one first. -/
theorem Sort.foldlM_settle_keepsTies [TransCmp compare] (hask : Agrees ask compare)
    (words settled : List α) :
    Ensures (words.foldlM (fun settled word => settle ask word settled) settled)
      (KeepsTies compare (words.reverse ++ settled)) := by
  induction words generalizing settled with
  | nil => exact Ensures.pure (KeepsTies.refl compare settled)
  | cons word words ih =>
    rw [List.foldlM_cons]
    refine (settle_keepsTies hask word settled).bind fun next hnext =>
      (ih next).mono fun last hlast => ?_
    rw [List.reverse_cons, List.append_assoc]
    exact ((KeepsTies.refl compare words.reverse).append hnext).trans hlast

theorem Sort.insertion_keepsTies [TransCmp compare] (hask : Agrees ask compare) (words : List α) :
    Ensures (insertion ask words) (KeepsTies compare words) := by
  refine (foldlM_settle_keepsTies hask words []).bind fun settled hsettled => Ensures.pure ?_
  have hreverse := hsettled.reverse
  rwa [List.append_nil, List.reverse_reverse] at hreverse

/-! ### Merging -/

/-- Merging keeps words in order that were in order before, those of a tie among them. -/
theorem mergeSort_keepsTies [TransCmp compare] (words : List α) :
    KeepsTies compare words (words.mergeSort fun a b => (compare a b).isLE) := by
  intro a
  have hties : (words.filter (compare a · == .eq)).Pairwise fun b c =>
      (compare b c).isLE = true := by
    refine List.pairwise_of_forall_mem_list fun b hb c hc => ?_
    have hab : compare a b = .eq := by simpa using (List.mem_filter.mp hb).2
    have hac : compare a c = .eq := by simpa using (List.mem_filter.mp hc).2
    rw [TransCmp.eq_trans (OrientedCmp.eq_symm hab) hac]
    rfl
  have hsublist : (words.filter (compare a · == .eq)).Sublist
      (words.mergeSort fun a b => (compare a b).isLE) :=
    List.sublist_mergeSort (fun _ _ _ => TransCmp.isLE_trans) isLE_or_isLE hties
      List.filter_sublist
  -- They are a part of the equal words of the sorted list, which are no more than they are.
  have hfilter := hsublist.filter (compare a · == .eq)
  rw [List.filter_filter] at hfilter
  simp only [Bool.and_self] at hfilter
  have hperm := (List.mergeSort_perm words fun a b => (compare a b).isLE).filter
    (compare a · == .eq)
  exact (hfilter.eq_of_length hperm.length_eq.symm).symm

/-! ### Sorting by a word order -/

/-- The words of a list in order, equal ones in the order in which they stood. -/
structure WordOrder.SortsStably (order : WordOrder) (words sorted : List Word) : Prop where
  /-- No word is lost, and none comes in. -/
  perm : sorted.Perm words
  /-- No word comes before an earlier one. -/
  ascends : order.Ascends sorted
  /-- Equal words keep their places among each other. -/
  ties : KeepsTies order.compare words sorted

/-- One list only is sorted stably. -/
theorem WordOrder.SortsStably.eq {order : WordOrder} {words sorted other : List Word}
    (h : order.SortsStably words sorted) (hother : order.SortsStably words other) :
    other = sorted :=
  (h.ties.symm.trans hother.ties).eq_of_pairwise h.ascends hother.ascends

namespace Sorter

theorem sortsStably_bubble (order : WordOrder) (words : List Word) :
    order.SortsStably words (bubble.sort order words) where
  perm := bubble.sort_perm order words
  ascends := bubble.sort_ascends order words
  ties := Sort.bubble_keepsTies (agrees_ofOrder order.compare) words ()

theorem sortsStably_insertion (order : WordOrder) (words : List Word) :
    order.SortsStably words (insertion.sort order words) where
  perm := insertion.sort_perm order words
  ascends := insertion.sort_ascends order words
  ties := Sort.insertion_keepsTies (agrees_ofOrder order.compare) words ()

theorem sortsStably_stable (order : WordOrder) (words : List Word) :
    order.SortsStably words (stable.sort order words) where
  perm := stable.sort_perm order words
  ascends := stable.sort_ascends order words
  ties := by
    rw [stable_sort_eq]
    exact mergeSort_keepsTies words

/-- **Stable sorters agree.** Of all lists one only holds the given words in order and leaves equal
    words as they stood.  Sorting by passes, by insertion and by merging gives that list, and in the
    exact order every sorter does. -/
theorem stable_sorters_agree (order : WordOrder) (words : List Word) :
    (∃ sorted, (∀ other, order.SortsStably words other ↔ other = sorted) ∧
        bubble.sort order words = sorted ∧ insertion.sort order words = sorted ∧
        stable.sort order words = sorted) ∧
      ∀ sorter : Sorter, sorter.sort .exact words = stable.sort .exact words := by
  have hstable := sortsStably_stable order words
  refine ⟨⟨stable.sort order words, ?_, ?_, ?_, rfl⟩, ?_⟩
  · intro other
    constructor
    · exact hstable.eq
    · rintro rfl
      exact hstable
  · exact hstable.eq (sortsStably_bubble order words)
  · exact hstable.eq (sortsStably_insertion order words)
  · intro sorter
    have hperm : (sorter.sort .exact words).Perm (stable.sort .exact words) :=
      (sorter.sort_perm .exact words).trans (stable.sort_perm .exact words).symm
    exact WordOrder.eq_of_perm_of_ascends hperm (sorter.sort_ascends .exact words)
      (stable.sort_ascends .exact words)

end Sorter

end Lexicon
