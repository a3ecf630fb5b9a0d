import Lexicon.Proofs.Sort.Ensures
import Lexicon.Proofs.Sort.Shuffled
import Lexicon.Sort.Partition
import Mathlib.Tactic.ByContra

namespace Lexicon.Sort

/-!
# What a partition ensures

* `climb_ensures`, `descend_ensures` — what the two scans have seen.
* `partition_shuffled` — whatever the comparison answers, a partition only swaps words.
* `partition_first_le` — nor does its left side end before the range begins.
* `Split` — words on the right sides of a pivot.
* `partition_split` — if the comparison agrees with an order, the words are split.
-/

variable {σ α : Type} {n : Nat} {ask : Comparison σ α} {compare : α → α → Ordering}

/-! ### Scans -/

/-- A scan upwards has passed words below the pivot, up to one that is not below it. -/
theorem climb_ensures (hask : Agrees ask compare) (words : Vector α n) (pivot : α) (last : Nat)
    (hlast : last < n) (i : Nat) (hi : i ≤ last) :
    Ensures (climb ask words pivot last hlast i hi) fun k =>
      Throughout i k.val (compare · pivot = .lt) words ∧
        ∀ h : k.val < last, compare words[k.val] pivot ≠ .lt := by
  fun_induction climb ask words pivot last hlast i hi with
  | case1 i hi h ih =>
    refine (hask words[i] pivot).bind fun answer hanswer => ?_
    subst hanswer
    split_ifs with hlt
    · refine ih.bind fun k hk => Ensures.pure ?_
      obtain ⟨k, hik, hklast⟩ := k
      refine ⟨?_, hk.2⟩
      intro j hj hij hjk
      rcases Nat.eq_or_lt_of_le hij with rfl | hij
      · exact beq_iff_eq.mp hlt
      · exact hk.1 j hj hij hjk
    · refine Ensures.pure ⟨throughout_of_le (Nat.le_refl i) words, ?_⟩
      intro _ heq
      exact hlt (beq_iff_eq.mpr heq)
  | case2 i hi h =>
    -- At the end of the range the scan stops without a comparison.
    refine Ensures.pure ⟨throughout_of_le (Nat.le_refl i) words, ?_⟩
    intro hlt
    exact absurd hlt h

/-- A scan downwards has passed words above the pivot, down to one that is not above it. -/
theorem descend_ensures (hask : Agrees ask compare) (words : Vector α n) (pivot : α) (first : Nat)
    (i : Nat) (hn : i < n) (hi : first ≤ i) :
    Ensures (descend ask words pivot first i hn hi) fun k =>
      Throughout (k.val + 1) (i + 1) (compare · pivot = .gt) words ∧
        ∀ (_ : first < k.val) (h : k.val < n), compare words[k.val] pivot ≠ .gt := by
  fun_induction descend ask words pivot first i hn hi with
  | case1 i hn hi h ih =>
    refine (hask words[i] pivot).bind fun answer hanswer => ?_
    subst hanswer
    split_ifs with hgt
    · refine ih.bind fun k hk => Ensures.pure ?_
      obtain ⟨k, hfirst, hki⟩ := k
      refine ⟨?_, hk.2⟩
      intro j hj hkj hji
      rcases Nat.eq_or_lt_of_le (Nat.le_of_lt_succ hji) with rfl | hji
      · exact beq_iff_eq.mp hgt
      · exact hk.1 j hj hkj (by omega)
    · refine Ensures.pure ⟨throughout_of_le (Nat.le_refl (i + 1)) words, ?_⟩
      intro _ _ heq
      exact hgt (beq_iff_eq.mpr heq)
  | case2 i hn hi h =>
    refine Ensures.pure ⟨throughout_of_le (Nat.le_refl (i + 1)) words, ?_⟩
    intro hlt
    exact absurd hlt h

/-! ### Partitions -/

/-- Whatever the comparison answers, a partition only swaps words of its range. -/
theorem partitionFrom_shuffled (ask : Comparison σ α) (pivot : α) {first last : Nat}
    (hrange : first < last) (hn : last < n) (words : Vector α n) (i stop : Nat)
    (hends : (i = first ∧ stop = last + 1) ∨ (first < i ∧ i ≤ last + 1 ∧ stop ≤ last)) :
    Ensures (partitionFrom ask pivot first last hrange hn words i stop hends) fun p =>
      Shuffled first (last + 1) words p.words := by
  fun_induction partitionFrom ask pivot first last hrange hn words i stop hends with
  | case1 words i stop hends h ih =>
    -- Nothing is known of the scans but their types, which keep them within the range.
    refine Ensures.trivial.bind fun left _ => Ensures.trivial.bind fun right _ => ?_
    obtain ⟨left, hleft⟩ := left
    obtain ⟨right, hright⟩ := right
    dsimp only
    split_ifs with hswap
    · refine (ih left hleft right hright).mono fun p hp => ?_
      refine Shuffled.trans (Shuffled.swap .refl left right _ _ ?_ ?_) hp
      · exact ⟨by omega, by omega⟩
      · exact ⟨by omega, by omega⟩
    · exact Ensures.pure .refl
  | case2 words i stop hends h => exact Ensures.pure .refl

/-- Whatever the comparison answers, a partition only swaps words of its range. -/
theorem partition_shuffled (ask : Comparison σ α) (words : Vector α n) {first last : Nat}
    (hrange : first < last) (hn : last < n) :
    Ensures (partition ask words first last hrange hn) fun p =>
      Shuffled first (last + 1) words p.words :=
  partitionFrom_shuffled ask _ hrange hn words first (last + 1) _

/-- Whatever the comparison answers, the left side ends no earlier than its range begins. -/
theorem partitionFrom_first_le (ask : Comparison σ α) (pivot : α) {first last : Nat}
    (hrange : first < last) (hn : last < n) (words : Vector α n) (i stop : Nat)
    (hends : (i = first ∧ stop = last + 1) ∨ (first < i ∧ i ≤ last + 1 ∧ stop ≤ last))
    (hstop : first ≤ stop) :
    Ensures (partitionFrom ask pivot first last hrange hn words i stop hends) fun p =>
      first ≤ p.leftStop := by
  fun_induction partitionFrom ask pivot first last hrange hn words i stop hends with
  | case1 words i stop hends h ih =>
    refine Ensures.trivial.bind fun left _ => Ensures.trivial.bind fun right _ => ?_
    obtain ⟨left, hleft⟩ := left
    obtain ⟨right, hright⟩ := right
    dsimp only
    split_ifs with hswap
    · exact ih left hleft right hright hright.1
    · exact Ensures.pure (Nat.le_succ_of_le hright.1)
  | case2 words i stop hends h => exact Ensures.pure hstop

/-- Whatever the comparison answers, the left side ends no earlier than its range begins. -/
theorem partition_first_le (ask : Comparison σ α) (words : Vector α n) {first last : Nat}
    (hrange : first < last) (hn : last < n) :
    Ensures (partition ask words first last hrange hn) fun p => first ≤ p.leftStop :=
  partitionFrom_first_le ask _ hrange hn words first (last + 1) _ (by omega)

/-- Words of a range that are not above a pivot up to one position, and not below it from another
    one on. -/
structure Split (compare : α → α → Ordering) (pivot : α) (first last lowStop highStart : Nat)
    (words : Vector α n) : Prop where
  /-- The words in front are not above the pivot. -/
  low : Throughout first lowStop (compare · pivot ≠ .gt) words
  /-- The words behind are not below the pivot. -/
  high : Throughout highStart (last + 1) (compare · pivot ≠ .lt) words

/-- The state of a partition: the words before `i` and from `stop` on are settled, and as long as
    there are others, some word stops either scan. -/
structure Settled (compare : α → α → Ordering) (pivot : α) (first last i stop : Nat)
    (words : Vector α n) : Prop where
  /-- The words at both ends are settled. -/
  split : Split compare pivot first last i stop words
  /-- A word stops the scan upwards. -/
  up : i < stop → ∃ (k : Nat) (hk : k < n), i ≤ k ∧ k ≤ last ∧ compare words[k] pivot ≠ .lt
  /-- A word stops the scan downwards. -/
  down : i < stop → ∃ (k : Nat) (hk : k < n), first ≤ k ∧ k < stop ∧ compare words[k] pivot ≠ .gt

variable {pivot : α} {first last i stop left right : Nat} {words : Vector α n}

/-- At the start, the pivot itself stops either scan. -/
theorem settled_start (words : Vector α n) {middle : Nat} (hfirst : first ≤ middle)
    (hlast : middle ≤ last) (hn : last < n)
    (hself : compare words[middle] words[middle] = .eq) :
    Settled compare words[middle] first last first (last + 1) words where
  split := ⟨throughout_of_le (Nat.le_refl first) words, throughout_of_le (Nat.le_refl _) words⟩
  up _ := ⟨middle, by omega, hfirst, hlast, by simp [hself]⟩
  down _ := ⟨middle, by omega, hfirst, by omega, by simp [hself]⟩

/-- The scan upwards stops at a word that is not below the pivot. -/
theorem Settled.not_lt_left (h : Settled compare pivot first last i stop words) (hrange : i < stop)
    (hleft : left < n) (hbelow : Throughout i left (compare · pivot = .lt) words)
    (hlast : left ≤ last) (hstop : left < last → compare words[left] pivot ≠ .lt) :
    compare words[left] pivot ≠ .lt := by
  obtain ⟨k, hk, hik, hklast, hne⟩ := h.up hrange
  -- The scan does not pass the word that is known to stop it.
  have hle : left ≤ k := by
    by_contra hlt
    exact hne (hbelow k hk hik (by omega))
  rcases Nat.lt_or_eq_of_le hlast with hlt | rfl
  · exact hstop hlt
  · obtain rfl : left = k := by omega
    exact hne

/-- The scan downwards stops at a word that is not above the pivot. -/
theorem Settled.not_gt_right (h : Settled compare pivot first last i stop words) (hrange : i < stop)
    (hright : right < n) (habove : Throughout (right + 1) stop (compare · pivot = .gt) words)
    (hfirst : first ≤ right) (hstop : first < right → compare words[right] pivot ≠ .gt) :
    compare words[right] pivot ≠ .gt := by
  obtain ⟨k, hk, hfirstk, hkstop, hne⟩ := h.down hrange
  have hle : k ≤ right := by
    by_contra hlt
    exact hne (habove k hk (by omega) hkstop)
  rcases Nat.lt_or_eq_of_le hfirst with hlt | rfl
  · exact hstop hlt
  · obtain rfl : k = first := by omega
    exact hne

/-- The words that the scans have passed are on their right sides. -/
theorem Settled.scanned (h : Settled compare pivot first last i stop words)
    (hbelow : Throughout i left (compare · pivot = .lt) words)
    (habove : Throughout (right + 1) stop (compare · pivot = .gt) words) :
    Split compare pivot first last left (right + 1) words where
  low k hk hfirst hleft := by
    by_cases hi : k < i
    · exact h.split.low k hk hfirst hi
    · simp [hbelow k hk (by omega) hleft]
  high k hk hright hlast := by
    by_cases hi : k < stop
    · simp [habove k hk hright hi]
    · exact h.split.high k hk (by omega) hlast

/-- The swap of the words that stopped the scans settles them too. -/
theorem Settled.swap (h : Split compare pivot first last left (right + 1) words)
    (hleft : left < n) (hright : right < n) (hfirst : first ≤ left) (hlast : right ≤ last)
    (hle : left ≤ right) (hnlt : compare words[left] pivot ≠ .lt)
    (hngt : compare words[right] pivot ≠ .gt) :
    Settled compare pivot first last (left + 1) right (words.swap left right hleft hright) where
  split :=
    { low := fun k hk hfirstk hkleft => by
        rw [Vector.getElem_swap]
        split_ifs with heq heq'
        · exact hngt
        · obtain rfl : left = right := by omega
          exact absurd heq' heq
        · exact h.low k hk hfirstk (by omega)
      high := fun k hk hrightk hklast => by
        rw [Vector.getElem_swap]
        split_ifs with heq heq'
        · obtain rfl : left = right := by omega
          exact hnlt
        · exact hnlt
        · exact h.high k hk (by omega) hklast }
  up hlt := ⟨right, hright, by omega, hlast, by simpa using hnlt⟩
  down hlt := ⟨left, hleft, hfirst, by omega, by simpa using hngt⟩

/-- If the comparison agrees with an order, a partition splits its range. -/
theorem partitionFrom_split (hask : Agrees ask compare) (pivot : α) {first last : Nat}
    (hrange : first < last) (hn : last < n) (words : Vector α n) (i stop : Nat)
    (hends : (i = first ∧ stop = last + 1) ∨ (first < i ∧ i ≤ last + 1 ∧ stop ≤ last))
    (h : Settled compare pivot first last i stop words) :
    Ensures (partitionFrom ask pivot first last hrange hn words i stop hends) fun p =>
      Split compare pivot first last p.rightStart p.leftStop p.words := by
  fun_induction partitionFrom ask pivot first last hrange hn words i stop hends with
  | case1 words i stop hends hlt ih =>
    refine (climb_ensures hask words pivot last hn i _).bind fun left hclimbed => ?_
    refine (descend_ensures hask words pivot first (stop - 1) _ _).bind fun right hdescended => ?_
    obtain ⟨left, hileft, hleftlast⟩ := left
    obtain ⟨right, hfirstright, hrightstop⟩ := right
    have hstop : stop - 1 + 1 = stop := by omega
    rw [hstop] at hdescended
    have hscanned := h.scanned hclimbed.1 hdescended.1
    dsimp only
    -- Scans that have not met stopped at words on the wrong sides, which change places.
    split_ifs with hswap
    · refine ih left ⟨hileft, hleftlast⟩ right ⟨hfirstright, hrightstop⟩ ?_
      have hfirstleft : first ≤ left := by omega
      have hrightlast : right ≤ last := by omega
      refine Settled.swap hscanned _ _ hfirstleft hrightlast hswap ?_ ?_
      · exact h.not_lt_left hlt _ hclimbed.1 hleftlast hclimbed.2
      · exact h.not_gt_right hlt _ hdescended.1 hfirstright fun hlt => hdescended.2 hlt _
    · exact Ensures.pure hscanned
  | case2 words i stop hends hge => exact Ensures.pure h.split

/-- If the comparison agrees with an order, a partition splits its range around the word in its
    middle. -/
theorem partition_split [Std.ReflCmp compare] (hask : Agrees ask compare) (words : Vector α n)
    {first last middle : Nat} (hrange : first < last) (hn : last < n)
    (hmiddle : first + (last - first) / 2 = middle) (hmiddlen : middle < n) :
    Ensures (partition ask words first last hrange hn) fun p =>
      Split compare words[middle] first last p.rightStart p.leftStop p.words := by
  subst hmiddle
  exact partitionFrom_split hask _ hrange hn words first (last + 1) _
    (settled_start words (by omega) (by omega) hn Std.ReflCmp.compare_self)

end Lexicon.Sort
