import Lexicon.Proofs.Order.Preorder
import Lexicon.Proofs.Sort.Ensures
import Lexicon.Sort.Insertion
import Mathlib.Tactic.SplitIfs

namespace Lexicon.Sort

open Std

/-!
# Insertion sort sorts

* `settle_perm`, `insertion_perm` — whatever the comparison answers, no word is lost.
* `settle_pairwise` — a word that is settled among words in order leaves them in order.
* `insertion_pairwise` — if the comparison agrees with a total preorder, the words get sorted.

The words that are settled stand last one first, so that theirs is the order turned round.
-/

variable {σ α : Type} {ask : Comparison σ α} {compare : α → α → Ordering}

/-! ### One word -/

/-- Whatever the comparison answers, a word is settled without a loss. -/
theorem settle_perm (ask : Comparison σ α) (word : α) (settled : List α) :
    Ensures (settle ask word settled) (·.Perm (word :: settled)) := by
  induction settled with
  | nil => exact Ensures.pure (List.Perm.refl _)
  | cons top settled ih =>
    rw [settle]
    refine Ensures.trivial.bind fun answer _ => ?_
    split_ifs
    · refine ih.bind fun below hbelow => Ensures.pure ?_
      exact (hbelow.cons top).trans (List.Perm.swap word top settled)
    · exact Ensures.pure (List.Perm.refl _)

/-- A word that is settled among words in order leaves them in order. -/
theorem settle_pairwise [TransCmp compare] (hask : Agrees ask compare) (word : α)
    (settled : List α) (hsettled : settled.Pairwise fun a b => compare b a ≠ .gt) :
    Ensures (settle ask word settled) (·.Pairwise fun a b => compare b a ≠ .gt) := by
  induction settled with
  | nil => exact Ensures.pure (List.pairwise_singleton _ word)
  | cons top settled ih =>
    obtain ⟨htop, hbelow⟩ := List.pairwise_cons.mp hsettled
    rw [settle]
    refine (hask top word).bind fun answer hanswer => ?_
    subst hanswer
    split_ifs with hgt
    · -- The word goes below the top, where all others are already.
      refine ((settle_perm ask word settled).and (ih hbelow)).bind fun sorted hsorted =>
        Ensures.pure (List.pairwise_cons.mpr ⟨fun other hother => ?_, hsorted.2⟩)
      rcases List.mem_cons.mp (hsorted.1.mem_iff.mp hother) with rfl | hother
      · exact ne_gt_of_gt (beq_iff_eq.mp hgt)
      · exact htop other hother
    · have hword : compare top word ≠ .gt := fun heq => hgt (beq_iff_eq.mpr heq)
      refine Ensures.pure (List.pairwise_cons.mpr ⟨?_, hsettled⟩)
      exact List.forall_mem_cons.mpr
        ⟨hword, fun other hother => ne_gt_trans (htop other hother) hword⟩

/-! ### Sorting -/

/-- Whatever the comparison answers, words are settled one after the other without a loss. -/
theorem foldlM_settle_perm (ask : Comparison σ α) (words settled : List α) :
    Ensures (words.foldlM (fun settled word => settle ask word settled) settled)
      (·.Perm (words ++ settled)) := by
  induction words generalizing settled with
  | nil => exact Ensures.pure (List.Perm.refl _)
  | cons word words ih =>
    rw [List.foldlM_cons]
    refine (settle_perm ask word settled).bind fun next hnext => (ih next).mono fun last hlast => ?_
    exact hlast.trans ((hnext.append_left words).trans List.perm_middle)

/-- Words that are settled one after the other are in order, turned round. -/
theorem foldlM_settle_pairwise [TransCmp compare] (hask : Agrees ask compare)
    (words settled : List α) (hsettled : settled.Pairwise fun a b => compare b a ≠ .gt) :
    Ensures (words.foldlM (fun settled word => settle ask word settled) settled)
      (·.Pairwise fun a b => compare b a ≠ .gt) := by
  induction words generalizing settled with
  | nil => exact Ensures.pure hsettled
  | cons word words ih =>
    rw [List.foldlM_cons]
    exact (settle_pairwise hask word settled hsettled).bind ih

/-- Whatever the comparison answers, insertion sort loses no word and brings none in. -/
theorem insertion_perm (ask : Comparison σ α) (words : List α) :
    Ensures (insertion ask words) (·.Perm words) := by
  refine (foldlM_settle_perm ask words []).bind fun settled hsettled => Ensures.pure ?_
  rw [List.append_nil] at hsettled
  exact (List.reverse_perm settled).trans hsettled

/-- If the comparison agrees with a total preorder, insertion sort sorts. -/
theorem insertion_pairwise [TransCmp compare] (hask : Agrees ask compare) (words : List α) :
    Ensures (insertion ask words) (·.Pairwise fun a b => compare a b ≠ .gt) :=
  (foldlM_settle_pairwise hask words [] List.Pairwise.nil).bind fun _ hsettled =>
    Ensures.pure (List.pairwise_reverse.mpr hsettled)

end Lexicon.Sort
