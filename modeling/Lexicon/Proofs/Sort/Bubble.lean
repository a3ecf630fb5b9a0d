import Lexicon.Proofs.Order.Preorder
import Lexicon.Proofs.Sort.Ensures
import Lexicon.Sort.Bubble
import Mathlib.Tactic.SplitIfs

namespace Lexicon.Sort

open Std

/-!
# Bubble sort sorts

* `carry_perm`, `bubble_perm` — whatever the comparison answers, no word is lost.
* `carry_greatest`, `carry_unmoved` — a pass carries the greatest word to the end, and a pass that
  moves nothing has seen words in order.
* `bubble_pairwise` — if the comparison agrees with a total preorder, the words get sorted.
-/

variable {σ α : Type} {ask : Comparison σ α} {compare : α → α → Ordering}

/-! ### Passes -/

/-- Whatever the comparison answers, a pass loses no word. -/
theorem carry_perm (ask : Comparison σ α) (word : α) (rest : List α) :
    Ensures (carry ask word rest) fun (arrived, _) =>
      (arrived.word :: arrived.others).Perm (word :: rest) := by
  induction rest generalizing word with
  | nil => exact Ensures.pure (List.Perm.refl _)
  | cons next rest ih =>
    rw [carry]
    refine Ensures.trivial.bind fun answer _ => ?_
    split_ifs
    · refine (ih word).bind fun (arrived, _) harrived => Ensures.pure ?_
      exact (List.Perm.swap next arrived.word _).trans
        ((harrived.cons next).trans (List.Perm.swap word next rest))
    · refine (ih next).bind fun (arrived, _) harrived => Ensures.pure ?_
      exact (List.Perm.swap word arrived.word _).trans (harrived.cons word)

/-- The word that a pass carries to the end is the greatest. -/
theorem carry_greatest [TransCmp compare] (hask : Agrees ask compare) (word : α) (rest : List α) :
    Ensures (carry ask word rest) fun (arrived, _) =>
      ∀ other ∈ word :: rest, compare other arrived.word ≠ .gt := by
  induction rest generalizing word with
  | nil =>
    refine Ensures.pure fun other hother => ?_
    obtain rfl := List.mem_singleton.mp hother
    simp [ReflCmp.compare_self]
  | cons next rest ih =>
    rw [carry]
    refine (hask word next).bind fun answer hanswer => ?_
    subst hanswer
    split_ifs with hgt
    · -- The next word is below the one that goes on.
      refine (ih word).bind fun (arrived, _) harrived => Ensures.pure ?_
      have hword := harrived word List.mem_cons_self
      have hnext := ne_gt_trans (ne_gt_of_gt (beq_iff_eq.mp hgt)) hword
      simp only [List.mem_cons, forall_eq_or_imp] at harrived ⊢
      exact ⟨hword, hnext, harrived.2⟩
    · refine (ih next).bind fun (arrived, _) harrived => Ensures.pure ?_
      have hword : compare word next ≠ .gt := fun heq => hgt (beq_iff_eq.mpr heq)
      have hnext := harrived next List.mem_cons_self
      simp only [List.mem_cons, forall_eq_or_imp] at harrived ⊢
      exact ⟨ne_gt_trans hword hnext, harrived⟩

/-- A pass that moves nothing has seen words in order. -/
theorem carry_unmoved [TransCmp compare] (hask : Agrees ask compare) (word : α) (rest : List α) :
    Ensures (carry ask word rest) fun (arrived, moved) => moved = false →
      arrived.others ++ [arrived.word] = word :: rest ∧
        (word :: rest).Pairwise fun a b => compare a b ≠ .gt := by
  induction rest generalizing word with
  | nil => exact Ensures.pure fun _ => ⟨rfl, List.pairwise_singleton _ word⟩
  | cons next rest ih =>
    rw [carry]
    refine (hask word next).bind fun answer hanswer => ?_
    subst hanswer
    split_ifs with hgt
    · exact Ensures.trivial.bind fun (arrived, _) _ => Ensures.pure fun hmoved => nomatch hmoved
    · refine (ih next).bind fun (arrived, moved) harrived => Ensures.pure fun hmoved => ?_
      obtain ⟨hsame, hsorted⟩ := harrived hmoved
      have hword : compare word next ≠ .gt := fun heq => hgt (beq_iff_eq.mpr heq)
      refine ⟨congrArg (word :: ·) hsame, List.pairwise_cons.mpr ⟨?_, hsorted⟩⟩
      -- The word is in front of its neighbour, and so in front of all that the neighbour is.
      intro other hother
      rcases List.mem_cons.mp hother with rfl | hother
      · exact hword
      · exact ne_gt_trans hword (List.rel_of_pairwise_cons hsorted hother)

/-! ### Sorting -/

/-- Whatever the comparison answers, the passes lose no word. -/
theorem bubbleBefore_perm (ask : Comparison σ α) (words settled : List α) :
    Ensures (bubbleBefore ask words settled) (·.Perm (words ++ settled)) := by
  induction words, settled using bubbleBefore.induct with
  | case1 settled =>
    rw [bubbleBefore]
    exact Ensures.pure (List.Perm.refl _)
  | case2 settled word rest ih =>
    rw [bubbleBefore]
    refine (carry_perm ask word rest).bind fun (arrived, moved) harrived => ?_
    have hall : (arrived.others ++ arrived.word :: settled).Perm (word :: rest ++ settled) :=
      List.perm_middle.trans (harrived.append_right settled)
    dsimp only
    split_ifs
    · exact (ih arrived).mono fun sorted hsorted => hsorted.trans hall
    · exact Ensures.pure hall

/-- Passes in front of sorted words that are not below them sort all words. -/
theorem bubbleBefore_pairwise [TransCmp compare] (hask : Agrees ask compare)
    (words settled : List α) (hsettled : settled.Pairwise fun a b => compare a b ≠ .gt)
    (hbefore : ∀ a ∈ words, ∀ b ∈ settled, compare a b ≠ .gt) :
    Ensures (bubbleBefore ask words settled) (·.Pairwise fun a b => compare a b ≠ .gt) := by
  induction words, settled using bubbleBefore.induct with
  | case1 settled =>
    rw [bubbleBefore]
    exact Ensures.pure hsettled
  | case2 settled word rest ih =>
    rw [bubbleBefore]
    refine (((carry_perm ask word rest).and (carry_greatest hask word rest)).and
      (carry_unmoved hask word rest)).bind fun (arrived, moved) harrived => ?_
    obtain ⟨⟨hperm, hgreatest⟩, hunmoved⟩ := harrived
    dsimp only at hperm hgreatest hunmoved ⊢
    -- The word that arrived stands between the others and those that were settled before.
    have harrived : arrived.word ∈ word :: rest := hperm.mem_iff.mp List.mem_cons_self
    have hothers : ∀ a ∈ arrived.others, a ∈ word :: rest := fun a ha =>
      hperm.mem_iff.mp (List.mem_cons_of_mem _ ha)
    have hsettled' : (arrived.word :: settled).Pairwise fun a b => compare a b ≠ .gt :=
      List.pairwise_cons.mpr ⟨hbefore _ harrived, hsettled⟩
    have hbefore' : ∀ a ∈ arrived.others, ∀ b ∈ arrived.word :: settled, compare a b ≠ .gt := by
      intro a ha b hb
      rcases List.mem_cons.mp hb with rfl | hb
      · exact hgreatest a (hothers a ha)
      · exact hbefore a (hothers a ha) b hb
    split_ifs with hmoved
    · exact ih arrived hsettled' hbefore'
    · obtain ⟨hsame, hsorted⟩ := hunmoved (by simpa using hmoved)
      refine Ensures.pure (List.pairwise_append.mpr ⟨?_, hsettled', hbefore'⟩)
      rw [← hsame] at hsorted
      exact (List.pairwise_append.mp hsorted).1

/-- Whatever the comparison answers, bubble sort loses no word and brings none in. -/
theorem bubble_perm (ask : Comparison σ α) (words : List α) :
    Ensures (bubble ask words) (·.Perm words) :=
  (bubbleBefore_perm ask words []).mono fun sorted hsorted => by rwa [List.append_nil] at hsorted

/-- If the comparison agrees with a total preorder, bubble sort sorts. -/
theorem bubble_pairwise [TransCmp compare] (hask : Agrees ask compare) (words : List α) :
    Ensures (bubble ask words) (·.Pairwise fun a b => compare a b ≠ .gt) :=
  bubbleBefore_pairwise hask words [] List.Pairwise.nil fun _ _ _ hb => nomatch hb

end Lexicon.Sort
