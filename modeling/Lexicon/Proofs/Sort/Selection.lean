import Lexicon.Proofs.Order.Preorder
import Lexicon.Proofs.Sort.Ensures
import Lexicon.Sort.Selection
import Mathlib.Tactic.SplitIfs

namespace Lexicon.Sort

open Std

/-!
# Selection sort sorts

* `choose_perm`, `selection_perm` — whatever the comparison answers, no word is lost.
* `choose_least` — the word that is chosen is the least.
* `selection_pairwise` — if the comparison agrees with a total preorder, the words get sorted.
-/

variable {σ α : Type} {ask : Comparison σ α} {compare : α → α → Ordering}

/-! ### Choices -/

/-- A word that is picked from others is picked from one more in front of them. -/
def pickedPast {n : Nat} (word : α) (p : Picked α n) : Picked α (n + 1) :=
  ⟨p.word, word :: p.others, congrArg Nat.succ p.length_others⟩

/-- A choice looks at one word after the other. -/
theorem choose_cons (ask : Comparison σ α) (first least word : α) (rest : List α) :
    choose ask first least (word :: rest) = ask word least >>= fun answer =>
      if answer == .lt then
        choose ask first word rest >>= fun found =>
          pure (some (found.elim ⟨word, first :: rest, rfl⟩ (pickedPast word)))
      else
        choose ask first least rest >>= fun found => pure (found.map (pickedPast word)) := by
  refine bind_congr fun answer => ?_
  split_ifs
  · refine bind_congr fun found => ?_
    cases found <;> rfl
  · refine bind_congr fun found => ?_
    cases found <;> rfl

/-- Whatever the comparison answers, a choice loses no word. -/
theorem choose_perm (ask : Comparison σ α) (first least : α) (rest : List α) :
    Ensures (choose ask first least rest) fun found =>
      ∀ p ∈ found, (p.word :: p.others).Perm (first :: rest) := by
  induction rest generalizing least with
  | nil => exact Ensures.pure fun p hp => nomatch hp
  | cons word rest ih =>
    rw [choose_cons]
    refine Ensures.trivial.bind fun answer _ => ?_
    -- A word that is chosen later comes to the front past this one.
    have hlater : ∀ p : Picked α rest.length, (p.word :: p.others).Perm (first :: rest) →
        (p.word :: word :: p.others).Perm (first :: word :: rest) := fun p hp =>
      (List.Perm.swap word p.word _).trans ((hp.cons word).trans (List.Perm.swap first word rest))
    split_ifs
    · refine (ih word).bind fun found hfound => Ensures.pure fun p hp => ?_
      obtain rfl := Option.some.inj hp
      cases found with
      | none => exact List.Perm.swap first word rest
      | some chosen => exact hlater chosen (hfound chosen rfl)
    · refine (ih least).bind fun found hfound => Ensures.pure fun p hp => ?_
      obtain ⟨chosen, hchosen, rfl⟩ := Option.map_eq_some_iff.mp hp
      exact hlater chosen (hfound chosen hchosen)

/-- The word that is chosen is the least, the one known before included. -/
theorem choose_least [TransCmp compare] (hask : Agrees ask compare) (first least : α)
    (rest : List α) :
    Ensures (choose ask first least rest) fun found =>
      ∀ other ∈ least :: rest, compare (found.elim least Picked.word) other ≠ .gt := by
  induction rest generalizing least with
  | nil =>
    refine Ensures.pure fun other hother => ?_
    obtain rfl := List.mem_singleton.mp hother
    simp [ReflCmp.compare_self]
  | cons word rest ih =>
    rw [choose_cons]
    refine (hask word least).bind fun answer hanswer => ?_
    subst hanswer
    split_ifs with hlt
    · refine (ih word).bind fun found hfound => Ensures.pure ?_
      have hleast : compare word least ≠ .gt := by simp [beq_iff_eq.mp hlt]
      have hall : ∀ other ∈ least :: word :: rest,
          compare (found.elim word Picked.word) other ≠ .gt :=
        List.forall_mem_cons.mpr ⟨ne_gt_trans (hfound word List.mem_cons_self) hleast, hfound⟩
      cases found <;> exact hall
    · refine (ih least).bind fun found hfound => Ensures.pure ?_
      have hword : compare least word ≠ .gt := ne_gt_of_ne_lt fun heq => hlt (beq_iff_eq.mpr heq)
      obtain ⟨hleast, hrest⟩ := List.forall_mem_cons.mp hfound
      have hall : ∀ other ∈ least :: word :: rest,
          compare (found.elim least Picked.word) other ≠ .gt :=
        List.forall_mem_cons.mpr
          ⟨hleast, List.forall_mem_cons.mpr ⟨ne_gt_trans hleast hword, hrest⟩⟩
      cases found <;> exact hall

/-! ### Sorting -/

/-- Whatever the comparison answers, selection sort loses no word and brings none in. -/
theorem selection_perm (ask : Comparison σ α) (words : List α) :
    Ensures (selection ask words) (·.Perm words) := by
  induction words using selection.induct with
  | case1 =>
    rw [selection]
    exact Ensures.pure (List.Perm.refl _)
  | case2 first rest ihRest ihOthers =>
    rw [selection]
    refine (choose_perm ask first first rest).bind fun found hfound => ?_
    cases found with
    | none => exact ihRest.bind fun sorted hsorted => Ensures.pure (hsorted.cons first)
    | some chosen =>
      refine (ihOthers chosen).bind fun sorted hsorted => Ensures.pure ?_
      exact (hsorted.cons chosen.word).trans (hfound chosen rfl)

/-- If the comparison agrees with a total preorder, selection sort sorts. -/
theorem selection_pairwise [TransCmp compare] (hask : Agrees ask compare) (words : List α) :
    Ensures (selection ask words) (·.Pairwise fun a b => compare a b ≠ .gt) := by
  induction words using selection.induct with
  | case1 =>
    rw [selection]
    exact Ensures.pure List.Pairwise.nil
  | case2 first rest ihRest ihOthers =>
    rw [selection]
    refine ((choose_perm ask first first rest).and (choose_least hask first first rest)).bind
      fun found hfound => ?_
    cases found with
    | none =>
      refine ((selection_perm ask rest).and ihRest).bind fun sorted hsorted => Ensures.pure ?_
      refine List.pairwise_cons.mpr ⟨fun other hother => ?_, hsorted.2⟩
      exact hfound.2 other (List.mem_cons_of_mem _ (hsorted.1.mem_iff.mp hother))
    | some chosen =>
      refine ((selection_perm ask chosen.others).and (ihOthers chosen)).bind
        fun sorted hsorted => Ensures.pure ?_
      refine List.pairwise_cons.mpr ⟨fun other hother => hfound.2 other ?_, hsorted.2⟩
      exact (hfound.1 chosen rfl).mem_iff.mp
        (List.mem_cons_of_mem _ (hsorted.1.mem_iff.mp hother))

end Lexicon.Sort
