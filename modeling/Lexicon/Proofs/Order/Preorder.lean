namespace Lexicon

open Std

/-!
# Total preorders

What a comparison of a total preorder says of words that are not above others.

* `ne_gt_trans`, `ne_gt_of_gt`, `ne_gt_of_ne_lt` — chains of words, and comparisons turned round.
* `eq_of_ne_gt_of_ne_gt` — words none of which is above the other.
* `ne_gt_of_mem_cons` — the first of words in order.
* `isLE_or_isLE` — of two words one is not above the other.
-/

variable {α : Type} {compare : α → α → Ordering} {a b c : α}

theorem ne_gt_trans [TransCmp compare] (hab : compare a b ≠ .gt) (hbc : compare b c ≠ .gt) :
    compare a c ≠ .gt := by
  rw [ne_eq, Ordering.ne_gt_iff_isLE] at hab hbc ⊢
  exact TransCmp.isLE_trans hab hbc

theorem ne_gt_of_gt [OrientedCmp compare] (h : compare a b = .gt) : compare b a ≠ .gt := by
  rw [OrientedCmp.lt_of_gt h]
  exact nofun

theorem ne_gt_of_ne_lt [OrientedCmp compare] (h : compare a b ≠ .lt) : compare b a ≠ .gt :=
  fun hgt => h (OrientedCmp.lt_of_gt hgt)

theorem eq_of_ne_gt_of_ne_gt [OrientedCmp compare] (hab : compare a b ≠ .gt)
    (hba : compare b a ≠ .gt) : compare a b = .eq := by
  rw [ne_eq, Ordering.ne_gt_iff_isLE] at hab hba
  exact OrientedCmp.isLE_antisymm hab hba

/-- The first of words in order is above none of them. -/
theorem ne_gt_of_mem_cons [TransCmp compare] {words : List α}
    (h : (a :: words).Pairwise fun a b => compare a b ≠ .gt) (hb : b ∈ a :: words) :
    compare a b ≠ .gt := by
  rcases List.mem_cons.mp hb with rfl | hb
  · have hself : compare b b = .eq := ReflCmp.compare_self
    rw [hself]
    exact nofun
  · exact List.rel_of_pairwise_cons h hb

theorem isLE_or_isLE [OrientedCmp compare] (a b : α) :
    ((compare a b).isLE || (compare b a).isLE) = true := by
  have hswap : compare b a = (compare a b).swap := OrientedCmp.eq_swap
  rw [hswap]
  cases compare a b <;> rfl

end Lexicon
