import Lexicon.Order
import Lexicon.Proofs.Order.Encoding
import Lexicon.Proofs.Order.Preorder
import Mathlib.Data.List.Chain

namespace Lexicon.WordOrder

open Std

/-!
# Laws of word orders

Either order is a total preorder on words, read off character by character.

* `compareChar_eq` — characters compare as their folded forms.
* `compare_eq_compareLex` — words compare as their characters, the first difference deciding;
  for the exact order this is `Utf8.compareLex_encode`.
* `compareKeys_eq` — words compare as the bytes of their keys.
* `compare_eq_eq_iff` — words are equal in an order exactly if their keys are the same.
* `compare_exact_eq_iff`, `compare_exact_lt_iff` — the exact order is that of the code points.
* `equal` — equality in an order, as an equivalence relation.
* `Ascends` — words in order; neighbours decide (`ascends_iff_isChain`), and exact words are in
  order in one way only (`eq_of_perm_of_ascends`).

The laws of totality and transitivity are the instances of `TransCmp`.
-/

variable (order : WordOrder)

/-! ### Characters -/

theorem compareChar_eq (c d : Char) :
    order.compareChar c d = Ord.compare (order.fold c) (order.fold d) := by
  unfold compareChar
  split_ifs with h
  · rw [h, ReflOrd.compare_self]
  · rfl

instance : TransCmp order.compareChar where
  eq_swap := by
    intro c d
    rw [compareChar_eq, compareChar_eq]
    exact OrientedOrd.eq_swap
  isLE_trans := by
    intro c d e hcd hde
    rw [compareChar_eq] at hcd hde ⊢
    exact TransOrd.isLE_trans hcd hde

/-- Characters are equal in an order exactly if they fold to the same one. -/
theorem compareChar_eq_eq_iff (c d : Char) :
    order.compareChar c d = .eq ↔ order.fold c = order.fold d := by
  rw [compareChar_eq, LawfulEqOrd.compare_eq_iff_eq]

/-! ### Words -/

/-- Words compare by the first place where their characters are not equal. -/
theorem compare_eq_compareLex (a b : Word) :
    order.compare a b = List.compareLex order.compareChar a b := by
  cases order with
  | folding cases => rfl
  | exact =>
    have hchar : exact.compareChar = Ord.compare := by
      funext c d
      exact compareChar_eq exact c d
    rw [hchar]
    exact Utf8.compareLex_encode a b

instance : TransCmp order.compare := by
  have hcompare : order.compare = List.compareLex order.compareChar := by
    funext a b
    exact order.compare_eq_compareLex a b
  rw [hcompare]
  infer_instance

@[simp] theorem compare_nil_nil : order.compare [] [] = .eq := ReflCmp.compare_self

@[simp] theorem compare_nil_cons (c : Char) (a : Word) : order.compare [] (c :: a) = .lt := by
  rw [compare_eq_compareLex, List.compareLex_nil_cons]

@[simp] theorem compare_cons_nil (c : Char) (a : Word) : order.compare (c :: a) [] = .gt := by
  rw [compare_eq_compareLex, List.compareLex_cons_nil]

theorem compare_cons_cons (c d : Char) (a b : Word) :
    order.compare (c :: a) (d :: b) = (order.compareChar c d).then (order.compare a b) := by
  rw [compare_eq_compareLex, compare_eq_compareLex, List.compareLex_cons_cons]

/-- Words compare as the bytes of their keys do. -/
theorem compareKeys_eq (a b : Word) : order.compareKeys a b = order.compare a b := by
  rw [compareKeys, Utf8.compareLex_encode]
  induction a generalizing b with
  | nil => cases b <;> simp [key, List.compareLex_nil_cons]
  | cons c a ih =>
    cases b with
    | nil => simp [key, List.compareLex_cons_nil]
    | cons d b =>
      rw [compare_cons_cons, compareChar_eq, ← ih b]
      simp only [key, List.map_cons, List.compareLex_cons_cons]

/-- Words are equal in an order exactly if they fold to the same word. -/
theorem compare_eq_eq_iff (a b : Word) : order.compare a b = .eq ↔ order.key a = order.key b := by
  induction a generalizing b with
  | nil => cases b <;> simp [key]
  | cons c a ih =>
    cases b with
    | nil => simp [key]
    | cons d b =>
      rw [compare_cons_cons, Ordering.then_eq_eq, compareChar_eq_eq_iff, ih]
      simp [key]

@[simp] theorem key_exact (word : Word) : exact.key word = word :=
  List.map_id word

@[simp] theorem map_key_exact (words : List Word) : words.map exact.key = words := by
  rw [show exact.key = id from funext key_exact, List.map_id]

/-- Only the exact order tells all words apart. -/
theorem compare_exact_eq_iff (a b : Word) : exact.compare a b = .eq ↔ a = b := by
  rw [compare_eq_eq_iff, key_exact, key_exact]

/-- The exact order is that of the code points, place by place. -/
theorem compare_exact_lt_iff (a b : Word) : exact.compare a b = .lt ↔ a < b := by
  induction a generalizing b with
  | nil => cases b <;> simp
  | cons c a ih =>
    cases b with
    | nil => simp
    | cons d b =>
      have hlt : exact.compareChar c d = .lt ↔ c < d := by
        rw [compareChar_eq]
        exact compareOfLessAndEq_eq_lt
      rw [compare_cons_cons, Ordering.then_eq_lt, hlt, compareChar_eq_eq_iff, ih b,
        List.cons_lt_cons_iff]
      rfl

/-- Equality in an order. -/
def equal : Setoid Word where
  r a b := order.compare a b = .eq
  iseqv :=
    { refl := fun _ => ReflCmp.compare_self
      symm := OrientedCmp.eq_symm
      trans := TransCmp.eq_trans }

/-! ### Words in order -/

/-- No word comes before an earlier one. -/
def Ascends (words : List Word) : Prop :=
  words.Pairwise fun a b => order.compare a b ≠ .gt

/-- Words are in order if every two neighbours are. -/
theorem ascends_iff_isChain (words : List Word) :
    order.Ascends words ↔ words.IsChain fun a b => order.compare a b ≠ .gt := by
  -- The relation is transitive, so neighbours speak for all pairs.
  have : Trans (fun a b : Word => order.compare a b ≠ .gt) (fun a b => order.compare a b ≠ .gt)
      (fun a b => order.compare a b ≠ .gt) := ⟨ne_gt_trans⟩
  exact List.isChain_iff_pairwise.symm

/-- A word goes behind words in order if it does not come before the last of them. -/
theorem ascends_concat_iff (words : List Word) (word : Word) :
    order.Ascends (words ++ [word]) ↔
      order.Ascends words ∧ ∀ last ∈ words.getLast?, order.compare last word ≠ .gt := by
  rw [ascends_iff_isChain, ascends_iff_isChain, List.isChain_append]
  simp

/-- In the exact order words can be sorted in one way only. -/
theorem eq_of_perm_of_ascends {words words' : List Word} (hperm : words.Perm words')
    (hwords : exact.Ascends words) (hwords' : exact.Ascends words') : words = words' := by
  refine hperm.eq_of_pairwise ?_ hwords hwords'
  intro a b _ _ hab hba
  exact (compare_exact_eq_iff a b).mp (eq_of_ne_gt_of_ne_gt hab hba)

end Lexicon.WordOrder
