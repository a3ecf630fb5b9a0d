import Lexicon.Proofs.Sort.InPlace.Basic
import Lexicon.Proofs.Sort.Insertion
import Mathlib.Tactic.SplitIfs

namespace Lexicon.Sort.InPlace

open Attempt

/-!
# Insertion sort in place

* `placeFrom`, `insert`, `insertion` — the search for the place of a word, its move to that place,
  and both for one word after the other.
* `placeFrom_eq`, `insertion_eq` — they fail nowhere, and do what `settle` and `Sort.insertion` do.
-/

variable {σ α : Type}

/-- Place of the word at position `i`, going down from `place` past words that exceed it. -/
def placeFrom (ask : Comparison σ α) (words : List α) (i place : Nat) : Attempt σ Nat := do
  if 0 < place then
    let ⟨below, _⟩ ← minus place 1
    if (← askAt ask words below i) == .gt then placeFrom ask words i below else return place
  else return place
termination_by place

/-- Moves the word at a position to a place, unless it is there. -/
def insert (words : List α) (i place : Nat) : Attempt σ (List α) :=
  if place < i then rotateAt words place i else pure words

/-- Inserts the words from position `i` on into the sorted words before them. -/
def insertionFrom (ask : Comparison σ α) (count : Nat) (words : List α) (i : Nat) :
    Attempt σ (List α) := do
  if i < count then
    let place ← placeFrom ask words i i
    insertionFrom ask count (← insert words i place) (i + 1)
  else return words
termination_by count - i

/-- Sorts by inserting each word into the sorted words before it. -/
def insertion (ask : Comparison σ α) (words : List α) : Attempt σ (List α) :=
  insertionFrom ask words.length words 1

/-- A word moves from behind the words that it has passed to their front. -/
theorem insert_eq (settled passed : List α) (word : α) (back : List α) :
    insert (σ := σ) (settled.reverse ++ (passed ++ word :: back))
        (settled.length + passed.length) settled.length
      = pure (settled.reverse ++ word :: (passed ++ back)) := by
  have hrotate := rotateAt_eq (σ := σ) settled.reverse passed word back
  rw [List.length_reverse] at hrotate
  cases passed with
  | nil => exact if_neg (Nat.lt_irrefl _)
  | cons first passed => exact (if_pos (by simp)).trans hrotate

/-- A word that has passed some words goes to its place among those below them. -/
theorem placeFrom_eq (ask : Comparison σ α) (settled passed : List α) (word : α) (back : List α) :
    (placeFrom ask (settled.reverse ++ (passed ++ word :: back)) (settled.length + passed.length)
        settled.length >>=
        insert (settled.reverse ++ (passed ++ word :: back)) (settled.length + passed.length))
      = of (settle ask word settled) >>= fun placed =>
          pure (placed.reverse ++ (passed ++ back)) := by
  induction settled generalizing passed with
  | nil =>
    rw [List.length_nil, placeFrom, if_neg (Nat.lt_irrefl 0), pure_bind, settle]
    exact insert_eq [] passed word back
  | cons top settled ih =>
    have hplace := insert_eq (σ := σ) (top :: settled) passed word back
    -- Seen from its place below the top, the word has passed one word more.
    have hbelow : (top :: settled).reverse ++ (passed ++ word :: back)
        = settled.reverse ++ (top :: passed ++ word :: back) := by simp
    have hlength : (top :: settled).length + passed.length
        = settled.length + (top :: passed).length := by
      simp only [List.length_cons]
      omega
    have htop := getElem?_front settled.reverse top ([] ++ passed ++ word :: back)
    have hword := getElem?_front (settled.reverse ++ top :: passed) word back
    rw [List.append_assoc, List.length_append, List.length_reverse] at hword
    rw [List.length_reverse, List.nil_append, ← List.cons_append] at htop
    rw [hbelow, hlength] at hplace ⊢
    rw [placeFrom, if_pos (by simp), minus_eq (by simp), pure_bind]
    dsimp only
    rw [List.length_cons, Nat.add_sub_cancel, askAt_eq htop hword, settle, of_bind, bind_assoc,
      bind_assoc]
    refine of_bind_congr fun answer => ?_
    split_ifs
    · rw [ih (top :: passed), of_bind, bind_assoc]
      refine of_bind_congr fun placed => ?_
      simp
    · rw [pure_bind]
      refine hplace.trans ?_
      simp

/-- Insertions behind settled words fail nowhere. -/
theorem insertionFrom_eq (ask : Comparison σ α) (settled words : List α) :
    insertionFrom ask (settled.length + words.length) (settled.reverse ++ words) settled.length
      = of (words.foldlM (fun settled word => settle ask word settled) settled) >>= fun settled =>
          pure settled.reverse := by
  induction words generalizing settled with
  | nil =>
    rw [insertionFrom, if_neg (by simp), List.append_nil]
    rfl
  | cons word words ih =>
    have hplace := placeFrom_eq ask settled [] word words
    simp only [List.nil_append, List.length_nil, Nat.add_zero] at hplace
    rw [insertionFrom, if_pos (by simp), ← bind_assoc, hplace, bind_assoc, List.foldlM_cons,
      of_bind, bind_assoc]
    refine of_bind_congr_of_ensures (settle_perm ask word settled) fun placed hplaced => ?_
    have hlength : placed.length = settled.length + 1 := hplaced.length_eq
    have hcount : settled.length + (word :: words).length = placed.length + words.length := by
      rw [hlength, List.length_cons]
      omega
    rw [pure_bind, hcount, ← hlength]
    exact ih placed

/-- **Insertion sort in place** fails nowhere, whatever the comparison answers. -/
theorem insertion_eq (ask : Comparison σ α) (words : List α) :
    insertion ask words = of (Sort.insertion ask words) := by
  cases words with
  | nil =>
    rw [insertion, insertionFrom, if_neg (by simp)]
    rfl
  | cons word words =>
    -- The first word is in its place from the start.
    have hrest := insertionFrom_eq ask [word] words
    simp only [List.length_singleton, List.reverse_singleton, List.singleton_append] at hrest
    rw [insertion, List.length_cons, Nat.add_comm, hrest]
    rfl

end Lexicon.Sort.InPlace
