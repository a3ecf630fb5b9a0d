import Lexicon.Proofs.Sort.InPlace.Basic
import Lexicon.Proofs.Sort.Selection

namespace Lexicon.Sort.InPlace

open Attempt

/-!
# Selection sort in place

* `leastFrom`, `bring`, `selection` — the search for the position of a least word, its exchange with
  the first word, and both at every position.
* `leastFrom_eq`, `selection_eq` — they fail nowhere, and do what `choose` and `Sort.selection` do.
-/

variable {σ α : Type}

/-- Position of the last word, from position `j` on, that is below those that were least before
    it; `least` if there is none. -/
def leastFrom (ask : Comparison σ α) (count : Nat) (words : List α) (least j : Nat) :
    Attempt σ Nat := do
  if j < count then
    if (← askAt ask words j least) == .lt then leastFrom ask count words j (j + 1)
    else leastFrom ask count words least (j + 1)
  else return least
termination_by count - j

/-- Brings the word at a position to another one, unless it is there. -/
def bring (words : List α) (i least : Nat) : Attempt σ (List α) :=
  if least ≠ i then swapAt words i least else pure words

/-- Brings the least of the words from position `i` on to it, and so on for those behind it. -/
def selectionFrom (ask : Comparison σ α) (count : Nat) (words : List α) (i : Nat) :
    Attempt σ (List α) := do
  if i < count then
    let least ← leastFrom ask count words i (i + 1)
    selectionFrom ask count (← bring words i least) (i + 1)
  else return words
termination_by count - i

/-- Sorts by choosing the least of the remaining words each time. -/
def selection (ask : Comparison σ α) (words : List α) : Attempt σ (List α) :=
  selectionFrom ask words.length words 0

/-- A search for the least word, some words being seen already, and the exchange at its end.  Where
    no later word is below the least one so far, that one is brought to the front. -/
theorem leastFrom_eq (ask : Comparison σ α) (front : List α) (first : α) (seen rest : List α)
    {least : α} {place : Nat} (hplace : (front ++ first :: (seen ++ rest))[place]? = some least) :
    (leastFrom ask (front.length + 1 + seen.length + rest.length)
        (front ++ first :: (seen ++ rest)) place (front.length + 1 + seen.length) >>=
        bring (front ++ first :: (seen ++ rest)) front.length)
      = of (choose ask first least rest) >>= fun
          | none => bring (front ++ first :: (seen ++ rest)) front.length place
          | some p => pure (front ++ p.word :: (seen ++ p.others)) := by
  induction rest generalizing seen least place with
  | nil =>
    rw [leastFrom, if_neg (by simp)]
    rfl
  | cons word rest ih =>
    have hword := getElem?_middle front first seen word rest
    have hseen : seen ++ word :: rest = (seen ++ [word]) ++ rest := by simp
    have hlength : front.length + 1 + seen.length + (word :: rest).length
        = front.length + 1 + (seen ++ [word]).length + rest.length := by
      simp only [List.length_append, List.length_cons, List.length_nil]
      omega
    have hnext : front.length + 1 + seen.length + 1
        = front.length + 1 + (seen ++ [word]).length := by
      rw [List.length_append, List.length_singleton, Nat.add_assoc _ seen.length]
    rw [leastFrom, if_pos (by simp), askAt_eq hword hplace, choose_cons, of_bind, bind_assoc,
      bind_assoc]
    refine of_bind_congr fun answer => ?_
    rw [hseen] at hword hplace ⊢
    rw [hlength, hnext]
    split_ifs with hlt
    · -- This word is the least so far, and comes to the front if no later one is below it.
      rw [ih (seen ++ [word]) hword, of_bind, bind_assoc]
      refine of_bind_congr fun found => ?_
      cases found with
      | none =>
        have hne : front.length + 1 + seen.length ≠ front.length := by omega
        rw [← hseen]
        show bring _ _ _ = pure _
        rw [bring, if_pos hne, swapAt_eq]
        rfl
      | some p => simp [pickedPast]
    · rw [ih (seen ++ [word]) hplace, of_bind, bind_assoc]
      refine of_bind_congr fun found => ?_
      cases found with
      | none => rfl
      | some p => simp [pickedPast]

/-- Choices behind words that are chosen already fail nowhere. -/
theorem selectionFrom_eq (ask : Comparison σ α) (front words : List α) :
    selectionFrom ask (front.length + words.length) (front ++ words) front.length
      = of (Sort.selection ask words) >>= fun sorted => pure (front ++ sorted) := by
  induction words using Sort.selection.induct generalizing front with
  | case1 =>
    rw [selectionFrom, if_neg (by simp), Sort.selection]
    rfl
  | case2 first rest ihRest ihOthers =>
    have hleast := leastFrom_eq ask front first [] rest (getElem?_front front first rest)
    simp only [List.nil_append, List.length_nil, Nat.add_zero] at hleast
    -- The word that came to the front joins those that are chosen already.
    have hchosen : ∀ (word : α) (others : List α), others.length = rest.length →
        (∀ front : List α,
          selectionFrom ask (front.length + others.length) (front ++ others) front.length
            = of (Sort.selection ask others) >>= fun sorted => pure (front ++ sorted)) →
        selectionFrom ask (front.length + 1 + rest.length) (front ++ word :: others)
            (front.length + 1)
          = of (Sort.selection ask others) >>= fun sorted => pure (front ++ word :: sorted) := by
      intro word others hlength ih
      have := ih (front ++ [word])
      simpa [hlength] using this
    have hcount : front.length + (first :: rest).length = front.length + 1 + rest.length := by
      rw [List.length_cons, Nat.add_right_comm, Nat.add_assoc]
    rw [selectionFrom, if_pos (by simp), hcount, ← bind_assoc, hleast, bind_assoc, Sort.selection,
      of_bind, bind_assoc]
    refine of_bind_congr fun found => ?_
    cases found with
    | none =>
      show bring _ _ _ >>= _ = _
      rw [bring, if_neg (by simp), pure_bind, hchosen first rest rfl ihRest]
      rfl
    | some p =>
      rw [pure_bind, hchosen p.word p.others p.length_others (ihOthers p)]
      rfl

/-- **Selection sort in place** fails nowhere, whatever the comparison answers. -/
theorem selection_eq (ask : Comparison σ α) (words : List α) :
    selection ask words = of (Sort.selection ask words) := by
  have hall := selectionFrom_eq ask [] words
  simp only [List.length_nil, Nat.zero_add, List.nil_append, bind_pure] at hall
  exact hall

end Lexicon.Sort.InPlace
