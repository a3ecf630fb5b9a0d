import Lexicon.Proofs.Sort.InPlace.Basic
import Lexicon.Sort.Bubble
import Mathlib.Tactic.SplitIfs

namespace Lexicon.Sort.InPlace

open Attempt

/-!
# Bubble sort in place

* `pass`, `bubble` — one pass over neighbours, and passes until one moves nothing.
* `pass_eq`, `bubble_eq` — they fail nowhere, and do what `carry` and `Sort.bubble` do.
-/

variable {σ α : Type}

/-- Exchanges neighbours that are out of order, from position `j` on and with the second of the
    last two at `stop`; tells whether any were, now or before. -/
def pass (ask : Comparison σ α) (stop : Nat) (words : List α) (j : Nat) (moved : Bool) :
    Attempt σ (List α × Bool) := do
  if j < stop then
    if (← askAt ask words j (j + 1)) == .gt then
      pass ask stop (← swapAt words j (j + 1)) (j + 1) true
    else pass ask stop words (j + 1) moved
  else return (words, moved)
termination_by stop - j

/-- Passes over ever fewer of the `count` words, until one moves nothing. -/
def bubbleFrom (ask : Comparison σ α) (count : Nat) (words : List α) (passes : Nat) :
    Attempt σ (List α) := do
  if passes < count then
    let stop ← minus (← minus count 1) passes
    let (words, moved) ← pass ask stop words 0 false
    if moved then bubbleFrom ask count words (passes + 1) else return words
  else return words
termination_by count - passes

/-- Sorts by passes that let the greatest word rise to the end. -/
def bubble (ask : Comparison σ α) (words : List α) : Attempt σ (List α) :=
  bubbleFrom ask words.length words 0

/-- A pass carries a word through those after it, up to the words that are settled. -/
theorem pass_eq (ask : Comparison σ α) (front : List α) (word : α) (rest settled : List α)
    (moved : Bool) :
    pass ask (front.length + rest.length) (front ++ word :: (rest ++ settled)) front.length moved
      = of (carry ask word rest) >>= fun (arrived, moved') =>
          pure (front ++ (arrived.others ++ arrived.word :: settled), moved || moved') := by
  induction rest generalizing front word moved with
  | nil =>
    rw [pass, if_neg (by simp), carry]
    simp
  | cons next rest ih =>
    -- The word that stays behind joins those in front of the pass.
    have hmove : ∀ behind onward : α, ∀ moved : Bool,
        pass ask (front.length + (next :: rest).length)
            (front ++ behind :: onward :: (rest ++ settled)) (front.length + 1) moved
          = of (carry ask onward rest) >>= fun (arrived, moved') =>
              pure (front ++ behind :: (arrived.others ++ arrived.word :: settled),
                moved || moved') := by
      intro behind onward moved
      have := ih (front ++ [behind]) onward moved
      simpa [Nat.add_assoc, Nat.add_comm 1] using this
    have hnext : (front ++ word :: next :: (rest ++ settled))[front.length + 1]? = some next :=
      getElem?_middle front word [] next (rest ++ settled)
    have hswap : swapAt (σ := σ) (front ++ word :: next :: (rest ++ settled)) front.length
        (front.length + 1) = pure (front ++ next :: word :: (rest ++ settled)) :=
      swapAt_eq front word [] next (rest ++ settled)
    rw [List.cons_append, pass, if_pos (by simp), askAt_eq (getElem?_front _ _ _) hnext, carry,
      of_bind, bind_assoc]
    refine of_bind_congr fun answer => ?_
    split_ifs with hgt
    · rw [hswap, pure_bind, hmove, of_bind, bind_assoc]
      refine of_bind_congr fun (arrived, moved') => ?_
      simp only [of_pure, pure_bind, Bool.true_or, Bool.or_true, List.cons_append]
    · rw [hmove, of_bind, bind_assoc]
      exact of_bind_congr fun (arrived, moved') => rfl

/-- Passes in front of settled words fail nowhere. -/
theorem bubbleFrom_eq (ask : Comparison σ α) (words settled : List α) :
    bubbleFrom ask (words.length + settled.length) (words ++ settled) settled.length
      = of (bubbleBefore ask words settled) := by
  induction words, settled using bubbleBefore.induct with
  | case1 settled =>
    rw [bubbleFrom, bubbleBefore, if_neg (by simp)]
    rfl
  | case2 settled word rest ih =>
    have hpass := pass_eq ask [] word rest settled false
    simp only [List.length_nil, Nat.zero_add, List.nil_append, Bool.false_or] at hpass
    have hstop : (word :: rest).length + settled.length - 1 - settled.length = rest.length := by
      simp only [List.length_cons]
      omega
    rw [bubbleFrom, if_pos (by simp), minus_eq (by simp only [List.length_cons]; omega), pure_bind,
      minus_eq (by simp), pure_bind]
    dsimp only
    rw [hstop, List.cons_append, hpass, bubbleBefore, of_bind, bind_assoc]
    refine of_bind_congr fun (arrived, moved) => ?_
    dsimp only
    rw [pure_bind]
    split_ifs
    · -- One word more is settled, and the others are one less.
      have hlength := arrived.length_others
      rw [← ih arrived]
      simp only [List.length_cons, hlength]
      congr 1
      omega
    · rfl

/-- **Bubble sort in place** fails nowhere, whatever the comparison answers. -/
theorem bubble_eq (ask : Comparison σ α) (words : List α) :
    bubble ask words = of (Sort.bubble ask words) := by
  have := bubbleFrom_eq ask words []
  rwa [List.append_nil] at this

end Lexicon.Sort.InPlace
