import Lexicon.Proofs.Sort.Ensures

namespace Lexicon.Sort

/-!
# Sorting in place

A sorter that works in place reads, swaps and rotates words by their positions.  Positions that
are not there make it fail, and so do differences below zero and calls that make no headway.

* `Attempt` — a computation with a state that may fail.
* `Attempt.of` — a computation that does not fail, as an attempt; `of_bind` takes steps apart.
* `InPlace.wordAt`, `InPlace.askAt`, `InPlace.swapAt`, `InPlace.rotateAt`, `InPlace.minus`,
  `InPlace.headway` — what a sorter in place does; within its range it succeeds.
-/

variable {σ α β : Type}

/-- A computation with a state, which may fail. -/
abbrev Attempt (σ α : Type) := StateT σ Option α

namespace Attempt

/-- A computation that does not fail. -/
def of (x : StateM σ α) : Attempt σ α :=
  fun s => some (x s)

@[simp] theorem of_pure (a : α) : of (pure a : StateM σ α) = pure a := rfl

theorem of_bind (x : StateM σ α) (f : α → StateM σ β) :
    of (x >>= f) = of x >>= fun a => of (f a) := rfl

/-- What follows a computation that does not fail may be exchanged for what does the same. -/
theorem of_bind_congr {x : StateM σ α} {f g : α → Attempt σ β} (h : ∀ a, f a = g a) :
    of x >>= f = of x >>= g :=
  congrArg (of x >>= ·) (funext h)

/-- What follows may rely on what the computation ensures. -/
theorem of_bind_congr_of_ensures {x : StateM σ α} {P : α → Prop} {f g : α → Attempt σ β}
    (hx : Ensures x P) (h : ∀ a, P a → f a = g a) : of x >>= f = of x >>= g :=
  funext fun s => congrFun (h _ (hx s)) (x s).2

end Attempt

namespace InPlace

open Attempt

/-! ### Operations -/

/-- The word at a position. -/
def wordAt (words : List α) (i : Nat) : Attempt σ α :=
  match words[i]? with
  | some word => pure word
  | none => failure

/-- Asks about the words at two positions. -/
def askAt (ask : Comparison σ α) (words : List α) (i j : Nat) : Attempt σ Ordering := do
  of (ask (← wordAt words i) (← wordAt words j))

/-- The words after those at two positions have changed places. -/
def swapAt (words : List α) (i j : Nat) : Attempt σ (List α) := do
  let a ← wordAt words i
  let b ← wordAt words j
  return (words.set i b).set j a

/-- The words after those from one position to another have moved up by one, the last of them to
    the first position. -/
def rotateAt (words : List α) (first last : Nat) : Attempt σ (List α) := do
  if first ≤ last then
    let word ← wordAt words last
    return words.take first ++ word :: (words.drop first).take (last - first)
      ++ words.drop (last + 1)
  else failure

/-- A difference that is not below zero. -/
def minus (a b : Nat) : Attempt σ { d : Nat // d + b = a } :=
  if h : b ≤ a then pure ⟨a - b, Nat.sub_add_cancel h⟩ else failure

/-- Makes sure that a call has less to go than the one that it comes from; calls that had not
    could go on for ever. -/
def headway (next span : Nat) : Attempt σ (PLift (next < span)) :=
  if h : next < span then pure ⟨h⟩ else failure

/-! ### Within their range -/

variable {a b : α} {front middle back : List α}

theorem wordAt_eq {words : List α} {i : Nat} {word : α} (h : words[i]? = some word) :
    wordAt (σ := σ) words i = pure word := by
  rw [wordAt, h]

theorem askAt_eq {ask : Comparison σ α} {words : List α} {i j : Nat} (hi : words[i]? = some a)
    (hj : words[j]? = some b) : askAt ask words i j = of (ask a b) := by
  rw [askAt, wordAt_eq hi, wordAt_eq hj]
  rfl

theorem minus_eq {m n : Nat} (h : n ≤ m) :
    minus (σ := σ) m n = pure ⟨m - n, Nat.sub_add_cancel h⟩ :=
  dif_pos h

theorem headway_eq {next span : Nat} (h : next < span) :
    headway (σ := σ) next span = pure ⟨h⟩ :=
  dif_pos h

/-- The word behind some others. -/
theorem getElem?_front (front : List α) (a : α) (back : List α) :
    (front ++ a :: back)[front.length]? = some a := by
  rw [List.getElem?_append_right (Nat.le_refl _), Nat.sub_self, List.getElem?_cons_zero]

/-- The word behind some others, one of them known. -/
theorem getElem?_middle (front : List α) (a : α) (middle : List α) (b : α) (back : List α) :
    (front ++ a :: (middle ++ b :: back))[front.length + 1 + middle.length]? = some b := by
  have hsplit : front ++ a :: (middle ++ b :: back) = (front ++ a :: middle) ++ b :: back := by
    simp
  have hlength : (front ++ a :: middle).length = front.length + 1 + middle.length := by
    simp only [List.length_append, List.length_cons]
    omega
  rw [hsplit, ← hlength]
  exact getElem?_front _ b back

/-- Two words change places. -/
theorem swapAt_eq (front : List α) (a : α) (middle : List α) (b : α) (back : List α) :
    swapAt (σ := σ) (front ++ a :: (middle ++ b :: back)) front.length
        (front.length + 1 + middle.length)
      = pure (front ++ b :: (middle ++ a :: back)) := by
  have hfirst : (front ++ a :: (middle ++ b :: back)).set front.length b
      = front ++ b :: (middle ++ b :: back) := by
    rw [List.set_append_right _ _ (Nat.le_refl _), Nat.sub_self, List.set_cons_zero]
  -- The second position is beyond the first by the words between them, and by one.
  have hsecond : (front ++ b :: (middle ++ b :: back)).set (front.length + 1 + middle.length) a
      = front ++ b :: (middle ++ a :: back) := by
    have hplace : front.length + 1 + middle.length - front.length = middle.length + 1 := by omega
    rw [List.set_append_right _ _ (by omega), hplace, List.set_cons_succ,
      List.set_append_right _ _ (Nat.le_refl _), Nat.sub_self, List.set_cons_zero]
  rw [swapAt, wordAt_eq (getElem?_front _ _ _), wordAt_eq (getElem?_middle _ _ _ _ _)]
  simp only [pure_bind, hfirst, hsecond]

/-- A word moves to the front of some others. -/
theorem rotateAt_eq (front middle : List α) (word : α) (back : List α) :
    rotateAt (σ := σ) (front ++ (middle ++ word :: back)) front.length
        (front.length + middle.length)
      = pure (front ++ word :: (middle ++ back)) := by
  have hword : (front ++ (middle ++ word :: back))[front.length + middle.length]? = some word := by
    rw [← List.append_assoc, ← List.length_append]
    exact getElem?_front _ word back
  have hrest : (front ++ (middle ++ word :: back)).drop (front.length + middle.length + 1)
      = back := by
    rw [← List.append_assoc, ← List.length_append, List.drop_append]
    simp
  rw [rotateAt, if_pos (Nat.le_add_right _ _), wordAt_eq hword, hrest]
  simp

end InPlace

end Lexicon.Sort
