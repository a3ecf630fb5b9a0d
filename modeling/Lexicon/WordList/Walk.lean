import Lexicon.MedianOrder
import Lexicon.WordList.Basic

namespace Lexicon

/-!
# Walks over a word list

* `Walk` — a walk in ascending or in median order, over as many words as the list had when
  the walk began.
* `Walk.step` — reads the next word; a word that cannot be read is passed all the same.
* `Walk.fold` — reads all words of a walk, up to the first that cannot be read.
-/

/-- The indices that a walk has yet to visit. -/
inductive Walk where
  /-- The indices from `next` to before `stop`. -/
  | ascending (next stop : Nat)
  /-- The rest of a visit in median order. -/
  | median (visit : MedianOrder)

namespace Walk

/-- A walk over all words of a list. -/
def ofList {L : Type} [WordList L] (median : Bool) (list : L) : Walk :=
  if median then .median (MedianOrder.start (WordList.size list))
  else .ascending 0 (WordList.size list)

/-- Number of words still to come. -/
def left : Walk → Nat
  | ascending next stop => stop - next
  | median visit => visit.left

/-- The next index, and the walk after it. -/
def next? : Walk → Option (Nat × Walk)
  | ascending next stop => if next < stop then some (next, ascending (next + 1) stop) else none
  | median visit => visit.next?.map fun (index, after) => (index, median after)

/-- Each index is one of those that were still to come. -/
theorem left_of_next? {walk after : Walk} {index : Nat} (h : walk.next? = some (index, after)) :
    walk.left = after.left + 1 := by
  cases walk with
  | ascending next stop =>
    simp only [next?] at h
    split at h
    · simp only [Option.some.injEq, Prod.mk.injEq] at h
      rw [← h.2]
      simp only [left]
      omega
    · simp at h
  | median visit =>
    simp only [next?, Option.map_eq_some_iff, Prod.mk.injEq] at h
    obtain ⟨⟨_, rest⟩, hvisit, _, rfl⟩ := h
    exact MedianOrder.left_of_next? hvisit

/-- Reads the next word of a walk. -/
def step {L : Type} [WordList L] (walk : Walk) (list : L) :
    Option (Except ListError Word × Walk × L) :=
  match walk.next? with
  | none => none
  | some (index, after) =>
    let (word, list) := WordList.fetch list index
    some (word, after, list)

/-- Feeds the words of a walk to `add`, up to the first that cannot be read. -/
def fold {L β : Type} [WordList L] (add : β → Word → β) (acc : β) (walk : Walk) (list : L) :
    Except ListError β × L :=
  match h : walk.next? with
  | none => (.ok acc, list)
  | some (index, after) =>
    have := left_of_next? h
    match WordList.fetch list index with
    | (.error e, list) => (.error e, list)
    | (.ok word, list) => fold add (add acc word) after list
termination_by walk.left

end Walk

end Lexicon
