import Lexicon.Text.Basic
import Mathlib.Order.Bounds.Basic
import Mathlib.Order.MinMax

namespace Lexicon

/-!
# Edit distance of texts

* `Edit`, `Edited` — one character inserted, deleted or replaced, and many such edits.
* `levenshtein` — the edit distance, by the first characters of both texts.
* `levenshtein_cons_le`, `levenshtein_le_of_edit` — one edit changes the distance by one at most.
* `isLeast_levenshtein` — the distance is the least number of edits that lead from text to text.
-/

/-! ### Edits -/

/-- One edit of a text. -/
inductive Edit : Text → Text → Prop
  /-- A character comes in. -/
  | insert (c : Char) (a : Text) : Edit a (c :: a)
  /-- A character goes. -/
  | delete (c : Char) (a : Text) : Edit (c :: a) a
  /-- A character is replaced. -/
  | substitute (c d : Char) (a : Text) : Edit (c :: a) (d :: a)
  /-- The edit comes later in the text. -/
  | later (c : Char) {a b : Text} : Edit a b → Edit (c :: a) (c :: b)

/-- So many edits lead from one text to another. -/
inductive Edited : Nat → Text → Text → Prop
  /-- No edit. -/
  | done (a : Text) : Edited 0 a a
  /-- One more edit in front of others. -/
  | edit {n : Nat} {a b c : Text} : Edit a b → Edited n b c → Edited (n + 1) a c

variable {n : Nat} {a b : Text}

/-- Edits may come later in a text. -/
theorem Edited.later (c : Char) (h : Edited n a b) : Edited n (c :: a) (c :: b) := by
  induction h with
  | done a => exact .done _
  | edit hedit _ ih => exact .edit (.later c hedit) ih

theorem Edited.min {m : Nat} (h : Edited n a b) (h' : Edited m a b) : Edited (min n m) a b := by
  rcases min_choice n m with hmin | hmin
  · rwa [hmin]
  · rwa [hmin]

/-! ### Distance -/

/-- The edit distance of two texts: first characters that differ are replaced, or one of them is
    deleted or inserted, whichever costs least. -/
def levenshtein : Text → Text → Nat
  | [], b => b.length
  | c :: a, [] => (c :: a).length
  | c :: a, d :: b =>
    min (levenshtein a b + if c = d then 0 else 1)
      (min (levenshtein a (d :: b) + 1) (levenshtein (c :: a) b + 1))
termination_by a b => a.length + b.length

@[simp] theorem levenshtein_nil_left (b : Text) : levenshtein [] b = b.length := by
  rw [levenshtein]

@[simp] theorem levenshtein_nil_right (a : Text) : levenshtein a [] = a.length := by
  cases a <;> rw [levenshtein]

theorem levenshtein_cons_cons (c d : Char) (a b : Text) :
    levenshtein (c :: a) (d :: b) = min (levenshtein a b + if c = d then 0 else 1)
      (min (levenshtein a (d :: b) + 1) (levenshtein (c :: a) b + 1)) := by
  rw [levenshtein]

/-- A text has no distance from itself. -/
@[simp] theorem levenshtein_self (a : Text) : levenshtein a a = 0 := by
  induction a with
  | nil => rw [levenshtein_nil_left, List.length_nil]
  | cons c a ih => simp [levenshtein_cons_cons, ih]

/-- Edits that lead from text to text, as many as the distance says. -/
theorem edited_levenshtein (a b : Text) : Edited (levenshtein a b) a b := by
  fun_induction levenshtein a b with
  | case1 b =>
    induction b with
    | nil => exact .done []
    | cons d b ih => exact .edit (.insert d []) (ih.later d)
  | case2 c a =>
    induction a generalizing c with
    | nil => exact .edit (.delete c []) (.done [])
    | cons d a ih => exact .edit (.delete c (d :: a)) (ih d)
  | case3 c a d b ihboth ihleft ihright =>
    -- One way to begin for each of the numbers that the least one is chosen from.
    have hdelete := Edited.edit (.delete c a) ihleft
    have hinsert := Edited.edit (.insert d (c :: a)) (ihright.later d)
    refine Edited.min ?_ (hdelete.min hinsert)
    split_ifs with hcd
    · rw [← hcd]
      exact ihboth.later c
    · exact .edit (.substitute c d a) (ihboth.later d)

/-! ### No fewer edits -/

/-- A character more is one edit more at most. -/
theorem levenshtein_cons_left_le (c : Char) (a b : Text) :
    levenshtein (c :: a) b ≤ levenshtein a b + 1 := by
  cases b with
  | nil => simp
  | cons d b =>
    rw [levenshtein_cons_cons]
    omega

theorem levenshtein_cons_right_le (d : Char) (a b : Text) :
    levenshtein a (d :: b) ≤ levenshtein a b + 1 := by
  cases a with
  | nil => simp
  | cons c a =>
    rw [levenshtein_cons_cons]
    omega

/-- A character less is one edit more at most. -/
theorem levenshtein_le_cons_left (c : Char) (a b : Text) :
    levenshtein a b ≤ levenshtein (c :: a) b + 1 := by
  induction b with
  | nil =>
    simp only [levenshtein_nil_right, List.length_cons]
    omega
  | cons d b ih =>
    have hright := levenshtein_cons_right_le d a b
    rw [levenshtein_cons_cons]
    split_ifs <;> omega

/-- Texts that begin differently are no farther away than what follows, and what the first
    characters add to it. -/
theorem levenshtein_cons_le {a a' : Text} {c c' : Char}
    (h : ∀ b, levenshtein a b + (if c = c' then 0 else 1) ≤ levenshtein a' b + n) (b : Text) :
    levenshtein (c :: a) b ≤ levenshtein (c' :: a') b + n := by
  induction b with
  | nil =>
    have hnil := h []
    simp only [levenshtein_nil_right, List.length_cons] at hnil ⊢
    omega
  | cons d b ih =>
    have hboth := h b
    have hleft := h (d :: b)
    -- What the first characters cost is no more by way of a third one.
    have hfirst : (if c = d then 0 else 1)
        ≤ (if c = c' then 0 else 1) + if c' = d then 0 else 1 := by
      grind
    rw [levenshtein_cons_cons, levenshtein_cons_cons]
    omega

/-- One edit brings a text nearer to another by one at most. -/
theorem levenshtein_le_of_edit {a a' : Text} (h : Edit a a') (b : Text) :
    levenshtein a b ≤ levenshtein a' b + 1 := by
  induction h generalizing b with
  | insert c a => exact levenshtein_le_cons_left c a b
  | delete c a => exact levenshtein_cons_left_le c a b
  | substitute c d a =>
    apply levenshtein_cons_le
    intro b
    split_ifs <;> omega
  | later c _ ih =>
    apply levenshtein_cons_le
    intro b
    rw [if_pos rfl]
    exact ih b

theorem Edited.levenshtein_le (h : Edited n a b) : levenshtein a b ≤ n := by
  induction h with
  | done a => rw [levenshtein_self]
  | edit hedit _ ih => exact (levenshtein_le_of_edit hedit _).trans (Nat.succ_le_succ ih)

/-- **The edit distance** is the least number of edits that lead from one text to the other. -/
theorem isLeast_levenshtein (a b : Text) : IsLeast {n | Edited n a b} (levenshtein a b) :=
  ⟨edited_levenshtein a b, fun _ h => h.levenshtein_le⟩

end Lexicon
