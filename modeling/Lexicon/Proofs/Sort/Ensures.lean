import Lexicon.Sort.Basic

namespace Lexicon

/-!
# What a computation with a state ensures

A sorter runs in the state of the comparison that it asks.  What holds of its result in every
state holds whatever the comparison answers.

* `Ensures` — a property of the result of a computation, in every state.
* `Ensures.bind` — a computation of two steps.
* `Agrees` — a comparison whose answers are those of an order, in every state.
-/

variable {σ α β : Type}

/-- Whatever the state is, the result has the property. -/
def Ensures (x : StateM σ α) (P : α → Prop) : Prop :=
  ∀ s, P (x s).1

namespace Ensures

variable {x : StateM σ α} {P Q : α → Prop}

theorem pure {a : α} (h : P a) : Ensures (Pure.pure a : StateM σ α) P :=
  fun _ => h

/-- The second step may rely on what the first one ensures. -/
theorem bind {f : α → StateM σ β} {R : β → Prop} (hx : Ensures x P)
    (hf : ∀ a, P a → Ensures (f a) R) : Ensures (x >>= f) R :=
  fun s => hf _ (hx s) (x s).2

theorem mono (hx : Ensures x P) (h : ∀ a, P a → Q a) : Ensures x Q :=
  fun s => h _ (hx s)

theorem and (hx : Ensures x P) (hx' : Ensures x Q) : Ensures x fun a => P a ∧ Q a :=
  fun s => ⟨hx s, hx' s⟩

theorem trivial : Ensures x fun _ => True :=
  fun _ => True.intro

end Ensures

/-- Whatever its state is, the comparison answers as the order does. -/
def Agrees (ask : Comparison σ α) (compare : α → α → Ordering) : Prop :=
  ∀ a b, Ensures (ask a b) (· = compare a b)

theorem agrees_ofOrder (compare : α → α → Ordering) :
    Agrees (Comparison.ofOrder compare) compare :=
  fun _ _ => Ensures.pure rfl

end Lexicon
