import Lexicon.Dictionary
import Lexicon.Proofs.Bloom.Folded
import Lexicon.Proofs.Ternary.Tree
import Lexicon.Proofs.WordList.Search

namespace Lexicon

/-!
# What a dictionary answers

A dictionary answers a query after any others, which may have moved the cursor of its file.

* `Dictionary.Answers` — every answer to a query is one that is allowed.
* `Knows`, `Covers` — the answers of a set of words, and those that miss no word of it.
* `Dictionary.answers_of_holds` — a list of ascending words answers by them.
* `Dictionary.answers_tree`, `Dictionary.answers_filter` — so do trees, and filters miss no word.
-/

/-- The answer whether some word equals the query. -/
def Knows (order : WordOrder) (words : List Word) (query : Word) (known : Bool) : Prop :=
  known = true ↔ ∃ word ∈ words, order.compare word query = .eq

/-- An answer that takes no word for an unknown one. -/
def Covers (order : WordOrder) (words : List Word) (query : Word) (known : Bool) : Prop :=
  (∃ word ∈ words, order.compare word query = .eq) → known = true

theorem Knows.perm {order : WordOrder} {words words' : List Word} {query : Word} {known : Bool}
    (h : Knows order words query known) (hperm : words.Perm words') :
    Knows order words' query known := by
  refine h.trans (exists_congr fun word => ?_)
  rw [hperm.mem_iff]

/-- A search in a list of ascending words tells whether the query is among them. -/
theorem isIn_of_holds {L : Type} [WordList L] {list : L} {order : WordOrder} {words : List Word}
    (h : WordList.Holds list order words) (hsorted : order.Ascends words) (query : Word) :
    ∃ known, (isIn list query).1 = .ok known ∧ Knows order words query known ∧
      WordList.Holds (isIn list query).2 order words := by
  obtain ⟨found, after, hsearch, hfound, hafter⟩ := h.binarySearch hsorted query
  refine ⟨found.isSome, ?_, hfound.isSome_iff, ?_⟩
  · simp only [isIn, positionIn, hsearch]
    rfl
  · simp only [isIn, positionIn, hsearch]
    exact hafter

namespace Dictionary

/-- The dictionary after some searches. -/
def afterSearches (dictionary : Dictionary) (earlier : List Word) : Dictionary :=
  earlier.foldl (fun dictionary query => (dictionary.search query).2) dictionary

/-- Every search, after any others, gives an answer that is allowed. -/
def Answers (dictionary : Dictionary) (allowed : Word → Bool → Prop) : Prop :=
  ∀ earlier query, ∃ known,
    ((dictionary.afterSearches earlier).search query).1 = .ok known ∧ allowed query known

/-- Words in another order are known alike. -/
theorem Answers.perm {dictionary : Dictionary} {order : WordOrder} {words words' : List Word}
    (h : dictionary.Answers (Knows order words)) (hperm : words.Perm words') :
    dictionary.Answers (Knows order words') := by
  intro earlier query
  obtain ⟨known, hanswer, hknows⟩ := h earlier query
  exact ⟨known, hanswer, hknows.perm hperm⟩

/-- What every search keeps, and under which the answers are allowed, makes all of them so. -/
theorem answers_of_invariant {dictionary : Dictionary} {allowed : Word → Bool → Prop}
    (Inv : Dictionary → Prop) (h : Inv dictionary)
    (hsearch : ∀ d, Inv d → ∀ query,
      (∃ known, (d.search query).1 = .ok known ∧ allowed query known) ∧ Inv (d.search query).2) :
    dictionary.Answers allowed := by
  -- By induction on the earlier searches, each of which keeps the invariant.
  have hafter : ∀ earlier d, Inv d → Inv (d.afterSearches earlier) := by
    intro earlier
    induction earlier with
    | nil => exact fun d hd => hd
    | cons query earlier ih => exact fun d hd => ih _ (hsearch d hd query).2
  exact fun earlier query => (hsearch _ (hafter earlier dictionary h) query).1

/-- A dictionary of a list of ascending words knows these. -/
theorem answers_of_holds {L : Type} [WordList L] (wrap : L → Dictionary)
    (hwrap : ∀ list query, (wrap list).search query
      = ((isIn list query).1, wrap (isIn list query).2))
    {list : L} {order : WordOrder} {words : List Word} (h : WordList.Holds list order words)
    (hsorted : order.Ascends words) : (wrap list).Answers (Knows order words) := by
  refine answers_of_invariant (fun d => ∃ l, d = wrap l ∧ WordList.Holds l order words)
    ⟨list, rfl, h⟩ ?_
  rintro _ ⟨l, rfl, hl⟩ query
  obtain ⟨known, hknown, hknows, hafter⟩ := isIn_of_holds hl hsorted query
  rw [hwrap]
  exact ⟨⟨known, hknown, hknows⟩, ⟨_, rfl, hafter⟩⟩

/-- A search tree knows the words that were added. -/
theorem answers_tree (order : WordOrder) (words : List Word) :
    (tree (Ternary.Tree.ofWords order words)).Answers (Knows order words) := by
  refine answers_of_invariant (· = tree (Ternary.Tree.ofWords order words)) rfl ?_
  rintro _ rfl query
  exact ⟨⟨_, rfl, Ternary.Tree.contains_ofWords_iff order words query⟩, rfl⟩

/-- A filter that finds some words misses none of them at any time. -/
theorem answers_filter {folded : Bloom.FoldedFilter} {order : WordOrder} {words : List Word}
    (h : ∀ query, (∃ word ∈ words, order.compare word query = .eq) → folded.search query = true) :
    (filter folded).Answers (Covers order words) := by
  refine answers_of_invariant (· = filter folded) rfl ?_
  rintro _ rfl query
  exact ⟨⟨_, rfl, h query⟩, rfl⟩

end Dictionary

end Lexicon
