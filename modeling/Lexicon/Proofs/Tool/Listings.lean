import Lexicon.Proofs.Options.ForTree
import Lexicon.Proofs.Order.Agreement
import Lexicon.Proofs.Tool.Runs

namespace Lexicon

/-!
# Runs that list words

* `Job.block`, `Job.listAll_eq` — the lines that list the words for a query, and for all of them.
* `QueryKind.Lists`, `IsListing` — the words to be listed for a query, and how they are listed.
* `Job.exists_answers` — a tree that tells cases apart answers all queries.
* `Tool.lists_words` — the tools that list words list those of the file, in order and once each.
-/

namespace Job

/-! ### Lines -/

/-- Lines that list the words for a query. -/
def block (query : Text) (listed : List Word) : List Text :=
  if listed = [] then [query ++ ": (no matches)".toList]
  else (query ++ ":".toList) :: listed.map ("  ".toList ++ ·)

theorem foundLines_eq (query : Text) (listed : List Word) :
    foundLines query listed = ended (block query listed) := by
  unfold foundLines block
  simp only [List.isEmpty_iff]
  split_ifs with hnone
  · rw [ended_cons, ended_nil, List.append_nil, List.append_assoc]
    rfl
  · rw [ended_cons, ended, List.flatMap_map, List.append_assoc, List.append_assoc query,
      List.append_assoc query]
    rfl

/-- A search that never fails has a block of lines for each query. -/
theorem listAll_eq {search : Text → Except DictionaryError (List Word)} {listed : Text → List Word}
    (h : ∀ query, search query = .ok (listed query)) (queries : List Text) :
    listAll search queries
      = .ok (ended (queries.flatMap fun query => block query (listed query))) := by
  induction queries with
  | nil => rfl
  | cons query queries ih =>
    simp only [listAll, h query, ih]
    rw [List.flatMap_cons, ended_append, foundLines_eq]
    rfl

end Job

/-! ### Words -/

/-- The words to be listed for a query: those that match it, or those near it. -/
def QueryKind.Lists : QueryKind → (query word : Word) → Prop
  | .lookUp, _, _ => False
  | .listMatches, query, word => Ternary.admits query word = true
  | .listNear distance, query, word => Ternary.mismatches word query ≤ distance

instance QueryKind.decidableLists (query word : Word) :
    (kind : QueryKind) → Decidable (kind.Lists query word)
  | .lookUp => isFalse id
  | .listMatches => inferInstanceAs (Decidable (Ternary.admits query word = true))
  | .listNear distance => inferInstanceAs (Decidable (Ternary.mismatches word query ≤ distance))

/-- The words with a property, once each and in the order of the code points. -/
structure IsListing (listed : List Word) (P : Word → Prop) : Prop where
  /-- Each word comes behind all those in front of it. -/
  ascends : listed.Pairwise (· < ·)
  /-- These are the words with the property. -/
  mem_iff : ∀ word, word ∈ listed ↔ P word

/-- There is only one way to list words. -/
theorem IsListing.unique {listed listed' : List Word} {P : Word → Prop} (h : IsListing listed P)
    (h' : IsListing listed' P) : listed = listed' := by
  -- Both lists hold the same words in ascending order.
  refine WordOrder.eq_of_mem_iff (h.ascends.imp ?_) (h'.ascends.imp ?_) fun word =>
    (h.mem_iff word).trans (h'.mem_iff word).symm
  · exact (WordOrder.compare_exact_lt_iff _ _).mpr
  · exact (WordOrder.compare_exact_lt_iff _ _).mpr

/-- The words of a tree that pass a test are listed in order. -/
theorem Ternary.Tree.isListing_filter {added words : List Word} (hperm : added.Perm words)
    {p : Word → Bool} {P : Word → Prop} (h : ∀ word, p word = true ↔ P word) :
    IsListing ((ofWords .exact added).words.filter p) fun word => word ∈ words ∧ P word := by
  obtain ⟨hascends, hmem⟩ := words_ofWords_exact added
  refine ⟨hascends.filter p, fun word => ?_⟩
  rw [List.mem_filter, hmem, hperm.mem_iff, h]

/-! ### Answers -/

/-- A tree that tells cases apart answers all queries by the words of its file. -/
theorem Job.exists_answers {job : Job} {found : Except FileError Entry} {tree : Ternary.Tree}
    (hkind : job.kind ≠ .lookUp) (horder : job.options.order = .exact)
    (htree : job.options.treeOf found = .ok tree) :
    ∃ (contents : Bytes) (words : List Word) (listed : Text → List Word),
      found = .ok (.file contents) ∧ Source.words [contents] = .ok words ∧
      (∀ query, IsListing (listed query) fun word => word ∈ words ∧ job.kind.Lists query word) ∧
      ∀ hasher queries, job.answers hasher found queries
        = .ok (.ok (ended (queries.flatMap fun query => block query (listed query)))) := by
  obtain ⟨contents, words, visited, hfound, hwords, hvisited, rfl⟩ :=
    Options.exists_of_treeOf htree
  -- Where cases are told apart, a tree lists the words that pass the test of the search.
  rw [horder] at htree
  obtain ⟨kind, options, operands⟩ := job
  cases kind with
  | lookUp => exact absurd rfl hkind
  | listMatches =>
    refine ⟨contents, words, _, hfound, hwords,
      fun query => Ternary.Tree.isListing_filter hvisited fun word => Iff.rfl, ?_⟩
    intro hasher queries
    refine map_eq_ok_iff.mpr ⟨_, htree, ?_⟩
    exact listAll_eq (Ternary.Tree.matching_eq_filter visited) queries
  | listNear distance =>
    refine ⟨contents, words, _, hfound, hwords, fun query =>
      Ternary.Tree.isListing_filter (P := (Ternary.mismatches · query ≤ distance)) hvisited
        fun word => decide_eq_true_iff, ?_⟩
    intro hasher queries
    refine map_eq_ok_iff.mpr ⟨_, htree, ?_⟩
    exact listAll_eq (fun query => Ternary.Tree.near_eq_filter visited query distance) queries

/-- Jobs of tools that search a tree list words of one that tells cases apart. -/
theorem Job.Described.lists {environment : Option Text} {args : List Text} {tool : Tool} {job : Job}
    (h : Described environment args tool job) (htool : tool ≠ .search) :
    job.kind ≠ .lookUp ∧ job.options.order = .exact := by
  cases h with
  | search => exact absurd rfl htool
  | matching hparsed => exact ⟨nofun, Options.order_of_parseForTree hparsed⟩
  | near hparsed => exact ⟨nofun, Options.order_of_parseForTree hparsed⟩

/-- **Listings of a run.** Where the word list can be loaded, the run exits with zero and lists for
    each query that it is given, in order, the words of the file that match it or are near it, each
    of them once and in the order of the code points.  No search fails.  Input that is not UTF-8 is
    told of once, and takes away none of the answers in front of it. -/
theorem Tool.lists_words {tool : Tool} {args : List Text} {environment : Option Text} {job : Job}
    {find : Text → Except FileError Entry} {contents : Bytes} (hasher : Bloom.Hasher)
    (input : Bytes) (htool : tool ≠ .search) (hhelp : asksForHelp args = false)
    (hjob : Job.ofArguments tool environment args = .ok job)
    (hfile : find job.options.path = .ok (.file contents))
    (hloads : (job.options.treeOf (find job.options.path)).isOk = true) :
    Job.Described environment args tool job ∧
      Queries.Given job.operands input (Queries.asked job.operands input) ∧
      ∃ (words : List Word) (listed : Text → List Word), Source.words [contents] = .ok words ∧
        (∀ query, IsListing (listed query) fun word => word ∈ words ∧ job.kind.Lists query word) ∧
        (∃ lines, job.answers hasher (find job.options.path)
          (Queries.asked job.operands input).texts = .ok (.ok lines)) ∧
        tool.run hasher args environment find input
          = .answered (Queries.asked job.operands input)
              ((Queries.asked job.operands input).texts.flatMap fun query =>
                Job.block query (listed query)) := by
  have hdescribed := Job.ofArguments_eq_ok_iff.mp hjob
  obtain ⟨hkind, horder⟩ := hdescribed.lists htool
  obtain ⟨tree, htree⟩ := exists_eq_ok hloads
  obtain ⟨contents', words, listed, hfound, hwords, hlisted, hanswers⟩ :=
    Job.exists_answers hkind horder htree
  -- The file that was loaded is the one that the path leads to.
  obtain rfl : contents = contents' := Entry.file.inj (Except.ok.inj (hfile.symm.trans hfound))
  have hlines := hanswers hasher (Queries.asked job.operands input).texts
  exact ⟨hdescribed, Queries.given_asked job.operands input, words, listed, hwords, hlisted,
    ⟨_, hlines⟩, run_of_answers hhelp hjob hlines⟩

/-- A distance among the other options. -/
def nearArgs : List Text :=
  ["ab".toList, "-n".toList, "1".toList, "--median".toList, "-d".toList, "w".toList]

/-- The lines "ab", again "ab", "ac" and "b". -/
def repeatedLine : Bytes := [0x61, 0x62, 0x0A, 0x61, 0x62, 0x0A, 0x61, 0x63, 0x0A, 0x62, 0x0A]

/-- A word that stands in the file twice is listed once. -/
theorem Tool.lists_words_of_repeated_line :
    Tool.near.run .ofBytes nearArgs none (onlyFile repeatedLine) []
      = ⟨0, "ab:\n  ab\n  ac\n".toList, []⟩ := by
  have hjob : Job.ofArguments .near none nearArgs
      = .ok ⟨.listNear 1, ⟨"w".toList, .file, true, 5, true⟩, ["ab".toList]⟩ := by
    with_unfolding_all rfl
  have hfile : onlyFile repeatedLine "w".toList = .ok (.file repeatedLine) := rfl
  have hrepeated : Source.words [repeatedLine]
      = .ok ["ab".toList, "ab".toList, "ac".toList, "b".toList] := by
    with_unfolding_all rfl
  obtain ⟨-, -, words, listed, hwords, hlisted, -, hrun⟩ :=
    lists_words .ofBytes [] (by simp) rfl hjob hfile (by decide +kernel)
  obtain rfl := Except.ok.inj (hwords.symm.trans hrepeated)
  have hnear : listed "ab".toList = ["ab".toList, "ac".toList] := by
    have hforth : ∀ word ∈ ["ab".toList, "ac".toList],
        word ∈ ["ab".toList, "ab".toList, "ac".toList, "b".toList] ∧
          (QueryKind.listNear 1).Lists "ab".toList word := by decide
    have hback : ∀ word ∈ ["ab".toList, "ab".toList, "ac".toList, "b".toList],
        (QueryKind.listNear 1).Lists "ab".toList word →
          word ∈ ["ab".toList, "ac".toList] := by decide
    exact (hlisted _).unique
      ⟨by decide, fun word => ⟨hforth word, fun h => hback word h.1 h.2⟩⟩
  have hasked : Queries.asked ["ab".toList] [] = ⟨["ab".toList], false⟩ := rfl
  rw [hrun, hasked]
  simp only [List.flatMap_singleton, hnear]
  rfl

end Lexicon
