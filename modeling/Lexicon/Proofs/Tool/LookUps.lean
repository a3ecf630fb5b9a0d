import Lexicon.Proofs.Dictionary.Loaded
import Lexicon.Proofs.Tool.Runs

namespace Lexicon

/-!
# Runs that look words up

* `Job.verdict` — the line that tells whether a word is known.
* `Job.exists_lookUpAll` — a dictionary that answers has a line for each query.
* `Tool.search_tells_words` — the tool that looks words up tells which of the queries are words of
  the file.
-/

/-- What is still allowed after a search was allowed before it. -/
theorem Dictionary.Answers.after {dictionary : Dictionary} {allowed : Word → Bool → Prop}
    (h : dictionary.Answers allowed) (query : Word) :
    ((dictionary.search query).2).Answers allowed :=
  fun earlier => h (query :: earlier)

namespace Job

/-- Line that tells whether a word is known. -/
def verdict (word : Text) (known : Bool) : Text :=
  (if known then "Y: ".toList else "N: ".toList) ++ word

/-- A dictionary that answers has a line for each query, whatever it was asked before. -/
theorem exists_lookUpAll {dictionary : Dictionary} {allowed : Word → Bool → Prop}
    (h : dictionary.Answers allowed) (queries : List Text) :
    ∃ known, List.Forall₂ allowed queries known ∧
      lookUpAll dictionary queries = .ok (ended (List.zipWith verdict queries known)) := by
  induction queries generalizing dictionary with
  | nil => exact ⟨[], .nil, rfl⟩
  | cons query queries ih =>
    -- The first search may change the dictionary, but not what is allowed of its answers.
    obtain ⟨first, hsearch, hfirst⟩ := h [] query
    obtain ⟨known, hknown, hlines⟩ := ih (h.after query)
    refine ⟨first :: known, .cons hfirst hknown, ?_⟩
    have hpair : dictionary.search query = (.ok first, (dictionary.search query).2) :=
      Prod.ext hsearch rfl
    rw [lookUpAll, hpair, List.zipWith_cons_cons, ended_cons]
    simp only [hlines]
    rfl

/-- Answers by some words say of each query whether it is among them. -/
theorem zipWith_verdict_eq {order : WordOrder} {words queries : List Word} {known : List Bool}
    (h : List.Forall₂ (Knows order words) queries known) :
    List.zipWith verdict queries known
      = queries.map fun query =>
          if ∃ word ∈ words, order.compare word query = .eq then "Y: ".toList ++ query
          else "N: ".toList ++ query := by
  induction h with
  | nil => rfl
  | @cons query first queries known hfirst hknown ih =>
    rw [List.zipWith_cons_cons, List.map_cons, ih]
    congr 1
    by_cases hword : ∃ word ∈ words, order.compare word query = .eq
    · rw [if_pos hword, verdict, hfirst.mpr hword, if_pos rfl]
    · rw [if_neg hword, verdict, if_neg (mt hfirst.mp hword)]

end Job

/-- **Look-ups of a run.** Where the word list can be loaded, the run exits with zero and tells of
    each query that it is given, in order, whether some word of the file equals it in the order that
    was chosen; a filter may take an unknown word for a known one.  No search fails.  Input that is
    not UTF-8 is told of once, and takes away none of the answers in front of it. -/
theorem Tool.search_tells_words {args : List Text} {environment : Option Text}
    {find : Text → Except FileError Entry} {contents : Bytes} {options : Options}
    {operands : List Text} (hasher : Bloom.Hasher) (input : Bytes)
    (hhelp : asksForHelp args = false)
    (hoptions : Options.parse environment args = .ok (options, operands))
    (hfile : find options.path = .ok (.file contents))
    (hloads : (options.dictionaryOf hasher (find options.path)).isOk = true) :
    Queries.Given operands input (Queries.asked operands input) ∧
      ∃ words, Source.words [contents] = .ok words ∧
        (∃ lines, (Job.mk .lookUp options operands).answers hasher (find options.path)
          (Queries.asked operands input).texts = .ok (.ok lines)) ∧
        (options.backend ≠ .bloom →
          Tool.search.run hasher args environment find input
            = .answered (Queries.asked operands input)
                ((Queries.asked operands input).texts.map fun query =>
                  if ∃ word ∈ words, options.order.compare word query = .eq then
                    "Y: ".toList ++ query
                  else "N: ".toList ++ query)) ∧
        (options.backend = .bloom →
          ∃ known,
            List.Forall₂ (Covers options.order words) (Queries.asked operands input).texts known ∧
            Tool.search.run hasher args environment find input
              = .answered (Queries.asked operands input)
                  (List.zipWith Job.verdict (Queries.asked operands input).texts known)) := by
  obtain ⟨dictionary, hdictionary⟩ := exists_eq_ok hloads
  have hloaded : options.dictionaryOf hasher (.ok (.file contents)) = .ok dictionary := by
    rw [← hfile, hdictionary]
  obtain ⟨words, hwords, hallowed⟩ := Options.answers_of_dictionaryOf hloaded
  -- All that is known of the dictionary is which answers are allowed, whatever it was asked.
  obtain ⟨known, hknown, hlines⟩ :=
    Job.exists_lookUpAll hallowed (Queries.asked operands input).texts
  have hanswers : (Job.mk .lookUp options operands).answers hasher (find options.path)
      (Queries.asked operands input).texts = .ok (.ok (ended
        (List.zipWith Job.verdict (Queries.asked operands input).texts known))) := by
    rw [← hlines]
    exact map_eq_ok_iff.mpr ⟨dictionary, hdictionary, rfl⟩
  have hrun := run_of_answers hhelp (Job.ofArguments_eq_ok_iff.mpr (.search hoptions)) hanswers
  refine ⟨Queries.given_asked operands input, words, hwords, ⟨_, hanswers⟩, ?_, ?_⟩
  · intro hbackend
    -- But for the filter, every backend has to know the words exactly.
    have hknows : options.backend.Allows options.order words = Knows options.order words := by
      cases hchosen : options.backend with
      | bloom => exact absurd hchosen hbackend
      | array | file | mmap | tree => rfl
    rw [hknows] at hknown
    rw [hrun, Job.zipWith_verdict_eq hknown]
  · intro hbackend
    rw [hbackend] at hknown
    exact ⟨known, hknown, hrun⟩

/-- Words to look up: a line with white space around its word, a blank one, and another one, in
    front of a line that is not UTF-8. -/
def typedLines : Bytes := [0x20, 0x62, 0x0D, 0x0A, 0x09, 0x0A, 0x63, 0x0A, 0xFF, 0x0A, 0x61]

/-- Of the words in some lines, one is in the file. -/
theorem Tool.search_tells_typed_lines :
    Tool.search.run .ofBytes ["-d".toList, "w".toList] none (onlyFile [0x61, 0x0A, 0x62]) typedLines
      = ⟨0, "Y: b\nN: c\n".toList, Job.brokenInput⟩ := by
  have hoptions : Options.parse none ["-d".toList, "w".toList]
      = .ok (⟨"w".toList, .file, true, 5, false⟩, []) := by
    with_unfolding_all rfl
  have hfile : onlyFile [0x61, 0x0A, 0x62] "w".toList = .ok (.file [0x61, 0x0A, 0x62]) := rfl
  have htwo : Source.words [[0x61, 0x0A, 0x62]] = .ok [['a'], ['b']] := by
    with_unfolding_all rfl
  obtain ⟨-, words, hwords, -, htells, -⟩ :=
    search_tells_words .ofBytes typedLines rfl hoptions hfile (by decide +kernel)
  obtain rfl := Except.ok.inj (hwords.symm.trans htwo)
  have hasked : Queries.asked [] typedLines = ⟨[['b'], ['c']], true⟩ := by
    with_unfolding_all rfl
  rw [htells (by simp), hasked]
  rfl

end Lexicon
