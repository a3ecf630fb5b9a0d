import Lexicon.Proofs.Reading.Runs
import Lexicon.Proofs.Success

namespace Lexicon

/-!
# Steps of a reader

A reader takes the runs of its source off one by one.

* `Reader.runs` — the runs that a reader has yet to find.
* `Reader.next_of_runs_cons`, `Reader.skip_spec` — reading and passing over.
* `decodeRuns`, `leading` — the words that some runs encode, with their offsets, and those in
  front of the first malformed run.
* `Reader.exists_foldWords_eq` — what feeding all words comes to, also when it fails.
* `Reader.foldWords_eq_ok_iff` — feeding all words succeeds exactly if every run decodes and
  no step fails.
* `Source.words_eq_ok_iff` — the words of a source are those of its runs.
-/

namespace Reader

/-- The runs that a reader has yet to find. -/
def runs (reader : Reader) : List (Nat × Bytes) :=
  runsFrom reader.position reader.source.bytes

/-! ### Lines -/

/-- A reader without another line has no run left. -/
theorem runs_of_nextLine?_none {reader after : Reader} (h : reader.nextLine? = (none, after)) :
    reader.runs = [] ∧ after.runs = [] := by
  fun_induction nextLine? reader with
  | case1 reader hline =>
    have hbytes := Source.bytes_of_line?_eq_none hline
    obtain ⟨-, rfl⟩ := Prod.mk.inj h
    simp [runs, hbytes]
  | case2 reader line hline htaken next hblank ih =>
    obtain ⟨hruns, hafter⟩ := ih h
    obtain ⟨ending, hbegins⟩ := Source.begins_of_line? hline
    refine ⟨?_, hafter⟩
    rw [runs, hbegins.runsFrom_eq, Line.run?, if_pos hblank, List.nil_append]
    exact hruns
  | case3 => simp at h

/-- The line that a reader finds is its first run. -/
theorem runs_of_nextLine?_some {reader after : Reader} {found : Nat × Bytes}
    (h : reader.nextLine? = (some found, after)) : reader.runs = found :: after.runs := by
  fun_induction nextLine? reader with
  | case1 => simp at h
  | case2 reader line hline htaken next hblank ih =>
    obtain ⟨ending, hbegins⟩ := Source.begins_of_line? hline
    rw [runs, hbegins.runsFrom_eq, Line.run?, if_pos hblank, List.nil_append]
    exact ih h
  | case3 reader line hline htaken next hblank =>
    obtain ⟨ending, hbegins⟩ := Source.begins_of_line? hline
    obtain ⟨hfound, rfl⟩ := Prod.mk.inj h
    obtain rfl := Option.some.inj hfound
    rw [runs, hbegins.runsFrom_eq, Line.run?, if_neg hblank, List.singleton_append]
    rfl

theorem nextLine?_of_runs_nil {reader : Reader} (h : reader.runs = []) :
    ∃ after, reader.nextLine? = (none, after) ∧ after.runs = [] := by
  cases hline : reader.nextLine? with
  | mk found after =>
    cases found with
    | none => exact ⟨after, rfl, (runs_of_nextLine?_none hline).2⟩
    | some run => simp [runs_of_nextLine?_some hline] at h

theorem nextLine?_of_runs_cons {reader : Reader} {run : Nat × Bytes} {later : List (Nat × Bytes)}
    (h : reader.runs = run :: later) :
    ∃ after, reader.nextLine? = (some run, after) ∧ after.runs = later := by
  cases hline : reader.nextLine? with
  | mk found after =>
    cases found with
    | none => simp [(runs_of_nextLine?_none hline).1] at h
    | some run' =>
      obtain ⟨rfl, hlater⟩ := List.cons.inj ((runs_of_nextLine?_some hline).symm.trans h)
      exact ⟨after, rfl, hlater⟩

/-! ### Words -/

theorem next_of_runs_nil {reader : Reader} (h : reader.runs = []) :
    ∃ after, reader.next = (.ok none, after) ∧ after.runs = [] := by
  obtain ⟨after, hline, hafter⟩ := nextLine?_of_runs_nil h
  refine ⟨after, ?_, hafter⟩
  rw [next, hline]

/-- Reading takes the first run off and decodes it. -/
theorem next_of_runs_cons {reader : Reader} {offset : Nat} {text : Bytes}
    {later : List (Nat × Bytes)} (h : reader.runs = (offset, text) :: later) :
    ∃ after, after.runs = later ∧
      reader.next =
        (match Utf8.decode? text with
          | some word => .ok (some (offset, word))
          | none => .error (.badEncoding after.line), after) := by
  obtain ⟨after, hline, hafter⟩ := nextLine?_of_runs_cons h
  refine ⟨after, hafter, ?_⟩
  rw [next, hline]
  dsimp only
  cases Utf8.decode? text <;> rfl

/-- Passing over takes runs off undecoded, as many as there are. -/
theorem skip_spec (count : Nat) (reader : Reader) :
    (skip count reader).1 = min count reader.runs.length ∧
      (skip count reader).2.runs = reader.runs.drop count := by
  induction count generalizing reader with
  | zero => simp [skip]
  | succ count ih =>
    rw [skip]
    split
    · next after hline =>
      obtain ⟨hruns, hafter⟩ := runs_of_nextLine?_none hline
      simp [hruns, hafter]
    · next found after hline =>
      obtain ⟨hskipped, hlast⟩ := ih after
      rw [runs_of_nextLine?_some hline]
      refine ⟨?_, hlast⟩
      simp only [hskipped, List.length_cons]
      omega

end Reader

/-! ### Decoding -/

/-- The words that runs encode, with their offsets, if all of them are well formed. -/
def decodeRuns : List (Nat × Bytes) → Option (List (Nat × Word))
  | [] => some []
  | (offset, text) :: later =>
    match Utf8.decode? text, decodeRuns later with
    | some word, some found => some ((offset, word) :: found)
    | _, _ => none

theorem decodeRuns_cons_eq_some {offset : Nat} {text : Bytes} {later : List (Nat × Bytes)}
    {found : List (Nat × Word)} (h : decodeRuns ((offset, text) :: later) = some found) :
    ∃ word rest, Utf8.decode? text = some word ∧ decodeRuns later = some rest ∧
      found = (offset, word) :: rest := by
  rw [decodeRuns] at h
  split at h
  · next word rest hword hrest => exact ⟨word, rest, hword, hrest, (Option.some.inj h).symm⟩
  · simp at h

/-- Decoding keeps the offsets. -/
theorem map_fst_of_decodeRuns {runs : List (Nat × Bytes)} {found : List (Nat × Word)}
    (h : decodeRuns runs = some found) : found.map Prod.fst = runs.map Prod.fst := by
  induction runs generalizing found with
  | nil =>
    obtain rfl := Option.some.inj h
    rfl
  | cons run later ih =>
    obtain ⟨word, rest, -, hrest, rfl⟩ := decodeRuns_cons_eq_some h
    rw [List.map_cons, List.map_cons, ih hrest]

theorem length_of_decodeRuns {runs : List (Nat × Bytes)} {found : List (Nat × Word)}
    (h : decodeRuns runs = some found) : found.length = runs.length := by
  have := congrArg List.length (map_fst_of_decodeRuns h)
  simpa using this

/-- What some runs encode, the later ones of them encode the later part of. -/
theorem decodeRuns_drop {runs : List (Nat × Bytes)} {found : List (Nat × Word)}
    (h : decodeRuns runs = some found) (k : Nat) :
    decodeRuns (runs.drop k) = some (found.drop k) := by
  induction runs generalizing found k with
  | nil =>
    obtain rfl := Option.some.inj h
    simp [decodeRuns]
  | cons run later ih =>
    cases k with
    | zero => exact h
    | succ k =>
      obtain ⟨word, rest, -, hrest, rfl⟩ := decodeRuns_cons_eq_some h
      exact ih hrest k

/-- The words that runs encode up to the first that is malformed, with their offsets. -/
def leading : List (Nat × Bytes) → List (Nat × Word)
  | [] => []
  | (offset, text) :: later =>
    match Utf8.decode? text with
    | some word => (offset, word) :: leading later
    | none => []

/-- If no run is malformed, these are all words. -/
theorem leading_of_decodeRuns {runs : List (Nat × Bytes)} {found : List (Nat × Word)}
    (h : decodeRuns runs = some found) : leading runs = found := by
  induction runs generalizing found with
  | nil => exact Option.some.inj h
  | cons run later ih =>
    obtain ⟨word, rest, hword, hrest, rfl⟩ := decodeRuns_cons_eq_some h
    rw [leading, hword, ← ih hrest]

theorem isSome_decodeRuns_cons (offset : Nat) (text : Bytes) (later : List (Nat × Bytes)) :
    (decodeRuns ((offset, text) :: later)).isSome
      = ((Utf8.decode? text).isSome && (decodeRuns later).isSome) := by
  rw [decodeRuns]
  cases Utf8.decode? text <;> cases decodeRuns later <;> rfl

/-! ### All words -/

/-- Feeding all words, unfolded once. -/
theorem Reader.foldWords_eq {β : Type} (step : β → Nat × Word → Except ListError β)
    (reader : Reader) (acc : β) :
    reader.foldWords step acc =
      match reader.next with
      | (.error e, _) => .error e
      | (.ok none, _) => .ok acc
      | (.ok (some found), after) => step acc found >>= after.foldWords step := by
  rw [foldWords]
  split
  · next hnext => rw [hnext]
  · next hnext => rw [hnext]
  · next found after hnext =>
    simp only [hnext]
    cases step acc found <;> rfl

/-- **Feeding all words.** The words up to the first run that is malformed are fed one by one; if
    no step fails, that run does, at some line that does not depend on what is fed to. -/
theorem Reader.exists_foldWords_eq (reader : Reader) :
    ∃ line, ∀ {β : Type} (step : β → Nat × Word → Except ListError β) (acc : β),
      reader.foldWords step acc = (leading reader.runs).foldlM step acc >>= fun result =>
        if (decodeRuns reader.runs).isSome then .ok result else .error (.badEncoding line) := by
  -- Every step takes exactly one run off, so the induction is on the runs that are left.
  generalize hruns : reader.runs = runs
  induction runs generalizing reader with
  | nil =>
    refine ⟨0, fun step acc => ?_⟩
    obtain ⟨after, hnext, -⟩ := next_of_runs_nil hruns
    rw [foldWords_eq, hnext]
    rfl
  | cons run later ih =>
    obtain ⟨offset, text⟩ := run
    obtain ⟨after, hafter, hnext⟩ := next_of_runs_cons hruns
    cases hword : Utf8.decode? text with
    | none =>
      -- Nothing is fed from the first malformed run on, which is where the line is told from.
      refine ⟨after.line, fun step acc => ?_⟩
      rw [foldWords_eq, hnext, leading, decodeRuns, hword]
      rfl
    | some word =>
      obtain ⟨line, hlater⟩ := ih after hafter
      refine ⟨line, fun step acc => ?_⟩
      rw [foldWords_eq, hnext, leading, isSome_decodeRuns_cons, hword]
      dsimp only
      rw [List.foldlM_cons, bind_assoc]
      exact bind_congr fun acc' => hlater step acc'

/-- Feeding all words succeeds exactly if all runs decode and no step fails. -/
theorem Reader.foldWords_eq_ok_iff {β : Type} (step : β → Nat × Word → Except ListError β)
    (reader : Reader) (acc result : β) :
    reader.foldWords step acc = .ok result ↔
      ∃ found, decodeRuns reader.runs = some found ∧ found.foldlM step acc = .ok result := by
  obtain ⟨line, hfold⟩ := reader.exists_foldWords_eq
  rw [hfold, bind_eq_ok_iff]
  cases hfound : decodeRuns reader.runs with
  | none => simp
  | some found => simp [leading_of_decodeRuns hfound]

/-- Gathering words in front of others. -/
theorem foldlM_gather (found : List (Nat × Word)) (words : List Word) :
    found.foldlM (fun words (_, word) => Except.ok (ε := ListError) (word :: words)) words
      = .ok ((found.map Prod.snd).reverse ++ words) := by
  induction found generalizing words with
  | nil => rfl
  | cons head found ih =>
    rw [List.foldlM_cons]
    show found.foldlM _ (head.2 :: words) = _
    rw [ih, List.map_cons, List.reverse_cons, List.append_assoc, List.singleton_append]

/-- The words of a source are those that its runs encode. -/
theorem Source.words_eq_ok_iff (source : Source) (words : List Word) :
    source.words = .ok words ↔
      ∃ found, decodeRuns (runsFrom 0 source.bytes) = some found ∧
        words = found.map Prod.snd := by
  -- The words are gathered in front of each other, and turned round in the end.
  have hgathered := Reader.foldWords_eq_ok_iff
    (fun words (_, word) => Except.ok (word :: words)) (Reader.start source) []
  simp only [foldlM_gather, List.append_nil, Except.ok.injEq] at hgathered
  unfold Source.words
  constructor
  · intro h
    obtain ⟨reversed, hfold, rfl⟩ := map_eq_ok_iff.mp h
    obtain ⟨found, hfound, rfl⟩ := (hgathered reversed).mp hfold
    exact ⟨found, hfound, List.reverse_reverse _⟩
  · rintro ⟨found, hfound, rfl⟩
    rw [(hgathered _).mpr ⟨found, hfound, rfl⟩]
    exact congrArg Except.ok (List.reverse_reverse _)

end Lexicon
