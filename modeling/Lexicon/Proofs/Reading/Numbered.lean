import Lexicon.Proofs.Reading.LineCount
import Lexicon.Proofs.Reading.Maximal
import Lexicon.Proofs.Reading.Pieces

namespace Lexicon

/-!
# Line numbers

A reader counts the lines that it takes, whether it reads words, passes over them or fails, and so
knows the number of any line that it cannot decode.

* `Reader.HasTaken` — a reader between two lines of a text, which has counted those in front.
* `Reader.HasTaken.exists_past`, `Reader.HasTaken.afterSteps` — every line that is taken leaves it
  so, and hence all steps do.
* `Run.First` — the first maximal run with a property; `find?_runsFrom_eq_some_iff` finds it.
* `Reader.HasTaken.next_eq_error_iff`, `Source.words_eq_error_iff` — when reading a word fails, when
  reading all of them does, and with which number.
* `Reader.errors_name_lines` — errors name the line that is at fault, after any steps.
-/

/-! ### Lines taken -/

/-- A reader of the text `bytes`, whose first byte stands at `start`, that has taken some whole
    lines of it. -/
structure Reader.HasTaken (reader : Reader) (start : Nat) (bytes taken : Bytes) : Prop where
  /-- What is taken and what is left is the text. -/
  bytes_eq : bytes = taken ++ reader.source.bytes
  /-- The reader stands behind what is taken. -/
  position_eq : reader.position = start + taken.length
  /-- It stands between two lines. -/
  parts : PartsLines taken reader.source.bytes
  /-- It has counted the lines. -/
  line_eq : reader.line = lineCount taken

namespace Reader

variable {reader : Reader} {start : Nat} {bytes taken : Bytes}

namespace HasTaken

theorem startAt (source : Source) (position : Nat) :
    (Reader.startAt source position).HasTaken position source.bytes [] where
  bytes_eq := rfl
  position_eq := rfl
  parts := .nil _
  line_eq := rfl

/-- What is taken is the text up to the position. -/
theorem taken_eq (h : reader.HasTaken start bytes taken) :
    bytes.take (reader.position - start) = taken := by
  rw [h.bytes_eq, h.position_eq, Nat.add_sub_cancel_left, List.take_left]

/-- No line is counted twice, and none is left out. -/
theorem line_add (h : reader.HasTaken start bytes taken) :
    reader.line + lineCount reader.source.bytes = lineCount bytes := by
  rw [h.line_eq, ← h.parts.lineCount_append, ← h.bytes_eq]

/-- Taking a line off counts that line. -/
theorem exists_past (h : reader.HasTaken start bytes taken) {line : Line}
    (hline : reader.source.line? = some line) :
    ∃ taken', (reader.past line).HasTaken start bytes taken' := by
  obtain ⟨ending, hbegins⟩ := Source.begins_of_line? hline
  have hlength : (line.text ++ ending).length = line.taken := by
    rw [hbegins.taken_eq, List.length_append]
  have hne : line.text ++ ending ≠ [] :=
    List.ne_nil_of_length_pos (hlength ▸ (Source.taken_of_line? hline).1)
  have hsource := hbegins.bytes_eq
  -- The line stands where the text was parted.
  have hparts : PartsLines taken (line.text ++ ending) := by
    refine h.parts.of_head? (hsource ▸ List.append_ne_nil_of_left_ne_nil hne _) ?_
    rw [hsource, List.head?_append_of_ne_nil _ hne]
  refine ⟨taken ++ (line.text ++ ending), ?_, ?_, ?_, ?_⟩
  · rw [h.bytes_eq, hsource, List.append_assoc taken]
    rfl
  · rw [List.length_append, hlength, ← Nat.add_assoc, ← h.position_eq]
    rfl
  · intro b hb
    rw [List.getLast?_append_of_ne_nil _ hne] at hb
    exact hbegins.ending.partsLines _ b hb
  · rw [hparts.lineCount_append, hbegins.ending.lineCount_eq hbegins.text_plain hne, ← h.line_eq]
    rfl

/-- Looking for a line counts that line, and the blank ones in front of it. -/
theorem nextLine? (h : reader.HasTaken start bytes taken) :
    ∃ taken', reader.nextLine?.2.HasTaken start bytes taken' :=
  nextLine?_keeps (fun reader => ∃ taken, reader.HasTaken start bytes taken)
    (fun _ _ hline ⟨_, h⟩ => h.exists_past hline) ⟨taken, h⟩

/-- Any steps count the lines that they take, also those that fail. -/
theorem afterSteps (h : reader.HasTaken start bytes taken) (steps : List Step) :
    ∃ taken', (reader.afterSteps steps).HasTaken start bytes taken' :=
  afterSteps_keeps (fun reader => ∃ taken, reader.HasTaken start bytes taken)
    (fun _ _ hline ⟨_, h⟩ => h.exists_past hline) ⟨taken, h⟩ steps

/-- Behind a line that is found, the number of that line has been counted. -/
theorem line_of_nextLine?_some (h : reader.HasTaken start bytes taken) {offset : Nat}
    {text : Bytes} {after : Reader} (hline : reader.nextLine? = (some (offset, text), after)) :
    after.line = terminators (bytes.take (offset - start)) + 1 := by
  induction reader using nextLine?_induction generalizing taken with
  | done reader hnone => simp [nextLine?_of_none hnone] at hline
  | blank reader line hsome hblank ih =>
    obtain ⟨taken', hpast⟩ := h.exists_past hsome
    rw [nextLine?_of_some hsome, if_pos hblank] at hline
    exact ih hpast hline
  | found reader line hsome hfound =>
    rw [nextLine?_of_some hsome, if_neg hfound] at hline
    obtain ⟨hrun, rfl⟩ := Prod.mk.inj hline
    obtain ⟨rfl, -⟩ := Prod.mk.inj (Option.some.inj hrun)
    -- A line is left, so all lines in front have an end.
    have hne : reader.source.bytes ≠ [] := by
      obtain ⟨hpos, hlength⟩ := Source.taken_of_line? hsome
      exact List.ne_nil_of_length_pos (by omega)
    rw [h.taken_eq, ← lineCount_eq_terminators (h.parts.closed hne), ← h.line_eq]
    rfl

end HasTaken

end Reader

/-! ### First runs -/

/-- The first maximal run with a property. -/
structure Run.First (run : Run) (bytes : Bytes) (p : Run → Prop) : Prop where
  /-- The run is maximal. -/
  maximal : run.Maximal bytes
  /-- It has the property. -/
  holds : p run
  /-- No run in front of it has. -/
  least : ∀ run' : Run, run'.Maximal bytes → p run' → run.before.length ≤ run'.before.length

/-- A maximal run is found. -/
theorem Run.Maximal.mem_runsFrom {run : Run} {bytes : Bytes} (h : run.Maximal bytes) (start : Nat) :
    (start + run.before.length, run.text) ∈ runsFrom start bytes :=
  mem_runsFrom_iff.mpr ⟨run, h, rfl, rfl⟩

/-- Maximal runs that begin at the same place are the same. -/
theorem Run.Maximal.eq_of_length_before {run run' : Run} {bytes : Bytes} (h : run.Maximal bytes)
    (h' : run'.Maximal bytes) (hlength : run.before.length = run'.before.length) : run = run' := by
  have hbefore : run.before = run'.before := by rw [← h.take_eq, ← h'.take_eq, hlength]
  have hrest : run.text ++ run.behind = run'.text ++ run'.behind := by
    have hbytes := h.bytes_eq.symm.trans h'.bytes_eq
    rw [hbefore, List.append_assoc, List.append_assoc] at hbytes
    exact List.append_cancel_left hbytes
  obtain ⟨htext, hbehind⟩ := cut_plain h.plain h.closes
  obtain ⟨htext', hbehind'⟩ := cut_plain h'.plain h'.closes
  rw [hrest] at htext hbehind
  cases run
  cases run'
  rw [Run.mk.injEq]
  exact ⟨hbefore, htext.symm.trans htext', hbehind.symm.trans hbehind'⟩

theorem Run.First.unique {run run' : Run} {bytes : Bytes} {p : Run → Prop}
    (h : run.First bytes p) (h' : run'.First bytes p) : run = run' :=
  h.maximal.eq_of_length_before h'.maximal <|
    Nat.le_antisymm (h.least run' h'.maximal h'.holds) (h'.least run h.maximal h.holds)

/-- Searching the runs in order finds the first one with a property. -/
theorem find?_runsFrom_eq_some_iff {start : Nat} {bytes : Bytes} {p : Nat × Bytes → Bool}
    {found : Nat × Bytes} :
    (runsFrom start bytes).find? p = some found ↔
      ∃ run : Run, run.First bytes (fun run => p (start + run.before.length, run.text) = true) ∧
        found = (start + run.before.length, run.text) := by
  -- What is found is a first run.
  have hfirst : ∀ {found}, (runsFrom start bytes).find? p = some found →
      ∃ run : Run, run.First bytes (fun run => p (start + run.before.length, run.text) = true) ∧
        found = (start + run.before.length, run.text) := by
    intro found hfind
    obtain ⟨hp, front, back, hruns, hfront⟩ := List.find?_eq_some_iff_append.mp hfind
    obtain ⟨run, hrun, hoffset, htext⟩ := mem_runsFrom_iff.mp (List.mem_of_find?_eq_some hfind)
    obtain rfl : found = (start + run.before.length, run.text) := Prod.ext hoffset htext
    refine ⟨run, ⟨hrun, hp, fun run' hrun' hp' => ?_⟩, rfl⟩
    -- Another run with the property stands behind it, since those in front have it not.
    have hordered := pairwise_runsFrom start bytes
    have hmem := hrun'.mem_runsFrom start
    rw [hruns] at hordered hmem
    rcases List.mem_append.mp hmem with hmem | hmem
    · have hnot := hfront _ hmem
      rw [hp'] at hnot
      exact nomatch hnot
    · rcases List.mem_cons.mp hmem with heq | hmem
      · have := (Prod.mk.inj heq).1
        omega
      · have hle := List.rel_of_pairwise_cons (List.pairwise_append.mp hordered).2.1 hmem
        dsimp only at hle
        omega
  refine ⟨hfirst, ?_⟩
  rintro ⟨run, hrun, rfl⟩
  have hmem := hrun.maximal.mem_runsFrom start
  cases hfind : (runsFrom start bytes).find? p with
  | none => exact absurd hrun.holds (List.find?_eq_none.mp hfind _ hmem)
  | some found =>
    obtain ⟨run', hrun', rfl⟩ := hfirst hfind
    rw [hrun.unique hrun']

/-- What holds of the first run that is found holds of the first run there is. -/
theorem exists_find?_runsFrom_iff {start : Nat} {bytes : Bytes} {p : Nat × Bytes → Bool}
    {q : Nat × Bytes → Prop} :
    (∃ found, (runsFrom start bytes).find? p = some found ∧ q found) ↔
      ∃ run : Run, run.First bytes (fun run => p (start + run.before.length, run.text) = true) ∧
        q (start + run.before.length, run.text) := by
  constructor
  · rintro ⟨found, hfind, hq⟩
    obtain ⟨run, hrun, rfl⟩ := find?_runsFrom_eq_some_iff.mp hfind
    exact ⟨run, hrun, hq⟩
  · rintro ⟨run, hrun, hq⟩
    exact ⟨_, find?_runsFrom_eq_some_iff.mpr ⟨run, hrun, rfl⟩, hq⟩

/-- A run that encodes no word. -/
def Run.Malformed (run : Run) : Prop :=
  ∀ word, run.text ≠ Utf8.encode word

theorem Run.malformed_iff {run : Run} : run.Malformed ↔ Utf8.decode? run.text = none :=
  Utf8.decode?_eq_none_iff.symm

/-! ### Errors -/

namespace Reader.HasTaken

variable {reader : Reader} {start : Nat} {bytes taken : Bytes}

/-- The runs of a text are those of the lines taken and those that are left. -/
theorem runsFrom_eq (h : reader.HasTaken start bytes taken) :
    runsFrom start bytes = runsFrom start taken ++ reader.runs := by
  rw [runs, h.position_eq]
  by_cases hne : reader.source.bytes = []
  · rw [h.bytes_eq, hne, List.append_nil, runsFrom_nil, List.append_nil]
  · rw [h.bytes_eq, runsFrom_append (h.parts.closed hne)]

/-- The next run is the first one at or behind the position. -/
theorem find?_runsFrom_eq (h : reader.HasTaken start bytes taken) :
    (runsFrom start bytes).find? (fun run => decide (reader.position ≤ run.1))
      = reader.runs.head? := by
  -- Every run of the lines taken begins in front of the position.
  have htaken : (runsFrom start taken).find? (fun run => decide (reader.position ≤ run.1))
      = none := by
    refine List.find?_eq_none.mpr fun found hfound => ?_
    obtain ⟨run, hrun, hoffset, -⟩ := mem_runsFrom_iff.mp hfound
    have hlength := congrArg List.length hrun.bytes_eq
    have hpos := List.length_pos_iff.mpr hrun.ne_nil
    rw [List.length_append, List.length_append] at hlength
    rw [decide_eq_true_iff, h.position_eq]
    omega
  rw [h.runsFrom_eq, List.find?_append, htaken, Option.none_or]
  cases hruns : reader.runs with
  | nil => rfl
  | cons found later =>
    have hle : reader.position ≤ found.1 := by
      have hmem : found ∈ reader.runs := hruns ▸ List.mem_cons_self
      exact le_of_mem_runsFrom hmem
    exact List.find?_cons_of_pos (decide_eq_true hle)

/-- Reading the next word, by the next run: a malformed one is an error with the number of its
    line. -/
theorem next_of_runs_cons (h : reader.HasTaken start bytes taken) {offset : Nat} {text : Bytes}
    {later : List (Nat × Bytes)} (hruns : reader.runs = (offset, text) :: later) :
    ∃ after taken', after.runs = later ∧ after.HasTaken start bytes taken' ∧
      reader.next =
        (match Utf8.decode? text with
          | some word => .ok (some (offset, word))
          | none => .error (.badEncoding (terminators (bytes.take (offset - start)) + 1)), after) := by
  obtain ⟨after, hline, hlater⟩ := nextLine?_of_runs_cons hruns
  obtain ⟨taken', hafter⟩ := h.nextLine?
  rw [hline] at hafter
  refine ⟨after, taken', hlater, hafter, ?_⟩
  rw [next, hline, ← h.line_of_nextLine?_some hline]
  dsimp only
  cases Utf8.decode? text <;> rfl

/-- **A word that cannot be read.** Reading the next word fails exactly if the next run is
    malformed, and the error has the number of its line. -/
theorem next_eq_error_iff (h : reader.HasTaken start bytes taken) (e : ListError) :
    reader.next.1 = .error e ↔
      ∃ run : Run, run.First bytes (fun run => reader.position ≤ start + run.before.length) ∧
        run.Malformed ∧ e = .badEncoding (terminators run.before + 1) := by
  have hnext : reader.next.1 = .error e ↔
      ∃ found, reader.runs.head? = some found ∧ Utf8.decode? found.2 = none ∧
        e = .badEncoding (terminators (bytes.take (found.1 - start)) + 1) := by
    cases hruns : reader.runs with
    | nil =>
      obtain ⟨after, hnext, -⟩ := next_of_runs_nil hruns
      rw [hnext]
      simp
    | cons found later =>
      obtain ⟨offset, text⟩ := found
      obtain ⟨after, taken', -, -, hnext⟩ := h.next_of_runs_cons hruns
      rw [hnext]
      cases hword : Utf8.decode? text with
      | some word => simp [hword]
      | none => simp [hword, eq_comm]
  rw [hnext, ← h.find?_runsFrom_eq, exists_find?_runsFrom_iff]
  simp only [decide_eq_true_iff]
  refine exists_congr fun run => and_congr_right fun hrun => ?_
  rw [Run.malformed_iff, Nat.add_sub_cancel_left, hrun.maximal.take_eq]

/-- Feeding all words to a step that cannot fail fails exactly if some run is malformed, and the
    error has the number of the line of the first one. -/
theorem foldWords_eq_error_iff_find? {β : Type} (h : reader.HasTaken start bytes taken)
    (step : β → Nat × Word → β) (acc : β) (e : ListError) :
    reader.foldWords (fun acc found => .ok (step acc found)) acc = .error e ↔
      ∃ found, reader.runs.find? (fun run => (Utf8.decode? run.2).isNone) = some found ∧
        e = .badEncoding (terminators (bytes.take (found.1 - start)) + 1) := by
  generalize hruns : reader.runs = runs
  induction runs generalizing reader taken acc with
  | nil =>
    obtain ⟨after, hnext, -⟩ := next_of_runs_nil hruns
    rw [foldWords_eq, hnext]
    simp
  | cons found later ih =>
    obtain ⟨offset, text⟩ := found
    obtain ⟨after, taken', hlater, hafter, hnext⟩ := h.next_of_runs_cons hruns
    rw [foldWords_eq, hnext, List.find?_cons]
    cases hword : Utf8.decode? text with
    | some word => exact ih hafter (step acc (offset, word)) hlater
    | none => simp [eq_comm]

end Reader.HasTaken

/-- **A source that cannot be read.** The words of a source fail to be read exactly if some run is
    malformed, and the error has the number of the line of the first one. -/
theorem Source.words_eq_error_iff (source : Source) (e : ListError) :
    source.words = .error e ↔
      ∃ run : Run, run.First source.bytes Run.Malformed ∧
        e = .badEncoding (terminators run.before + 1) := by
  have hfold := (Reader.HasTaken.startAt source 0).foldWords_eq_error_iff_find?
    (fun words found => found.2 :: words) [] e
  have hruns : (Reader.startAt source 0).runs = runsFrom 0 source.bytes := rfl
  rw [hruns, exists_find?_runsFrom_iff] at hfold
  rw [Source.words, map_eq_error_iff]
  refine hfold.trans ?_
  simp only [Option.isNone_iff_eq_none, ← Run.malformed_iff]
  refine exists_congr fun run => and_congr_right fun hrun => ?_
  rw [Nat.add_sub_cancel_left, hrun.maximal.take_eq]

/-- **Errors name lines.** Whatever steps a reader has taken, a step fails exactly if it is to read
    a word and the next run is malformed, and the error has the number of the line of that run: one
    more than there are line ends in front of it.  The lines that have been counted are those up to
    the position, and with those that are left they are all lines of the text.  So reading all
    words fails exactly if some run is malformed, with the number of the line of the first one. -/
theorem Reader.errors_name_lines (source : Source) (start : Nat) (steps : List Step) :
    (∀ s e, (((startAt source start).afterSteps steps).step s).1 = .word (.error e) ↔
        s = .next ∧ ∃ run : Run,
          run.First source.bytes (fun run =>
            ((startAt source start).afterSteps steps).position ≤ start + run.before.length) ∧
          run.Malformed ∧ e = .badEncoding (terminators run.before + 1)) ∧
      ((startAt source start).afterSteps steps).line
        = lineCount (source.bytes.take
            (((startAt source start).afterSteps steps).position - start)) ∧
      ((startAt source start).afterSteps steps).line
        + lineCount ((startAt source start).afterSteps steps).source.bytes
        = lineCount source.bytes ∧
      ∀ e, source.words = .error e ↔
        ∃ run : Run, run.First source.bytes Run.Malformed ∧
          e = .badEncoding (terminators run.before + 1) := by
  obtain ⟨taken, htaken⟩ := (HasTaken.startAt source start).afterSteps steps
  generalize (startAt source start).afterSteps steps = reader at htaken
  refine ⟨fun s e => ?_, ?_, htaken.line_add, source.words_eq_error_iff⟩
  · rw [← htaken.next_eq_error_iff]
    cases s with
    | next =>
      show Answer.word reader.next.1 = .word (.error e) ↔ _
      rw [Answer.word.injEq]
      exact (and_iff_right rfl).symm
    | skip count => exact ⟨nofun, nofun⟩
  · rw [htaken.taken_eq, htaken.line_eq]

end Lexicon
