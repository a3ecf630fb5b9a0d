import Lexicon.Proofs.Reading.Place
import Lexicon.Proofs.Reading.Steps
import Lexicon.Proofs.Text.Decoding
import Mathlib.Data.List.Basic

namespace Lexicon

/-!
# Reading finds the maximal runs

Successive reads give the maximal runs of bytes that hold no terminator, all of them, in order
and each once, and leave the reader behind the terminator of the run.

* `Run.Maximal` — what a maximal run of some bytes is, apart from any way to find it.
* `runs_induction` — induction along the terminators and the runs of some bytes.
* `mem_runsFrom_iff`, `pairwise_runsFrom` — the runs that are found are the maximal ones, in order.
* `Run.IsRead` — what reading a run gives.
* `Reader.next_reads_maximal` — every read gives the next maximal run.
-/

/-! ### Maximal runs -/

/-- Some bytes of a text with what stands before and behind them. -/
structure Run where
  /-- The bytes in front. -/
  before : Bytes
  /-- The bytes of the run. -/
  text : Bytes
  /-- The bytes that follow. -/
  behind : Bytes

/-- A run of `bytes` without a terminator that no longer such run holds. -/
structure Run.Maximal (run : Run) (bytes : Bytes) : Prop where
  /-- The run is a part of the bytes. -/
  bytes_eq : bytes = run.before ++ run.text ++ run.behind
  /-- It holds some byte. -/
  ne_nil : run.text ≠ []
  /-- It holds no terminator. -/
  plain : ∀ b ∈ run.text, isTerminator b = false
  /-- Nothing or a terminator stands in front of it. -/
  opens : ∀ b ∈ run.before.getLast?, isTerminator b = true
  /-- Nothing or a terminator stands behind it. -/
  closes : ∀ b ∈ run.behind.head?, isTerminator b = true

/-- The bytes behind a run. -/
theorem Run.Maximal.drop_eq {run : Run} {bytes : Bytes} (h : run.Maximal bytes) :
    bytes.drop (run.before.length + run.text.length) = run.behind := by
  rw [h.bytes_eq, ← List.length_append, List.drop_left]

/-- The bytes in front of a run. -/
theorem Run.Maximal.take_eq {run : Run} {bytes : Bytes} (h : run.Maximal bytes) :
    bytes.take run.before.length = run.before := by
  rw [h.bytes_eq, List.append_assoc, List.take_left]

/-! ### Finding them -/

/-- Bytes begin with a terminator or with a run up to one, unless there are none. -/
@[elab_as_elim]
theorem runs_induction {motive : Bytes → Prop} (nil : motive [])
    (terminator : ∀ b rest, isTerminator b = true → motive rest → motive (b :: rest))
    (plain : ∀ text rest, text ≠ [] → (∀ b ∈ text, isTerminator b = false) →
      (∀ b ∈ rest.head?, isTerminator b = true) → motive rest → motive (text ++ rest))
    (bytes : Bytes) : motive bytes := by
  -- The position plays no part here.
  generalize hposition : 0 = position
  clear hposition
  fun_induction runsFrom position bytes with
  | case1 => exact nil
  | case2 position b rest hb ih => exact terminator b rest hb ih
  | case3 position b rest hb hlength ih =>
    have hcut : plainPart rest ++ afterPlain rest = rest := List.takeWhile_append_dropWhile
    have hhead := List.head?_dropWhile_not (fun b => !isTerminator b) rest
    rw [← hcut]
    refine plain (b :: plainPart rest) (afterPlain rest) (List.cons_ne_nil _ _) ?_ ?_ ih
    · intro c hc
      rcases List.mem_cons.mp hc with rfl | hc
      · simpa using hb
      · simpa using List.mem_takeWhile_imp hc
    · intro c hc
      rw [afterPlain] at hc
      rw [Option.mem_def.mp hc] at hhead
      simpa using hhead

/-- Where nothing or a terminator ends the first bytes, their runs and those of the bytes behind
    them are found apart. -/
theorem runsFrom_append {before : Bytes} (hlast : ∀ b ∈ before.getLast?, isTerminator b = true)
    (position : Nat) (rest : Bytes) :
    runsFrom position (before ++ rest)
      = runsFrom position before ++ runsFrom (position + before.length) rest := by
  induction before using runs_induction generalizing position with
  | nil => simp
  | terminator b before hb ih =>
    rw [List.cons_append, runsFrom_terminator hb, runsFrom_terminator hb, ih, List.length_cons]
    · congr 2
      omega
    · intro c hc
      exact hlast c (List.mem_getLast?_cons hc)
  | plain text before hne htext hhead ih =>
    -- The last byte of the text is no terminator, so something stands behind the text.
    have hbefore : before ≠ [] := by
      rintro rfl
      rw [List.append_nil] at hlast
      have hterminator := hlast _ (List.getLast?_eq_getLast_of_ne_nil hne)
      rw [htext _ (List.getLast_mem hne)] at hterminator
      simp at hterminator
    rw [List.getLast?_append_of_ne_nil text hbefore] at hlast
    have hhead' : ∀ b ∈ (before ++ rest).head?, isTerminator b = true := by
      rw [List.head?_append_of_ne_nil before hbefore]
      exact hhead
    rw [List.append_assoc, runsFrom_plain htext hne hhead', runsFrom_plain htext hne hhead,
      ih hlast, List.length_append, Nat.add_assoc, List.cons_append]

/-- No run is found before the position of the first byte. -/
theorem le_of_mem_runsFrom {position offset : Nat} {bytes text : Bytes}
    (h : (offset, text) ∈ runsFrom position bytes) : position ≤ offset := by
  induction bytes using runs_induction generalizing position with
  | nil => simp at h
  | terminator b rest hb ih =>
    rw [runsFrom_terminator hb] at h
    exact Nat.le_of_succ_le (ih h)
  | plain first rest hne hfirst hhead ih =>
    rw [runsFrom_plain hfirst hne hhead] at h
    rcases List.mem_cons.mp h with heq | hmem
    · exact Nat.le_of_eq (Prod.mk.inj heq).1.symm
    · exact Nat.le_trans (Nat.le_add_right _ _) (ih hmem)

/-- The runs that are found come in order. -/
theorem pairwise_runsFrom (position : Nat) (bytes : Bytes) :
    (runsFrom position bytes).Pairwise (fun run later => run.1 + run.2.length ≤ later.1) := by
  induction bytes using runs_induction generalizing position with
  | nil => simp
  | terminator b rest hb ih =>
    rw [runsFrom_terminator hb]
    exact ih _
  | plain first rest hne hfirst hhead ih =>
    rw [runsFrom_plain hfirst hne hhead]
    refine List.pairwise_cons.mpr ⟨?_, ih _⟩
    intro later hlater
    exact le_of_mem_runsFrom hlater

/-- Bytes that stand behind others hold the same maximal runs, unless those come to stand at the
    first of them. -/
theorem Run.Maximal.prepend {run : Run} {bytes : Bytes} (h : run.Maximal bytes) (first : Bytes)
    (hfirst : run.before = [] → ∀ b ∈ first.getLast?, isTerminator b = true) :
    Run.Maximal ⟨first ++ run.before, run.text, run.behind⟩ (first ++ bytes) where
  bytes_eq := by rw [h.bytes_eq, List.append_assoc, List.append_assoc, List.append_assoc]
  ne_nil := h.ne_nil
  plain := h.plain
  opens := by
    show ∀ b ∈ (first ++ run.before).getLast?, isTerminator b = true
    by_cases hbefore : run.before = []
    · rw [hbefore, List.append_nil]
      exact hfirst hbefore
    · rw [List.getLast?_append_of_ne_nil first hbefore]
      exact h.opens
  closes := h.closes

/-- A maximal run of bytes that begin with a terminator begins later. -/
theorem Run.Maximal.before_ne_nil {run : Run} {bytes : Bytes} (h : run.Maximal bytes)
    (hhead : ∀ b ∈ bytes.head?, isTerminator b = true) : run.before ≠ [] := by
  intro hbefore
  obtain ⟨b, text, htext⟩ := List.exists_cons_of_ne_nil h.ne_nil
  have hplain := h.plain b (by rw [htext]; exact List.mem_cons_self)
  rw [h.bytes_eq, hbefore, htext] at hhead
  rw [hhead b rfl] at hplain
  simp at hplain

/-- A run that is found is maximal. -/
theorem exists_maximal_of_mem_runsFrom {position offset : Nat} {bytes text : Bytes}
    (h : (offset, text) ∈ runsFrom position bytes) :
    ∃ run : Run, run.Maximal bytes ∧ offset = position + run.before.length ∧ text = run.text := by
  induction bytes using runs_induction generalizing position with
  | nil => simp at h
  | terminator b rest hb ih =>
    rw [runsFrom_terminator hb] at h
    obtain ⟨run, hrun, rfl, rfl⟩ := ih h
    refine ⟨_, hrun.prepend [b] (fun _ => by simpa using hb), ?_, rfl⟩
    simp only [List.length_append, List.length_singleton]
    omega
  | plain first rest hne hfirst hhead ih =>
    rw [runsFrom_plain hfirst hne hhead] at h
    rcases List.mem_cons.mp h with heq | hmem
    · obtain ⟨rfl, rfl⟩ := Prod.mk.inj heq
      exact ⟨⟨[], text, rest⟩, ⟨rfl, hne, hfirst, by simp, hhead⟩, rfl, rfl⟩
    · obtain ⟨run, hrun, rfl, rfl⟩ := ih hmem
      refine ⟨_, hrun.prepend first (absurd · (hrun.before_ne_nil hhead)), ?_, rfl⟩
      simp only [List.length_append]
      omega

/-- The runs that are found are the maximal ones. -/
theorem mem_runsFrom_iff {position offset : Nat} {bytes text : Bytes} :
    (offset, text) ∈ runsFrom position bytes ↔
      ∃ run : Run, run.Maximal bytes ∧ offset = position + run.before.length ∧ text = run.text := by
  constructor
  · exact exists_maximal_of_mem_runsFrom
  · rintro ⟨run, hrun, rfl, rfl⟩
    rw [hrun.bytes_eq, List.append_assoc, runsFrom_append hrun.opens,
      runsFrom_plain hrun.plain hrun.ne_nil hrun.closes]
    exact List.mem_append_right _ List.mem_cons_self

/-! ### Reading them -/

namespace Reader

/-- The reader after a number of reads, whatever they gave. -/
def afterReads : (count : Nat) → Reader → Reader
  | 0, reader => reader
  | count + 1, reader => afterReads count reader.next.2

/-- Reading takes the first run off, if there is one. -/
theorem runs_next (reader : Reader) : reader.next.2.runs = reader.runs.tail := by
  cases hruns : reader.runs with
  | nil =>
    obtain ⟨after, hnext, hafter⟩ := next_of_runs_nil hruns
    rw [hnext]
    exact hafter
  | cons run later =>
    obtain ⟨after, hafter, hnext⟩ := next_of_runs_cons hruns
    rw [hnext]
    exact hafter

/-- Reads take runs off the front. -/
theorem runs_afterReads (count : Nat) (reader : Reader) :
    (reader.afterReads count).runs = reader.runs.drop count := by
  induction count generalizing reader with
  | zero => rfl
  | succ count ih => rw [afterReads, ih, runs_next, ← List.drop_one, List.drop_drop, Nat.add_comm]

/-- Reads stay within the text. -/
theorem Within.afterReads {reader : Reader} {start : Nat} {bytes : Bytes}
    (h : reader.Within start bytes) (count : Nat) :
    (reader.afterReads count).Within start bytes := by
  induction count generalizing reader with
  | zero => exact h
  | succ count ih => exact ih h.next

end Reader

/-- What a reader gives that comes to a run of a text, whose first byte stands at `start`. -/
structure Run.IsRead (run : Run) (start : Nat) (reader : Reader) : Prop where
  /-- The word that the run encodes, with the offset of its first byte. -/
  word : ∀ word, run.text = Utf8.encode word →
    reader.next.1 = .ok (some (start + run.before.length, word))
  /-- An error if it encodes none. -/
  error : (∀ word, run.text ≠ Utf8.encode word) →
    reader.next.1 = .error (.badEncoding reader.next.2.line)
  /-- Either way the reader comes to stand behind the whole terminator. -/
  position : reader.next.2.position
    = start + run.before.length + run.text.length + terminatorLength run.behind

/-- A reader gives the first of the runs that are left. -/
theorem Run.isRead_of_runs_cons {reader : Reader} {start : Nat} {bytes : Bytes} {run : Run}
    (hwithin : reader.Within start bytes) (hrun : run.Maximal bytes) {later : List (Nat × Bytes)}
    (hruns : reader.runs = (start + run.before.length, run.text) :: later) :
    run.IsRead start reader := by
  obtain ⟨after, hline, -⟩ := Reader.nextLine?_of_runs_cons hruns
  have hposition := hwithin.position_of_nextLine?_some hline
  rw [Nat.add_sub_cancel_left, hrun.drop_eq] at hposition
  refine ⟨?_, ?_, ?_⟩
  · intro word hword
    rw [Reader.next, hline]
    simp only [Utf8.decode?_eq_some_iff.mpr hword]
  · intro hnone
    rw [Reader.next, hline]
    simp only [Utf8.decode?_eq_none_iff.mpr hnone]
  · rw [Reader.next_snd, hline]
    exact hposition

/-- The part of a text, whose first byte stands at `start`, that is found as a run. -/
def Run.found (start : Nat) (bytes : Bytes) (found : Nat × Bytes) : Run :=
  ⟨bytes.take (found.1 - start), found.2, bytes.drop (found.1 - start + found.2.length)⟩

theorem Run.Maximal.found_eq {run : Run} {bytes : Bytes} (h : run.Maximal bytes) (start : Nat) :
    Run.found start bytes (start + run.before.length, run.text) = run := by
  simp only [Run.found, Nat.add_sub_cancel_left, h.take_eq, h.drop_eq]

/-- What is found is a maximal run with its offset. -/
theorem Run.maximal_found {start : Nat} {bytes : Bytes} {found : Nat × Bytes}
    (h : found ∈ runsFrom start bytes) :
    (Run.found start bytes found).Maximal bytes ∧
      found = (start + (Run.found start bytes found).before.length, found.2) := by
  obtain ⟨run, hrun, hoffset, htext⟩ := mem_runsFrom_iff.mp h
  obtain rfl : found = (start + run.before.length, run.text) := Prod.ext hoffset htext
  rw [hrun.found_eq]
  exact ⟨hrun, rfl⟩

/-- The runs that are found, as parts of the text. -/
theorem exists_maximal_runs (start : Nat) (bytes : Bytes) :
    ∃ runs : List Run, (∀ run, run ∈ runs ↔ run.Maximal bytes) ∧
      runsFrom start bytes = runs.map fun run => (start + run.before.length, run.text) := by
  refine ⟨(runsFrom start bytes).map (Run.found start bytes), fun run => ?_, ?_⟩
  · rw [List.mem_map]
    constructor
    · rintro ⟨found, hfound, rfl⟩
      exact (Run.maximal_found hfound).1
    · intro hrun
      exact ⟨_, mem_runsFrom_iff.mpr ⟨run, hrun, rfl, rfl⟩, hrun.found_eq start⟩
  · rw [List.map_map]
    refine (List.map_id _).symm.trans (List.map_congr_left fun found hfound => ?_)
    exact (Run.maximal_found hfound).2

/-- **Reads give the maximal runs.** Successive reads give the maximal runs of a text, all of
    them, in order and each once, and nothing after them.  No position is beyond the end. -/
theorem Reader.next_reads_maximal (source : Source) (start : Nat) :
    ∃ runs : List Run,
      (∀ run, run ∈ runs ↔ run.Maximal source.bytes) ∧
      runs.Pairwise (fun run later => run.before.length + run.text.length ≤ later.before.length) ∧
      (∀ k (run : Run), runs[k]? = some run →
        run.IsRead start ((startAt source start).afterReads k)) ∧
      (∀ k, runs.length ≤ k →
        ((startAt source start).afterReads k).next.1 = .ok none ∧
        ((startAt source start).afterReads k).next.2.position = start + source.bytes.length) ∧
      ∀ k, ((startAt source start).afterReads k).position ≤ start + source.bytes.length := by
  obtain ⟨runs, hmem, hruns⟩ := exists_maximal_runs start source.bytes
  have hwithin := fun k => (Within.startAt source start).afterReads k
  -- After `k` reads all runs but the first `k` are left.
  have hleft : ∀ k, ((startAt source start).afterReads k).runs
      = (runs.drop k).map fun run => (start + run.before.length, run.text) := by
    intro k
    rw [runs_afterReads, List.map_drop, ← hruns]
    rfl
  refine ⟨runs, hmem, ?_, ?_, ?_, fun k => (hwithin k).le_end⟩
  · have hordered := pairwise_runsFrom start source.bytes
    rw [hruns, List.pairwise_map] at hordered
    refine hordered.imp ?_
    intro run later hle
    dsimp only at hle
    omega
  · intro k run hrun
    obtain ⟨hk, hget⟩ := List.getElem?_eq_some_iff.mp hrun
    have hfirst := hleft k
    rw [List.drop_eq_getElem_cons hk, hget, List.map_cons] at hfirst
    exact Run.isRead_of_runs_cons (hwithin k) ((hmem run).mp (List.mem_of_getElem? hrun)) hfirst
  · intro k hk
    have hnone := hleft k
    rw [List.drop_eq_nil_of_le hk, List.map_nil] at hnone
    obtain ⟨after, hline, -⟩ := nextLine?_of_runs_nil hnone
    rw [next, hline]
    exact ⟨rfl, (hwithin k).position_of_nextLine?_none hline⟩

end Lexicon
