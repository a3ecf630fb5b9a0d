import Lexicon.Proofs.WordList.Holds
import Lexicon.Proofs.WordList.Scan
import Lexicon.WordList.Mapped
import Lexicon.WordList.Stored

namespace Lexicon

/-!
# Word lists on disk

A list on disk finds a word again by its nearest sampled offset, and so holds the words that
its scan has seen.

* `Reader.wordAfter_anchor` — the way from a sampled word leads to the word at the index.
* `Indexes` — what a scan knows of the words of some contents.
* `Stored.Reads`, `Mapped.Reads` — lists that know as much of the contents of their file.
* `Stored.Reads.fetch`, `Mapped.Reads.get` — such a list gives the words of the file, and a
  fetch leaves it such a list.
* `Mapped.ofContents_eq` — opening a file and mapping it come to the same.
* `disk_lists_hold_words` — a list opened on a file holds the words of the file.
-/

/-! ### Pieces of a file -/

/-- Cutting loses no bytes. -/
theorem Source.bytes_cut (size : Nat) (bytes : Bytes) : (Source.cut size bytes).bytes = bytes := by
  fun_induction Source.cut size bytes with
  | case1 => simp [Source.bytes]
  | case2 bytes _ _ ih => rw [Source.bytes_cons, ih, List.take_append_drop]

theorem Source.bytes_ofFile (bytes : Bytes) : (Source.ofFile bytes).bytes = bytes :=
  Source.bytes_cut bufferSize bytes

theorem Source.bytes_singleton (bytes : Bytes) : Source.bytes [bytes] = bytes :=
  List.flatten_singleton

/-- In one piece or in several, a file has the same bytes. -/
theorem Source.bytes_singleton_eq_ofFile (bytes : Bytes) :
    Source.bytes [bytes] = (Source.ofFile bytes).bytes := by
  rw [bytes_ofFile, bytes_singleton]

/-! ### The way back to a word -/

/-- Reading on after `gap` words gives the word behind them. -/
theorem Reader.wordAfter_spec {reader : Reader} {found : List (Nat × Word)}
    (h : decodeRuns reader.runs = some found) (gap : Nat) :
    (reader.wordAfter gap).1 = .ok (found[gap]?.map Prod.snd) := by
  obtain ⟨hskipped, hruns⟩ := skip_spec gap reader
  rw [← length_of_decodeRuns h] at hskipped
  have hdecoded := decodeRuns_drop h gap
  rw [← hruns] at hdecoded
  simp only [wordAfter]
  -- Words run out while passing over, or right behind the last one passed, or not at all.
  split_ifs with hshort
  · rw [List.getElem?_eq_none (by omega)]
    rfl
  · cases hlater : (skip gap reader).2.runs with
    | nil =>
      obtain ⟨after, hnext, -⟩ := next_of_runs_nil hlater
      rw [hlater] at hdecoded
      have hnone : found[gap]? = none := by
        rw [← List.head?_drop, ← Option.some.inj hdecoded]
        rfl
      simp [hnext, hnone, Except.map]
    | cons run later =>
      obtain ⟨offset, text⟩ := run
      obtain ⟨after, -, hnext⟩ := next_of_runs_cons hlater
      rw [hlater] at hdecoded
      obtain ⟨word, rest, hword, -, hfound⟩ := decodeRuns_cons_eq_some hdecoded
      have hsome : found[gap]? = some (offset, word) := by
        rw [← List.head?_drop, hfound]
        rfl
      simp [hnext, hword, hsome, Except.map]

/-- The runs from a kept offset on are those from its word on. -/
theorem runsFrom_anchor {contents : Bytes} {sampled : OffsetIndex}
    (h : sampled.Samples ((runsFrom 0 contents).map Prod.fst)) (index : Nat) :
    runsFrom (sampled.anchor index).2 (contents.drop (sampled.anchor index).2)
      = (runsFrom 0 contents).drop (sampled.anchor index).1 := by
  -- The way begins at the start of the file or at the run of a kept offset.
  rcases h.anchor_eq index with hstart | hkept
  · rw [hstart, List.drop_zero, List.drop_zero]
  · rw [List.getElem?_map, Option.map_eq_some_iff] at hkept
    obtain ⟨⟨offset, text⟩, hrun, hoffset⟩ := hkept
    obtain rfl : offset = (sampled.anchor index).2 := hoffset
    exact (runsFrom_drop hrun).2

/-- The way from the sampled word at or before an index leads to the word at the index. -/
theorem Reader.wordAfter_anchor {contents : Bytes} {sampled : OffsetIndex}
    {found : List (Nat × Word)} (hfound : decodeRuns (runsFrom 0 contents) = some found)
    (hsamples : sampled.Samples (found.map Prod.fst)) (index : Nat) {source : Source}
    (hsource : source.bytes = contents.drop (sampled.anchor index).2) :
    ((Reader.startAt source (sampled.anchor index).2).wordAfter
        (index - (sampled.anchor index).1)).1
      = .ok ((found.map Prod.snd)[index]?) := by
  rw [map_fst_of_decodeRuns hfound] at hsamples
  have hruns : (Reader.startAt source (sampled.anchor index).2).runs
      = (runsFrom 0 contents).drop (sampled.anchor index).1 := by
    rw [← runsFrom_anchor hsamples index, ← hsource]
    rfl
  have hdecoded := decodeRuns_drop hfound (sampled.anchor index).1
  rw [← hruns] at hdecoded
  rw [wordAfter_spec hdecoded, List.getElem?_drop, List.getElem?_map,
    Nat.add_sub_cancel' (sampled.anchor_le index)]

/-! ### What a scan leaves behind -/

/-- The number of words of some contents, and samples of their offsets. -/
structure Indexes (size : Nat) (sampled : OffsetIndex) (contents : Bytes)
    (found : List (Nat × Word)) : Prop where
  /-- The words are those of the contents. -/
  decoded : decodeRuns (runsFrom 0 contents) = some found
  /-- Every word is counted. -/
  size_eq : size = found.length
  /-- The offsets are sampled. -/
  samples : sampled.Samples (found.map Prod.fst)

namespace Indexes

variable {size : Nat} {sampled : OffsetIndex} {contents : Bytes} {found : List (Nat × Word)}

/-- A scan that succeeds indexes the words of its source, which are in order. -/
theorem of_scan {order : WordOrder} {percent : Int} {fresh : OffsetIndex} {source : Source}
    {s : Scan} (hfresh : OffsetIndex.ofPercent percent = .ok fresh)
    (hs : scan order fresh source = .ok s) :
    ∃ found, Indexes s.size s.sampled source.bytes found ∧
      order.Ascends (found.map Prod.snd) := by
  obtain ⟨found, hfound, hreflects⟩ := scan_spec hfresh hs
  exact ⟨found, ⟨hfound, hreflects.size_eq, hreflects.samples⟩, hreflects.ascends⟩

theorem length_words (h : Indexes size sampled contents found) :
    size = (found.map Prod.snd).length := by
  rw [h.size_eq, List.length_map]

theorem words_eq (h : Indexes size sampled contents found) :
    Source.words [contents] = .ok (found.map Prod.snd) := by
  refine (Source.words_eq_ok_iff _ _).mpr ⟨found, ?_, rfl⟩
  rw [Source.bytes_singleton]
  exact h.decoded

/-- From the size on, there is no word to answer with. -/
theorem answerAt_of_le (h : Indexes size sampled contents found) {index : Nat}
    (hindex : size ≤ index) :
    answerAt (found.map Prod.snd) index = .error (.outOfRange index size) := by
  rw [h.length_words] at hindex ⊢
  exact Lexicon.answerAt_of_le hindex

/-- Below the size, reading on from the sampled word gives the answer. -/
theorem exists_wordAfter (h : Indexes size sampled contents found) {index : Nat}
    (hindex : index < size) {source : Source}
    (hsource : source.bytes = contents.drop (sampled.anchor index).2) :
    ∃ word, answerAt (found.map Prod.snd) index = .ok word ∧
      ((Reader.startAt source (sampled.anchor index).2).wordAfter
        (index - (sampled.anchor index).1)).1 = .ok (some word) := by
  rw [h.length_words] at hindex
  refine ⟨(found.map Prod.snd)[index], answerAt_of_lt hindex, ?_⟩
  rw [Reader.wordAfter_anchor h.decoded h.samples index hsource, List.getElem?_eq_getElem hindex]

end Indexes

/-! ### Lists that read a file -/

variable {order : WordOrder} {percent : Int} {contents : Bytes} {found : List (Nat × Word)}

/-- A list on an open file with an index of its words, its cursor anywhere. -/
structure Stored.Reads (list : Stored) (order : WordOrder) (contents : Bytes)
    (found : List (Nat × Word)) : Prop where
  /-- The list has the order. -/
  order_eq : list.order = order
  /-- The words are in order. -/
  ascends : order.Ascends (found.map Prod.snd)
  /-- The words are indexed. -/
  indexes : Indexes list.size list.sampled contents found
  /-- The file is open. -/
  file_eq : ∃ cursor, list.file = some ⟨contents, cursor⟩

/-- A fetch gives the word of the file, and moves the cursor at most. -/
theorem Stored.Reads.fetch {list : Stored} (h : list.Reads order contents found) (index : Nat) :
    (list.fetch index).1 = answerAt (found.map Prod.snd) index ∧
      (list.fetch index).2.Reads order contents found := by
  obtain ⟨cursor, hfile⟩ := h.file_eq
  unfold Stored.fetch
  split_ifs with hrange
  · exact ⟨(h.indexes.answerAt_of_le hrange).symm, h⟩
  · obtain ⟨word, hanswer, hword⟩ := h.indexes.exists_wordAfter (not_le.mp hrange)
      (Source.bytes_ofFile _)
    -- Seeking comes first, so it does not matter where the cursor was left.
    simp only [hfile, OpenFile.reader, OpenFile.rest, OpenFile.seek, hword]
    exact ⟨hanswer.symm, h.order_eq, h.ascends, h.indexes, _, rfl⟩

/-- A list opened on a file has an index of the words. -/
theorem Stored.reads_of_ofContents {list : Stored}
    (h : Stored.ofContents order percent contents = .ok list) :
    ∃ found, list.Reads order contents found := by
  obtain ⟨fresh, hfresh, h⟩ := bind_eq_ok_iff.mp h
  obtain ⟨s, hs, h⟩ := bind_eq_ok_iff.mp h
  obtain rfl := Except.ok.inj h
  obtain ⟨found, hfound, hascends⟩ := Indexes.of_scan hfresh hs
  rw [Source.bytes_ofFile] at hfound
  exact ⟨found, rfl, hascends, hfound, 0, rfl⟩

/-- A list on mapped bytes with an index of their words. -/
structure Mapped.Reads (list : Mapped) (order : WordOrder) (contents : Bytes)
    (found : List (Nat × Word)) : Prop where
  /-- The list has the order. -/
  order_eq : list.order = order
  /-- The words are in order. -/
  ascends : order.Ascends (found.map Prod.snd)
  /-- The words are indexed. -/
  indexes : Indexes list.size list.sampled contents found
  /-- The bytes are mapped. -/
  contents_eq : list.contents = some contents

/-- A lookup gives the word of the file. -/
theorem Mapped.Reads.get {list : Mapped} (h : list.Reads order contents found) (index : Nat) :
    list.get index = answerAt (found.map Prod.snd) index := by
  unfold Mapped.get
  split_ifs with hrange
  · exact (h.indexes.answerAt_of_le hrange).symm
  · obtain ⟨word, hanswer, hword⟩ := h.indexes.exists_wordAfter (not_le.mp hrange)
      (Source.bytes_singleton _)
    simp only [h.contents_eq, hword]
    exact hanswer.symm

/-- A list opened on mapped bytes has an index of the words. -/
theorem Mapped.reads_of_ofContents {list : Mapped}
    (h : Mapped.ofContents order percent contents = .ok list) :
    ∃ found, list.Reads order contents found := by
  obtain ⟨fresh, hfresh, h⟩ := bind_eq_ok_iff.mp h
  obtain ⟨s, hs, h⟩ := bind_eq_ok_iff.mp h
  obtain rfl := Except.ok.inj h
  obtain ⟨found, hfound, hascends⟩ := Indexes.of_scan hfresh hs
  rw [Source.bytes_singleton] at hfound
  exact ⟨found, rfl, hascends, hfound, rfl⟩

/-- Opening a file and mapping it come to the same. -/
theorem Mapped.ofContents_eq (order : WordOrder) (percent : Int) (contents : Bytes) :
    Mapped.ofContents order percent contents
      = (Stored.ofContents order percent contents).map
          fun list => ⟨order, list.size, list.sampled, some contents⟩ := by
  -- Mapped bytes come in one piece, which makes no difference to the scan.
  rw [Mapped.ofContents, Stored.ofContents, Stored.ofFile, map_bind_eq]
  refine bind_congr fun fresh => ?_
  rw [scan_congr (Source.bytes_singleton_eq_ofFile contents), map_bind_eq]
  rfl

/-- A file that an open list accepts is accepted as mapped bytes, with the same index. -/
theorem Mapped.ofContents_of_stored {list : Stored}
    (h : Stored.ofContents order percent contents = .ok list) :
    Mapped.ofContents order percent contents
      = .ok ⟨order, list.size, list.sampled, some contents⟩ := by
  rw [Mapped.ofContents_eq, h]
  rfl

/-- The same file, mapped, has the same words. -/
theorem Stored.Reads.mapped {list : Stored} (h : list.Reads order contents found) :
    Mapped.Reads ⟨order, list.size, list.sampled, some contents⟩ order contents found :=
  ⟨rfl, h.ascends, h.indexes, rfl⟩

/-! ### The words of a list on disk -/

namespace WordList

/-- A list that indexes the words of an open file holds them. -/
theorem holds_of_stored {list : Stored} (h : list.Reads order contents found) :
    Holds list order (found.map Prod.snd) :=
  Holds.of_invariant (Stored.Reads · order contents found) h (fun _ hl => hl.order_eq)
    (fun _ hl => hl.indexes.length_words) (fun _ hl => hl.fetch)

/-- A list that indexes the words of mapped bytes holds them. -/
theorem holds_of_mapped {list : Mapped} (h : list.Reads order contents found) :
    Holds list order (found.map Prod.snd) :=
  Holds.of_invariant (Mapped.Reads · order contents found) h (fun _ hl => hl.order_eq)
    (fun _ hl => hl.indexes.length_words) (fun _ hl index => ⟨hl.get index, hl⟩)

end WordList

/-- **Disk lookups.** Whatever the share of kept offsets is, a list on an open file and one on
    mapped bytes have the words of the file, and still do after any words have been read. -/
theorem disk_lists_hold_words (order : WordOrder) (percent : Int) (contents : Bytes) :
    (∀ list, Stored.ofContents order percent contents = .ok list →
        ∃ words, Source.words [contents] = .ok words ∧ WordList.Holds list order words) ∧
      ∀ list, Mapped.ofContents order percent contents = .ok list →
        ∃ words, Source.words [contents] = .ok words ∧ WordList.Holds list order words := by
  constructor
  · intro list hlist
    obtain ⟨found, hreads⟩ := Stored.reads_of_ofContents hlist
    exact ⟨found.map Prod.snd, hreads.indexes.words_eq, WordList.holds_of_stored hreads⟩
  · intro list hlist
    obtain ⟨found, hreads⟩ := Mapped.reads_of_ofContents hlist
    exact ⟨found.map Prod.snd, hreads.indexes.words_eq, WordList.holds_of_mapped hreads⟩

/-- The lines "ab", "", "b" and "c", with every kind of ending. -/
def mixedLines : Bytes := [0x61, 0x62, 0x0D, 0x0A, 0x0A, 0x62, 0x0D, 0x63]

/-- Lists of lines with every kind of ending, in which every other offset is kept. -/
theorem disk_lists_hold_mixed_lines :
    (∃ list words, Stored.ofContents .exact 50 mixedLines = .ok list ∧
        Source.words [mixedLines] = .ok words ∧ WordList.Holds list .exact words) ∧
      ∃ list words, Mapped.ofContents .exact 50 mixedLines = .ok list ∧
        Source.words [mixedLines] = .ok words ∧ WordList.Holds list .exact words := by
  obtain ⟨stored, hstored⟩ := exists_eq_ok
    (show (Stored.ofContents .exact 50 mixedLines).isOk = true by decide +kernel)
  obtain ⟨mapped, hmapped⟩ := exists_eq_ok
    (show (Mapped.ofContents .exact 50 mixedLines).isOk = true by decide +kernel)
  have hlists := disk_lists_hold_words .exact 50 mixedLines
  obtain ⟨words, hwords⟩ := hlists.1 stored hstored
  obtain ⟨words', hwords'⟩ := hlists.2 mapped hmapped
  exact ⟨⟨stored, words, hstored, hwords⟩, ⟨mapped, words', hmapped, hwords'⟩⟩

end Lexicon
