import Lexicon.Proofs.Order.Encoding
import Lexicon.Proofs.Reading.Maximal
import Lexicon.Proofs.Text.Lines

namespace Lexicon

/-!
# Reading against decoding

A reader cuts bytes first and decodes every run by itself.  It comes to the same to decode all
bytes and to cut the text then: no byte of a character looks like a terminator unless the
character is one.

* `map_snd_runsFrom` — the runs of some bytes are their pieces.
* `Utf8.pieces_encode` — the pieces of an encoded text encode the lines of the text.
* `Utf8.exists_encode_of_pieces` — bytes whose pieces encode texts encode a text.
* `Source.words_eq_ok_iff_lines` — hence a source has words exactly if it encodes a text, and they
  are the lines of that text.
* `Source.words_commute_with_decoding` — the same for every source, and what is laid out is read.
-/

/-! ### Characters and terminators -/

theorem isTerminator_iff {b : UInt8} :
    isTerminator b = true ↔ b = lineFeed ∨ b = carriageReturn := by
  simp [isTerminator]

namespace Utf8

theorem encode_cons (c : Char) (text : Text) : encode (c :: text) = encodeChar c ++ encode text :=
  List.flatMap_cons

theorem encode_append (a b : Text) : encode (a ++ b) = encode a ++ encode b :=
  List.flatMap_append

/-- Different texts have different bytes. -/
theorem encode_injective : Function.Injective encode := by
  intro a b h
  have hdecode := congrArg decode? h
  rw [decode?_encode, decode?_encode] at hdecode
  exact Option.some.inj hdecode

/-- A byte of a character is the character itself, or none of the first 128. -/
theorem toNat_of_mem_encodeChar {c : Char} {b : UInt8} (h : b ∈ encodeChar c) :
    b.toNat = c.toNat ∨ 0x80 ≤ b.toNat := by
  have hvalue := toNat_lt_fourBytes c
  unfold encodeChar at h
  dsimp only at h
  -- All bytes of the longer forms carry a mark.
  split_ifs at h with hone
  all_goals
    simp only [List.mem_cons, List.not_mem_nil, or_false] at h
    rcases h with rfl | rfl | rfl | rfl
  all_goals
    rw [toNat_byte (by omega)]
    omega

/-- A character that ends a line is one byte that does. -/
theorem exists_terminator_of_isBreak {c : Char} (hc : isBreak c = true) :
    ∃ b, encodeChar c = [b] ∧ isTerminator b = true := by
  rcases isBreak_iff.mp hc with rfl | rfl
  · exact ⟨lineFeed, rfl, rfl⟩
  · exact ⟨carriageReturn, rfl, rfl⟩

/-- A byte that ends a line is a character that does. -/
theorem exists_break_of_isTerminator {b : UInt8} (hb : isTerminator b = true) :
    ∃ c, encodeChar c = [b] ∧ isBreak c = true := by
  rcases isTerminator_iff.mp hb with rfl | rfl
  · exact ⟨'\n', rfl, rfl⟩
  · exact ⟨'\r', rfl, rfl⟩

/-- No byte of another character ends a line. -/
theorem isTerminator_of_mem_encodeChar {c : Char} (hc : isBreak c = false) :
    ∀ b ∈ encodeChar c, isTerminator b = false := by
  intro b hb
  have hvalue := toNat_of_mem_encodeChar hb
  rw [← Bool.not_eq_true, isBreak_iff] at hc
  rw [← Bool.not_eq_true, isTerminator_iff]
  rintro (rfl | rfl)
  · exact hc (.inl (Char.toNat_inj.mp (hvalue.resolve_right (by decide)).symm))
  · exact hc (.inr (Char.toNat_inj.mp (hvalue.resolve_right (by decide)).symm))

/-! ### Cutting -/

/-- An encoded text is cut where the text is. -/
theorem splitOnP_encode (text : Text) :
    (encode text).splitOnP isTerminator = (text.splitOnP isBreak).map encode := by
  induction text with
  | nil => rfl
  | cons c text ih =>
    rw [encode_cons, List.splitOnP_cons_eq_if_modifyHead]
    by_cases hc : isBreak c = true
    · obtain ⟨b, hbyte, hb⟩ := exists_terminator_of_isBreak hc
      rw [hbyte, List.singleton_append, List.splitOnP_cons_eq_if_modifyHead, if_pos hb, if_pos hc,
        ih]
      rfl
    · have hplain := isTerminator_of_mem_encodeChar (by simpa using hc)
      rw [splitOnP_append_of_forall hplain, if_neg hc, ih]
      -- The character goes to the first part on either side.
      cases text.splitOnP isBreak with
      | nil => rfl
      | cons first later => simp [encode_cons]

theorem isEmpty_encode (text : Text) : (encode text).isEmpty = text.isEmpty := by
  cases text with
  | nil => rfl
  | cons c text => simp [encode_cons, encodeChar_ne_nil]

/-- The pieces of an encoded text encode the lines of the text. -/
theorem pieces_encode (text : Text) :
    pieces isTerminator (encode text) = (linesOf text).map encode := by
  unfold linesOf pieces
  rw [splitOnP_encode, List.filter_map]
  congr 1
  exact List.filter_congr fun line _ => congrArg (!·) (isEmpty_encode line)

end Utf8

/-! ### Runs -/

/-- The runs of some bytes are their pieces. -/
theorem map_snd_runsFrom (position : Nat) (bytes : Bytes) :
    (runsFrom position bytes).map Prod.snd = pieces isTerminator bytes := by
  induction bytes using runs_induction generalizing position with
  | nil => simp
  | terminator b rest hb ih => rw [runsFrom_terminator hb, pieces_cons hb, ih]
  | plain text rest hne htext hhead ih =>
    rw [runsFrom_plain htext hne hhead, pieces_plain_append hne htext hhead, List.map_cons, ih]

/-- Bytes whose pieces encode texts encode a text. -/
theorem Utf8.exists_encode_of_pieces {bytes : Bytes}
    (h : ∀ piece ∈ pieces isTerminator bytes, ∃ text, piece = encode text) :
    ∃ text, bytes = encode text := by
  induction bytes using runs_induction with
  | nil => exact ⟨[], rfl⟩
  | terminator b rest hb ih =>
    rw [pieces_cons hb] at h
    obtain ⟨text, rfl⟩ := ih h
    obtain ⟨c, hbyte, -⟩ := exists_break_of_isTerminator hb
    exact ⟨c :: text, by rw [encode_cons, hbyte, List.singleton_append]⟩
  | plain piece rest hne hpiece hhead ih =>
    rw [pieces_plain_append hne hpiece hhead, List.forall_mem_cons] at h
    obtain ⟨⟨front, rfl⟩, hlater⟩ := h
    obtain ⟨back, rfl⟩ := ih hlater
    exact ⟨front ++ back, (encode_append front back).symm⟩

/-! ### Words -/

/-- Runs decode to words exactly if they are what the words encode to. -/
theorem exists_decodeRuns_iff (runs : List (Nat × Bytes)) (words : List Word) :
    (∃ found, decodeRuns runs = some found ∧ words = found.map Prod.snd) ↔
      runs.map Prod.snd = words.map Utf8.encode := by
  induction runs generalizing words with
  | nil => simp [decodeRuns, eq_comm]
  | cons run later ih =>
    obtain ⟨offset, text⟩ := run
    constructor
    · rintro ⟨found, hfound, rfl⟩
      obtain ⟨word, rest, hword, hrest, rfl⟩ := decodeRuns_cons_eq_some hfound
      have hlater := (ih (rest.map Prod.snd)).mp ⟨rest, hrest, rfl⟩
      rw [List.map_cons, List.map_cons, List.map_cons, hlater]
      exact congrArg (· :: _) (Utf8.decode?_eq_some_iff.mp hword)
    · intro h
      obtain ⟨word, rest, rfl, hword, hrest⟩ := List.map_eq_cons_iff.mp h.symm
      obtain ⟨found, hfound, rfl⟩ := (ih rest).mpr hrest.symm
      refine ⟨(offset, word) :: found, ?_, rfl⟩
      rw [decodeRuns, Utf8.decode?_eq_some_iff.mpr hword.symm, hfound]

/-- A source has words exactly if its pieces are what the words encode to. -/
theorem Source.words_eq_ok_iff_pieces (source : Source) (words : List Word) :
    source.words = .ok words ↔ pieces isTerminator source.bytes = words.map Utf8.encode := by
  rw [Source.words_eq_ok_iff, exists_decodeRuns_iff, map_snd_runsFrom]

/-- A source has words exactly if it encodes a text, and then they are the lines of the text. -/
theorem Source.words_eq_ok_iff_lines (source : Source) (words : List Word) :
    source.words = .ok words ↔ ∃ text, source.bytes = Utf8.encode text ∧ words = linesOf text := by
  rw [Source.words_eq_ok_iff_pieces]
  constructor
  · intro h
    have hpieces : ∀ piece ∈ pieces isTerminator source.bytes,
        ∃ text, piece = Utf8.encode text := by
      rw [h]
      exact List.forall_mem_map.mpr fun word _ => ⟨word, rfl⟩
    obtain ⟨text, htext⟩ := Utf8.exists_encode_of_pieces hpieces
    rw [htext, Utf8.pieces_encode] at h
    exact ⟨text, htext, (Utf8.encode_injective.list_map h).symm⟩
  · rintro ⟨text, htext, rfl⟩
    rw [htext, Utf8.pieces_encode]

/-- **Reading commutes with decoding.** In whatever pieces the bytes of a source arrive, it has
    words exactly if all its bytes encode a text, and the words are that text cut at every line feed
    and every carriage return, without the empty parts.  So words without a break that are laid out
    one on a line, with any line ends and any blank lines, are read as they are. -/
theorem Source.words_commute_with_decoding (source : Source) :
    ((∃ words, source.words = .ok words) ↔ ∃ text, source.bytes = Utf8.encode text) ∧
      (∀ text, source.bytes = Utf8.encode text → source.words = .ok (linesOf text)) ∧
      ∀ (words : List Word) (text : Text),
        (∀ word ∈ words, word ≠ [] ∧ ∀ c ∈ word, isBreak c = false) → LaidOut words text →
          source.bytes = Utf8.encode text → source.words = .ok words := by
  have hlines : ∀ text, source.bytes = Utf8.encode text → source.words = .ok (linesOf text) := by
    intro text htext
    exact (source.words_eq_ok_iff_lines _).mpr ⟨text, htext, rfl⟩
  refine ⟨⟨?_, ?_⟩, hlines, ?_⟩
  · rintro ⟨words, hwords⟩
    obtain ⟨text, htext, -⟩ := (source.words_eq_ok_iff_lines words).mp hwords
    exact ⟨text, htext⟩
  · rintro ⟨text, htext⟩
    exact ⟨linesOf text, hlines text htext⟩
  · intro words text hwords hlaid htext
    rw [hlines text htext, hlaid.linesOf_eq hwords]

/-- Two words with a blank line between them, in pieces that part a line's end and a character. -/
theorem Source.words_of_parted_lines :
    LaidOut [['a'], ['é']] ['a', '\r', '\n', '\r', 'é'] ∧
      Source.words [[0x61, 0x0D], [0x0A, 0x0D, 0xC3], [0xA9]] = .ok [['a'], ['é']] := by
  have hlaid : LaidOut [['a'], ['é']] ['a', '\r', '\n', '\r', 'é'] :=
    .line ['a'] .both (.blank .carriage (.last ['é']))
  obtain ⟨-, -, hread⟩ :=
    words_commute_with_decoding [[0x61, 0x0D], [0x0A, 0x0D, 0xC3], [0xA9]]
  exact ⟨hlaid, hread _ _ (by simp [isBreak]) hlaid rfl⟩

end Lexicon
