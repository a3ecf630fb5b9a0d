import Lexicon.Proofs.WordList.Disk
import Lexicon.Proofs.WordList.Search

namespace Lexicon

/-!
# Files that are handed over open

A list that is given an open file checks the words from the cursor on, but looks words up from
the start of the file.  These are the same words only if the cursor stands at the start.

* `Stored.ofFile_eq` — the list is that of the bytes behind the cursor, with the whole file put in
  their place.
* `Stored.ofFile_checks_from_cursor` — which words are in order, and when they are the ones that
  the list gives.
* `ofFile_misses_words_before_cursor` — with the cursor elsewhere, the list can give words that
  were not checked, and miss others.
-/

namespace Stored

/-- A list on an open file is the list of the bytes from the cursor on, with the whole file put in
    their place. -/
theorem ofFile_eq (order : WordOrder) (percent : Int) (contents : Bytes) (cursor : Nat) :
    ofFile order percent ⟨contents, cursor⟩
      = (ofContents order percent (contents.drop cursor)).map
          fun list => list.overwrite contents := by
  rw [ofContents, ofFile, ofFile, map_bind_eq]
  refine bind_congr fun fresh => ?_
  -- Either way the bytes from the cursor on are scanned, with offsets counted from there.
  rw [map_bind_eq]
  rfl

/-- **Files that are handed over open.** A list on an open file has as many words as there are from
    the cursor on, and these are in order.  If the cursor stands at the start of the file, they are
    the words that the list gives, and the mapped file becomes a list that has the same words. -/
theorem ofFile_checks_from_cursor (order : WordOrder) (percent : Int) (contents : Bytes)
    (cursor : Nat) (list : Stored) (h : ofFile order percent ⟨contents, cursor⟩ = .ok list) :
    ∃ words, Source.words [contents.drop cursor] = .ok words ∧ list.size = words.length ∧
      (∀ i j (hi : i < words.length) (hj : j < words.length), i ≤ j →
        order.compare words[i] words[j] ≠ .gt) ∧
      (cursor = 0 → WordList.Holds list order words ∧
        ∃ mapped, Mapped.ofContents order percent contents = .ok mapped ∧
          mapped.size = list.size ∧ WordList.Holds mapped order words) := by
  have hopened := h
  rw [ofFile_eq] at hopened
  obtain ⟨opened, hopened, hlist⟩ := map_eq_ok_iff.mp hopened
  obtain ⟨found, hreads⟩ := reads_of_ofContents hopened
  refine ⟨found.map Prod.snd, hreads.indexes.words_eq, ?_, ?_, ?_⟩
  · rw [← hlist]
    exact hreads.indexes.length_words
  · intro i j _ hj hij
    exact hreads.ascends.ne_gt hj hij
  · rintro rfl
    -- The file is put in the place of itself.
    have hsame : list = opened := Except.ok.inj (h.symm.trans hopened)
    rw [hsame]
    exact ⟨WordList.holds_of_stored hreads, _, Mapped.ofContents_of_stored hopened, rfl,
      WordList.holds_of_mapped hreads.mapped⟩

/-- A file of lines with every kind of ending, with the cursor at its start. -/
theorem ofFile_at_start_on_mixed_lines :
    ∃ list words, ofFile .exact 50 ⟨mixedLines, 0⟩ = .ok list ∧
      Source.words [mixedLines] = .ok words ∧ WordList.Holds list .exact words := by
  obtain ⟨list, hlist⟩ := exists_eq_ok
    (show (ofFile .exact 50 ⟨mixedLines, 0⟩).isOk = true by decide +kernel)
  obtain ⟨words, hwords, -, -, hstart⟩ :=
    ofFile_checks_from_cursor .exact 50 mixedLines 0 list hlist
  exact ⟨list, words, hlist, hwords, (hstart rfl).1⟩

/-- The lines "a" and "b". -/
def twoLines : Bytes := [0x61, 0x0A, 0x62, 0x0A]

/-- With the cursor behind the first of two lines, an open file becomes a list of one word, which
    is checked to be "b" and looked up as "a"; the mapped file becomes a list of both. -/
theorem ofFile_misses_words_before_cursor :
    ∃ list mapped, ofFile .exact 5 ⟨twoLines, 2⟩ = .ok list ∧
      Mapped.ofContents .exact 5 twoLines = .ok mapped ∧
      Source.words [twoLines.drop 2] = .ok [['b']] ∧ list.size = 1 ∧ mapped.size = 2 ∧
      (list.fetch 0).1 = .ok ['a'] ∧ mapped.get 1 = .ok ['b'] ∧
      (list.fetch 1).1 = .error (.outOfRange 1 1) := by
  refine ⟨⟨.exact, 1, ⟨20, #[0]⟩, some ⟨twoLines, 0⟩⟩, ⟨.exact, 2, ⟨20, #[0]⟩, some twoLines⟩,
    ?_, ?_, ?_, rfl, rfl, ?_, ?_, rfl⟩
  all_goals with_unfolding_all rfl

end Stored

end Lexicon
