import Lexicon.Loading
import Lexicon.Proofs.Dictionary.Answers
import Lexicon.Proofs.Sort.Sorter
import Lexicon.Proofs.WordList.Disk

namespace Lexicon.Options

/-!
# All backends answer alike

* `loadWith` — what the options load with another backend.
* `loadWith_array` — the words of a file, in any order, load into memory and are known from there.
* `loadWith_file`, `loadWith_mmap`, `loadWith_tree`, `loadWith_bloom` — what a file that an open
  list accepts loads as, and what that answers.
* `exists_tree` — the tree of such a file.
* `backends_agree` — all backends load what the file backend loads, and give its answers.
-/

variable {options : Options} {hasher : Bloom.Hasher} {contents : Bytes}

/-- What the options load from a file with the given contents, with another backend. -/
def loadWith (options : Options) (backend : Backend) (hasher : Bloom.Hasher) (contents : Bytes) :
    Except UsageError Dictionary :=
  { options with backend }.dictionaryOf hasher (.ok (.file contents))

theorem loadWith_eq_ok_iff {backend : Backend} {loaded : Dictionary} :
    options.loadWith backend hasher contents = .ok loaded ↔
      { options with backend }.dictionary hasher (.file contents) = .ok loaded :=
  mapError_eq_ok_iff

/-- The words of a file, sorted or not, load into memory, and are known from there. -/
theorem loadWith_array (options : Options) (hasher : Bloom.Hasher) {words : List Word}
    (hwords : Source.words [contents] = .ok words) :
    ∃ loaded, options.loadWith .array hasher contents = .ok loaded ∧
      loaded.Answers (Knows options.order words) := by
  -- A file is read in pieces, but its words are those of all its bytes.
  rw [Source.words_congr (Source.bytes_singleton_eq_ofFile contents)] at hwords
  have hlist : InMemory.ofEntry options.order (some .quick) (.file contents)
      = .ok (InMemory.sortedBy .quick options.order words) := by
    have hsources : [Source.ofFile contents].mapM Source.words = .ok [words] := by
      simp [hwords, bind, Except.bind, pure, Except.pure]
    refine bind_eq_ok_iff.mpr ⟨[words], hsources, ?_⟩
    rw [List.flatten_singleton]
    rfl
  refine ⟨.inMemory (InMemory.sortedBy .quick options.order words), ?_, ?_⟩
  · rw [loadWith_eq_ok_iff]
    exact map_eq_ok_iff.mpr ⟨_, mapError_eq_ok_iff.mpr hlist, rfl⟩
  · have hholds := WordList.holds_inMemory (InMemory.sortedBy .quick options.order words)
    exact (Dictionary.answers_of_holds .inMemory (fun _ _ => rfl) hholds
      (Sorter.quick.sort_ascends options.order words)).perm
      (Sorter.quick.sort_perm options.order words)

/-! ### Files of words in order -/

/-- A list that loads from a file is open and has an index of the words. -/
theorem reads_of_loadWith_file {loaded : Dictionary}
    (h : options.loadWith .file hasher contents = .ok loaded) :
    ∃ list found, loaded = .stored list ∧
      Stored.ofContents options.order options.percent contents = .ok list ∧
      list.Reads options.order contents found := by
  obtain ⟨list, hlist, rfl⟩ := map_eq_ok_iff.mp (loadWith_eq_ok_iff.mp h)
  have hstored : Stored.ofContents options.order options.percent contents = .ok list :=
    mapError_eq_ok_iff.mp hlist
  obtain ⟨found, hreads⟩ := Stored.reads_of_ofContents hstored
  exact ⟨list, found, rfl, hstored, hreads⟩

variable {list : Stored} {found : List (Nat × Word)}

/-- A list in an open file knows its words. -/
theorem answers_stored (hreads : list.Reads options.order contents found) :
    (Dictionary.stored list).Answers (Knows options.order (found.map Prod.snd)) :=
  Dictionary.answers_of_holds .stored (fun _ _ => rfl) (WordList.holds_of_stored hreads)
    hreads.ascends

/-- A file that an open list accepts loads as that list. -/
theorem loadWith_file (hasher : Bloom.Hasher)
    (hlist : Stored.ofContents options.order options.percent contents = .ok list)
    (hreads : list.Reads options.order contents found) :
    ∃ loaded, options.loadWith .file hasher contents = .ok loaded ∧
      loaded.Answers (Knows options.order (found.map Prod.snd)) := by
  refine ⟨.stored list, ?_, answers_stored hreads⟩
  rw [loadWith_eq_ok_iff]
  exact map_eq_ok_iff.mpr ⟨list, mapError_eq_ok_iff.mpr hlist, rfl⟩

/-- A file that an open list accepts loads as mapped memory. -/
theorem loadWith_mmap (hasher : Bloom.Hasher)
    (hlist : Stored.ofContents options.order options.percent contents = .ok list)
    (hreads : list.Reads options.order contents found) :
    ∃ loaded, options.loadWith .mmap hasher contents = .ok loaded ∧
      loaded.Answers (Knows options.order (found.map Prod.snd)) := by
  have hmapped := Mapped.ofContents_of_stored hlist
  refine ⟨.mapped ⟨options.order, list.size, list.sampled, some contents⟩, ?_, ?_⟩
  · rw [loadWith_eq_ok_iff]
    exact map_eq_ok_iff.mpr ⟨_, mapError_eq_ok_iff.mpr hmapped, rfl⟩
  · exact Dictionary.answers_of_holds .mapped (fun _ _ => rfl)
      (WordList.holds_of_mapped hreads.mapped) hreads.ascends

/-- A file that an open list accepts becomes the tree of its words, added in some order. -/
theorem exists_tree
    (hlist : Stored.ofContents options.order options.percent contents = .ok list)
    (hreads : list.Reads options.order contents found) :
    ∃ visited, visited.Perm (found.map Prod.snd) ∧
      options.tree (.file contents) = .ok (Ternary.Tree.ofWords options.order visited) := by
  have hholds := WordList.holds_of_stored hreads
  -- The words are added in the order of the walk.
  obtain ⟨visited, after, hvisited, hfold⟩ := hholds.fold_ofList options.median
    Ternary.Tree.insert (Ternary.Tree.empty options.order)
  refine ⟨visited, hvisited, ?_⟩
  have hentry : Stored.ofEntry options.order options.percent (.file contents) = .ok list := hlist
  simp only [tree, hentry, Ternary.Tree.ofList, hholds.order_now, hfold]
  rfl

/-- A file that an open list accepts loads as a tree, which knows the same words in whichever
    order they were added. -/
theorem loadWith_tree (hasher : Bloom.Hasher)
    (hlist : Stored.ofContents options.order options.percent contents = .ok list)
    (hreads : list.Reads options.order contents found) :
    ∃ loaded, options.loadWith .tree hasher contents = .ok loaded ∧
      loaded.Answers (Knows options.order (found.map Prod.snd)) := by
  obtain ⟨visited, hvisited, htree⟩ := exists_tree hlist hreads
  refine ⟨.tree (Ternary.Tree.ofWords options.order visited), ?_, ?_⟩
  · rw [loadWith_eq_ok_iff]
    exact map_eq_ok_iff.mpr ⟨_, htree, rfl⟩
  · exact (Dictionary.answers_tree options.order visited).perm hvisited

/-- There is a size of a filter for any number of words. -/
theorem exists_sizing (count : Nat) :
    ∃ sizing, Bloom.Sizing.ofRate count filterRate = .ok sizing := by
  have hrate : 0 < filterRate ∧ filterRate < 1 := by decide
  unfold Bloom.Sizing.ofRate
  rw [if_pos hrate]
  exact ⟨_, rfl⟩

/-- A file that an open list accepts loads as a filter. -/
theorem loadWith_bloom (hasher : Bloom.Hasher)
    (hlist : Stored.ofContents options.order options.percent contents = .ok list)
    (hreads : list.Reads options.order contents found) :
    ∃ loaded, options.loadWith .bloom hasher contents = .ok loaded ∧
      loaded.Answers (Covers options.order (found.map Prod.snd)) := by
  have hholds := WordList.holds_of_mapped hreads.mapped
  obtain ⟨sizing, hsizing⟩ := exists_sizing (found.map Prod.snd).length
  obtain ⟨folded, after, hfolded, hsearch⟩ := Bloom.FoldedFilter.exists_ofList hholds hasher hsizing
  have hfilter : options.filter hasher (.file contents) = .ok folded := by
    have hentry : Mapped.ofEntry options.order options.percent (.file contents)
        = .ok ⟨options.order, list.size, list.sampled, some contents⟩ :=
      Mapped.ofContents_of_stored hlist
    simp only [filter, hentry, hfolded]
  refine ⟨.filter folded, ?_, Dictionary.answers_filter hsearch⟩
  rw [loadWith_eq_ok_iff]
  exact map_eq_ok_iff.mpr ⟨_, hfilter, rfl⟩

/-! ### All backends -/

/-- **Backends agree.** What the file backend loads, all others load too; the list in memory, the
    list in mapped memory and the tree know exactly the words of the file, as the open file does,
    and the filter misses none of them.  The list in memory does so for every file that can be
    read, sorted or not. -/
theorem backends_agree (options : Options) (hasher : Bloom.Hasher) (contents : Bytes) :
    (∀ loaded, options.loadWith .file hasher contents = .ok loaded →
      ∃ words, Source.words [contents] = .ok words ∧
        loaded.Answers (Knows options.order words) ∧
        (∃ array, options.loadWith .array hasher contents = .ok array ∧
          array.Answers (Knows options.order words)) ∧
        (∃ mapped, options.loadWith .mmap hasher contents = .ok mapped ∧
          mapped.Answers (Knows options.order words)) ∧
        (∃ tree, options.loadWith .tree hasher contents = .ok tree ∧
          tree.Answers (Knows options.order words)) ∧
        ∃ filter, options.loadWith .bloom hasher contents = .ok filter ∧
          filter.Answers (Covers options.order words)) ∧
      ∀ words, Source.words [contents] = .ok words →
        ∃ array, options.loadWith .array hasher contents = .ok array ∧
          array.Answers (Knows options.order words) := by
  constructor
  · intro loaded hloaded
    obtain ⟨list, found, rfl, hlist, hreads⟩ := reads_of_loadWith_file hloaded
    have hwords := hreads.indexes.words_eq
    have harray := loadWith_array options hasher hwords
    have hmapped := loadWith_mmap hasher hlist hreads
    have htree := loadWith_tree hasher hlist hreads
    have hfilter := loadWith_bloom hasher hlist hreads
    exact ⟨found.map Prod.snd, hwords, answers_stored hreads, harray, hmapped, htree, hfilter⟩
  · intro words hwords
    exact loadWith_array options hasher hwords

/-- Options for words that differ in case, and for trees in median order. -/
def medianOptions : Options := ⟨[], .file, true, 5, true⟩

/-- The backends agree on a file of two words in order, and the list in memory knows the words of
    one where they are not. -/
theorem backends_agree_on_two_words :
    (∃ loaded words filter,
      medianOptions.loadWith .file .ofBytes [0x61, 0x0A, 0x62] = .ok loaded ∧
        Source.words [[0x61, 0x0A, 0x62]] = .ok words ∧
        loaded.Answers (Knows medianOptions.order words) ∧
        medianOptions.loadWith .bloom .ofBytes [0x61, 0x0A, 0x62] = .ok filter ∧
        filter.Answers (Covers medianOptions.order words)) ∧
      ∃ words array, Source.words [[0x62, 0x0A, 0x61]] = .ok words ∧
        medianOptions.loadWith .array .ofBytes [0x62, 0x0A, 0x61] = .ok array ∧
        array.Answers (Knows medianOptions.order words) := by
  obtain ⟨loaded, hloaded⟩ := exists_eq_ok
    (show (medianOptions.loadWith .file .ofBytes [0x61, 0x0A, 0x62]).isOk = true by
      decide +kernel)
  obtain ⟨unsorted, hunsorted⟩ := exists_eq_ok
    (show (Source.words [[0x62, 0x0A, 0x61]]).isOk = true by decide +kernel)
  obtain ⟨words, hwords, hanswers, -, -, -, filter, hfilter, hcovers⟩ :=
    (backends_agree medianOptions .ofBytes [0x61, 0x0A, 0x62]).1 loaded hloaded
  obtain ⟨array, harray, hknows⟩ :=
    (backends_agree medianOptions .ofBytes [0x62, 0x0A, 0x61]).2 unsorted hunsorted
  exact ⟨⟨loaded, words, filter, hloaded, hwords, hanswers, hfilter, hcovers⟩,
    ⟨unsorted, array, hunsorted, harray, hknows⟩⟩

end Lexicon.Options
