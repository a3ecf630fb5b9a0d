import Lexicon.Proofs.Dictionary.Backends

namespace Lexicon

/-!
# What loaded structures hold

Whichever backend is chosen, only a file with words loads, and what is loaded answers by these.

* `Backend.Allows` — the answers that a backend may give.
* `Options.exists_reads_of_loadWith` — all backends but the list in memory go through an index of
  the file.
* `Options.answers_of_dictionaryOf` — a dictionary answers by the words of its file.
* `Options.exists_of_treeOf` — a tree has the words of its file.
-/

/-- The answers that a backend may give: the filter may take an unknown word for a known one. -/
def Backend.Allows (backend : Backend) (order : WordOrder) (words : List Word) :
    Word → Bool → Prop :=
  match backend with
  | .bloom => Covers order words
  | .array | .file | .mmap | .tree => Knows order words

namespace Options

variable {options : Options} {hasher : Bloom.Hasher} {contents : Bytes}

/-! ### Files that load -/

/-- A list that loads from a file is open and has an index of the words. -/
theorem exists_reads_of_ofContents {order : WordOrder} {percent : Int}
    (h : (Stored.ofContents order percent contents).isOk = true) :
    ∃ list found, Stored.ofContents order percent contents = .ok list ∧
      list.Reads order contents found := by
  obtain ⟨list, hlist⟩ := exists_eq_ok h
  obtain ⟨found, hreads⟩ := Stored.reads_of_ofContents hlist
  exact ⟨list, found, hlist, hreads⟩

/-- A tree is built from an open list. -/
theorem isOk_of_tree {tree : Ternary.Tree} (h : options.tree (.file contents) = .ok tree) :
    (Stored.ofContents options.order options.percent contents).isOk = true := by
  unfold Options.tree at h
  split at h
  · exact absurd h (by simp)
  · next list hlist =>
    have hstored : Stored.ofContents options.order options.percent contents = .ok list := hlist
    rw [hstored]
    rfl

/-- A file that any backend but the list in memory loads is one that an open list accepts. -/
theorem exists_reads_of_loadWith {backend : Backend} {loaded : Dictionary}
    (h : options.loadWith backend hasher contents = .ok loaded) (hbackend : backend ≠ .array) :
    ∃ list found, Stored.ofContents options.order options.percent contents = .ok list ∧
      list.Reads options.order contents found := by
  apply exists_reads_of_ofContents
  rw [loadWith_eq_ok_iff] at h
  -- Mapped bytes are scanned like those of an open file.
  have hmapped : ∀ list : Mapped,
      Mapped.ofEntry options.order options.percent (.file contents) = .ok list →
        (Stored.ofContents options.order options.percent contents).isOk = true := by
    intro list hlist
    have hlist : Mapped.ofContents options.order options.percent contents = .ok list := hlist
    rw [Mapped.ofContents_eq] at hlist
    obtain ⟨stored, hstored, -⟩ := map_eq_ok_iff.mp hlist
    rw [hstored]
    rfl
  cases backend with
  | array => exact absurd rfl hbackend
  | file =>
    obtain ⟨list, hlist, -⟩ := map_eq_ok_iff.mp h
    have hstored : Stored.ofContents options.order options.percent contents = .ok list :=
      mapError_eq_ok_iff.mp hlist
    rw [hstored]
    rfl
  | mmap =>
    obtain ⟨list, hlist, -⟩ := map_eq_ok_iff.mp h
    exact hmapped list (mapError_eq_ok_iff.mp hlist)
  | tree =>
    obtain ⟨tree, htree, -⟩ := map_eq_ok_iff.mp h
    exact isOk_of_tree htree
  | bloom =>
    obtain ⟨folded, hfilter, -⟩ := map_eq_ok_iff.mp h
    unfold Options.filter at hfilter
    split at hfilter
    · exact absurd hfilter (by simp)
    · next list hlist => exact hmapped list hlist

/-- A file that loads into memory has words. -/
theorem exists_words_of_loadWith_array {loaded : Dictionary}
    (h : options.loadWith .array hasher contents = .ok loaded) :
    ∃ words, Source.words [contents] = .ok words := by
  obtain ⟨list, hlist, -⟩ := map_eq_ok_iff.mp (loadWith_eq_ok_iff.mp h)
  obtain ⟨sources, hsources, -⟩ := bind_eq_ok_iff.mp (mapError_eq_ok_iff.mp hlist)
  rw [List.mapM_cons] at hsources
  obtain ⟨words, hwords, -⟩ := bind_eq_ok_iff.mp hsources
  exact ⟨words, (Source.words_congr (Source.bytes_singleton_eq_ofFile contents)).trans hwords⟩

/-! ### What is loaded -/

/-- Whatever a file is loaded into answers by the words of the file. -/
theorem answers_of_loadWith {backend : Backend} {loaded : Dictionary}
    (h : options.loadWith backend hasher contents = .ok loaded) :
    ∃ words, Source.words [contents] = .ok words ∧
      loaded.Answers (backend.Allows options.order words) := by
  -- A backend that is known to load something with the right answers loaded just that.
  have hloaded : ∀ {allowed : Word → Bool → Prop},
      (∃ other, options.loadWith backend hasher contents = .ok other ∧ other.Answers allowed) →
        loaded.Answers allowed := by
    rintro allowed ⟨other, hother, hanswers⟩
    rwa [Except.ok.inj (h.symm.trans hother)]
  by_cases hbackend : backend = .array
  · subst hbackend
    obtain ⟨words, hwords⟩ := exists_words_of_loadWith_array h
    exact ⟨words, hwords, hloaded (loadWith_array options hasher hwords)⟩
  · obtain ⟨list, found, hlist, hreads⟩ := exists_reads_of_loadWith h hbackend
    refine ⟨found.map Prod.snd, hreads.indexes.words_eq, ?_⟩
    cases backend with
    | array => exact absurd rfl hbackend
    | file => exact hloaded (loadWith_file hasher hlist hreads)
    | mmap => exact hloaded (loadWith_mmap hasher hlist hreads)
    | tree => exact hloaded (loadWith_tree hasher hlist hreads)
    | bloom => exact hloaded (loadWith_bloom hasher hlist hreads)

/-- A dictionary that is loaded from a file answers by the words of the file. -/
theorem answers_of_dictionaryOf {dictionary : Dictionary}
    (h : options.dictionaryOf hasher (.ok (.file contents)) = .ok dictionary) :
    ∃ words, Source.words [contents] = .ok words ∧
      dictionary.Answers (options.backend.Allows options.order words) := by
  have hwith : options.loadWith options.backend hasher contents = .ok dictionary := h
  exact answers_of_loadWith hwith

/-- A tree that is loaded is that of the words of a file, added in some order. -/
theorem exists_of_treeOf {found : Except FileError Entry} {tree : Ternary.Tree}
    (h : options.treeOf found = .ok tree) :
    ∃ contents words visited, found = .ok (.file contents) ∧
      Source.words [contents] = .ok words ∧ visited.Perm words ∧
      tree = Ternary.Tree.ofWords options.order visited := by
  rcases found with e | ⟨contents⟩ | -
  · exact absurd h (by simp [treeOf, load])
  · have h : options.tree (.file contents) = .ok tree := mapError_eq_ok_iff.mp h
    obtain ⟨list, indexed, hlist, hreads⟩ := exists_reads_of_ofContents (isOk_of_tree h)
    obtain ⟨visited, hvisited, htree⟩ := exists_tree hlist hreads
    exact ⟨contents, indexed.map Prod.snd, visited, rfl, hreads.indexes.words_eq, hvisited,
      Except.ok.inj (h.symm.trans htree)⟩
  · -- A directory has no words to be read.
    have hdirectory : ∀ list,
        Stored.ofEntry options.order options.percent .directory ≠ .ok list := by
      intro list hlist
      obtain ⟨-, -, hlist⟩ := bind_eq_ok_iff.mp hlist
      exact absurd hlist (by simp [throw, throwThe, MonadExceptOf.throw])
    have h : options.tree .directory = .ok tree := mapError_eq_ok_iff.mp h
    unfold Options.tree at h
    split at h
    · exact absurd h (by simp)
    · next list hlist => exact absurd hlist (hdirectory list)

end Options

end Lexicon
