import Lexicon.Proofs.Bloom.Folded

namespace Lexicon.Bloom

/-!
# Filters with their storage in full

A filter keeps the storage words that have a bit set.  Here it keeps all of them, and a bit can be
set or looked at only if there is a storage word for it.

* `FullFilter` — a filter with all its storage words; `Filter.full` is that of a filter.
* `FullFilter.insertMany_full`, `FullFilter.contains_full` — no word has a bit without storage.
* `hasBit_insertMany_empty`, `contains_insertMany_empty` — the bits of a filter are those of the
  words that were added.
* `filter_forgets_no_word` — what a filter remembers, and what that of a list finds.
-/

/-- A filter that keeps all its storage words, those without a bit set included. -/
structure FullFilter where
  /-- The number of bits, and of bits to an item. -/
  sizing : Sizing
  /-- The hashes that choose the bits. -/
  hasher : Hasher
  /-- The storage words. -/
  cells : Array UInt64

/-- Number of storage words for a number of bits. -/
def cellsFor (bits : Nat) : Nat := (bits + 63) / 64

/-- The bits of a word. -/
def bitsOf (sizing : Sizing) (hasher : Hasher) (word : Word) : List Nat :=
  (Filter.empty sizing hasher).positions word

/-- The filter with all its storage words. -/
def Filter.full (filter : Filter) : FullFilter :=
  ⟨filter.sizing, filter.hasher,
    Array.ofFn fun index : Fin (cellsFor filter.sizing.bits) => filter.cell index⟩

namespace FullFilter

/-- A filter without items. -/
def empty (sizing : Sizing) (hasher : Hasher) : FullFilter :=
  ⟨sizing, hasher, Array.replicate (cellsFor sizing.bits) 0⟩

/-- Sets a bit, if there is a storage word for it. -/
def setBit (filter : FullFilter) (bit : Nat) : Option FullFilter :=
  if h : bit / 64 < filter.cells.size then
    let mask := (1 : UInt64) <<< UInt64.ofNat (bit % 64)
    some { filter with cells := filter.cells.set (bit / 64) (filter.cells[bit / 64] ||| mask) }
  else none

/-- Whether a bit is set, if there is a storage word for it. -/
def hasBit (filter : FullFilter) (bit : Nat) : Option Bool :=
  if h : bit / 64 < filter.cells.size then
    let mask := (1 : UInt64) <<< UInt64.ofNat (bit % 64)
    some (filter.cells[bit / 64] &&& mask != 0)
  else none

/-- Sets the bits of a word. -/
def insert (filter : FullFilter) (word : Word) : Option FullFilter :=
  (bitsOf filter.sizing filter.hasher word).foldlM setBit filter

/-- Whether all bits of a word are set, one looked at after the other up to the first that is
    not. -/
def contains (filter : FullFilter) (word : Word) : Option Bool :=
  (bitsOf filter.sizing filter.hasher word).allM filter.hasBit

/-- Adds words one after the other. -/
def insertMany (filter : FullFilter) (words : List Word) : Option FullFilter :=
  words.foldlM insert filter

/-! ### Storage for every bit -/

variable {filter : Filter} {bit : Nat}

theorem size_full (filter : Filter) : filter.full.cells.size = cellsFor filter.sizing.bits :=
  Array.size_ofFn

theorem getElem_full {index : Nat} (h : index < filter.full.cells.size) :
    filter.full.cells[index] = filter.cell index :=
  Array.getElem_ofFn h

/-- A filter with all storage words of another one is its full filter. -/
theorem eq_full {full : FullFilter} (hsizing : full.sizing = filter.sizing)
    (hhasher : full.hasher = filter.hasher)
    (hsize : full.cells.size = cellsFor filter.sizing.bits)
    (hcells : ∀ index (h : index < full.cells.size), full.cells[index] = filter.cell index) :
    full = filter.full := by
  obtain ⟨sizing, hasher, cells⟩ := full
  obtain rfl : sizing = filter.sizing := hsizing
  obtain rfl : hasher = filter.hasher := hhasher
  refine congrArg (FullFilter.mk filter.sizing filter.hasher) ?_
  refine Array.ext (hsize.trans Array.size_ofFn.symm) fun index hindex hindex' => ?_
  rw [Array.getElem_ofFn]
  exact hcells index hindex

theorem full_empty (sizing : Sizing) (hasher : Hasher) :
    (Filter.empty sizing hasher).full = empty sizing hasher := by
  refine (eq_full rfl rfl Array.size_replicate fun index hindex => ?_).symm
  simp [empty, Filter.empty, Filter.cell]

/-- There is storage for every bit of a filter, and for some more behind the last. -/
theorem hasBit_full (h : bit < 64 * cellsFor filter.sizing.bits) :
    filter.full.hasBit bit = some (filter.hasBit bit) := by
  have hcell : bit / 64 < filter.full.cells.size := by
    rw [size_full]
    omega
  rw [hasBit, dif_pos hcell, getElem_full]
  rfl

theorem lt_of_lt_bits {bits : Nat} (h : bit < bits) : bit < 64 * cellsFor bits := by
  rw [cellsFor]
  omega

/-- Setting a bit changes the one storage word that has it. -/
theorem setBit_full (h : bit < filter.sizing.bits) :
    filter.full.setBit bit = some (filter.setBit bit).full := by
  have hcell : bit / 64 < filter.full.cells.size := by
    have hbit := lt_of_lt_bits h
    rw [size_full]
    omega
  rw [setBit, dif_pos hcell]
  -- Both sides have the same storage words: the one of the bit is changed alike, the others not.
  refine congrArg some (eq_full rfl rfl ?_ fun index hindex => ?_)
  · rw [Array.size_set, size_full]
    rfl
  · rw [Array.size_set] at hindex
    simp only [Array.getElem_set, Filter.cell_setBit, getElem_full]
    split_ifs with hcell
    · rw [hcell]
    · rfl

/-! ### Words -/

/-- Every bit of a word is one of the bits of the filter. -/
theorem lt_of_mem_bitsOf {sizing : Sizing} {hasher : Hasher} {word : Word}
    (hbits : 0 < sizing.bits) (h : bit ∈ bitsOf sizing hasher word) : bit < sizing.bits := by
  obtain ⟨round, -, rfl⟩ := List.mem_map.mp h
  exact Nat.mod_lt _ hbits

theorem foldlM_setBit_full {bits : List Nat} (h : ∀ bit ∈ bits, bit < filter.sizing.bits) :
    bits.foldlM setBit filter.full = some (bits.foldl Filter.setBit filter).full := by
  induction bits generalizing filter with
  | nil => rfl
  | cons bit bits ih =>
    rw [List.foldlM_cons, setBit_full (h bit List.mem_cons_self)]
    exact ih fun other hother => h other (List.mem_cons_of_mem _ hother)

/-- Adding a word sets no bit without storage. -/
theorem insert_full (hbits : 0 < filter.sizing.bits) (word : Word) :
    filter.full.insert word = some (filter.insert word).full :=
  foldlM_setBit_full fun _ => lt_of_mem_bitsOf hbits

/-- Adding words sets no bit without storage. -/
theorem insertMany_full (hbits : 0 < filter.sizing.bits) (words : List Word) :
    filter.full.insertMany words = some (filter.insertMany words).full := by
  induction words generalizing filter with
  | nil => rfl
  | cons word words ih =>
    -- Adding a word leaves the sizes as they are.
    have hafter : 0 < (filter.insert word).sizing.bits := by
      obtain ⟨cells, hcells⟩ := filter.exists_insert word
      rwa [hcells]
    rw [insertMany, List.foldlM_cons, insert_full hbits]
    exact ih hafter

theorem allM_hasBit_full {bits : List Nat} (h : ∀ bit ∈ bits, bit < filter.sizing.bits) :
    bits.allM filter.full.hasBit = some (bits.all filter.hasBit) := by
  induction bits with
  | nil => rfl
  | cons bit bits ih =>
    rw [List.allM_cons, hasBit_full (lt_of_lt_bits (h bit List.mem_cons_self)),
      ih fun other hother => h other (List.mem_cons_of_mem _ hother), List.all_cons]
    cases filter.hasBit bit <;> rfl

/-- Looking for a word looks at no bit without storage. -/
theorem contains_full (hbits : 0 < filter.sizing.bits) (word : Word) :
    filter.full.contains word = some (filter.contains word) :=
  allM_hasBit_full fun _ => lt_of_mem_bitsOf hbits

end FullFilter

/-! ### The bits of all words -/

section Union

variable (sizing : Sizing) (hasher : Hasher) (added : List Word)

/-- After words were added to an empty filter, exactly their bits are set. -/
theorem hasBit_insertMany_empty (bit : Nat) :
    ((Filter.empty sizing hasher).insertMany added).hasBit bit = true ↔
      ∃ word ∈ added, bit ∈ bitsOf sizing hasher word := by
  simp only [Filter.hasBit_insertMany, Filter.hasBit_empty, Bool.false_eq_true, or_false]
  rfl

/-- After words were added to an empty filter, a word is found exactly if each of its bits is one
    of theirs. -/
theorem contains_insertMany_empty (query : Word) :
    ((Filter.empty sizing hasher).insertMany added).contains query = true ↔
      ∀ bit ∈ bitsOf sizing hasher query, ∃ word ∈ added, bit ∈ bitsOf sizing hasher word := by
  simp only [Filter.contains_insertMany, Filter.hasBit_empty, Bool.false_eq_true, or_false]
  rfl

end Union

/-- A word has bits if it is given any. -/
theorem bitsOf_ne_nil {sizing : Sizing} (h : 0 < sizing.hashes) (hasher : Hasher) (word : Word) :
    bitsOf sizing hasher word ≠ [] := by
  rw [bitsOf, Filter.positions, ne_eq, List.map_eq_nil_iff, List.range_eq_nil]
  exact Nat.ne_of_gt h

/-- A filter is what an empty one has become when some words were added, and answers from their
    bits. -/
structure Filter.Remembers (filter : Filter) (sizing : Sizing) (hasher : Hasher)
    (added : List Word) : Prop where
  /-- There is storage for each bit of the words that were added. -/
  insertMany_eq : (FullFilter.empty sizing hasher).insertMany added = some filter.full
  /-- There are as many storage words as the bits take up. -/
  size_eq : filter.full.cells.size = cellsFor sizing.bits
  /-- The bits in storage are those of the filter. -/
  hasBit_eq : ∀ bit < 64 * cellsFor sizing.bits, filter.full.hasBit bit = some (filter.hasBit bit)
  /-- The bits of the words are set, and no others. -/
  hasBit_iff : ∀ bit, filter.hasBit bit = true ↔ ∃ word ∈ added, bit ∈ bitsOf sizing hasher word
  /-- There is storage for each bit of a query. -/
  contains_eq : ∀ query, filter.full.contains query = some (filter.contains query)
  /-- A query is found exactly if each of its bits is one of the words'. -/
  contains_iff : ∀ query, filter.contains query = true ↔
    ∀ bit ∈ bitsOf sizing hasher query, ∃ word ∈ added, bit ∈ bitsOf sizing hasher word
  /-- Each word is found. -/
  contains_of_mem : ∀ word ∈ added, filter.contains word = true
  /-- What is found stays so. -/
  contains_later : ∀ query later, filter.contains query = true →
    (filter.insertMany later).contains query = true
  /-- Without words, nothing is found. -/
  contains_of_empty : added = [] → ∀ query, filter.contains query = false
  /-- The same words in another order, or more often, leave the same storage. -/
  insertMany_of_mem_iff : ∀ others, (∀ word, word ∈ others ↔ word ∈ added) →
    (FullFilter.empty sizing hasher).insertMany others = some filter.full

/-- An empty filter remembers the words that are added to it. -/
theorem remembers_insertMany {sizing : Sizing} (hbits : 0 < sizing.bits)
    (hhashes : 0 < sizing.hashes) (hasher : Hasher) (added : List Word) :
    ((Filter.empty sizing hasher).insertMany added).Remembers sizing hasher added := by
  have hstored : ∀ words, (FullFilter.empty sizing hasher).insertMany words
      = some ((Filter.empty sizing hasher).insertMany words).full := by
    intro words
    rw [← FullFilter.full_empty]
    exact FullFilter.insertMany_full hbits words
  obtain ⟨cells, hcells⟩ := (Filter.empty sizing hasher).exists_insertMany added
  have hsizing : ((Filter.empty sizing hasher).insertMany added).sizing = sizing := by
    rw [hcells]
    rfl
  refine
    { insertMany_eq := hstored added
      size_eq := ?_
      hasBit_eq := fun bit hbit => FullFilter.hasBit_full (by rwa [hsizing])
      hasBit_iff := hasBit_insertMany_empty sizing hasher added
      contains_eq := FullFilter.contains_full (by rwa [hsizing])
      contains_iff := contains_insertMany_empty sizing hasher added
      contains_of_mem := ?_
      contains_later := ?_
      contains_of_empty := ?_
      insertMany_of_mem_iff := ?_ }
  · rw [FullFilter.size_full, hsizing]
  · intro word hword
    refine (contains_insertMany_empty sizing hasher added word).mpr fun bit hbit => ?_
    exact ⟨word, hword, hbit⟩
  · intro query later hfound
    rw [Filter.contains, List.all_eq_true] at hfound
    exact (Filter.contains_insertMany _ later query).mpr fun bit hbit => .inr (hfound bit hbit)
  · rintro rfl query
    -- A query has at least one bit, which no word has set.
    obtain ⟨bit, hbit⟩ := List.exists_mem_of_ne_nil _ (bitsOf_ne_nil hhashes hasher query)
    rw [← Bool.not_eq_true, contains_insertMany_empty]
    intro hfound
    obtain ⟨word, hword, -⟩ := hfound bit hbit
    exact List.not_mem_nil hword
  · intro others hothers
    -- The same words have the same bits, and these are all that storage words consist of.
    obtain ⟨cells', hcells'⟩ := (Filter.empty sizing hasher).exists_insertMany others
    rw [hstored]
    refine congrArg some (FullFilter.eq_full ?_ ?_ ?_ fun index hindex => ?_)
    · rw [hcells, hcells']
      rfl
    · rw [hcells, hcells']
      rfl
    · rw [FullFilter.size_full, hcells, hcells']
    · rw [FullFilter.getElem_full]
      refine Filter.cell_eq_of_hasBit (fun bit => ?_) index
      simp only [hasBit_insertMany_empty, hothers]

/-- **Filters forget no word.** Under any hashes, words that are added to an empty filter meet
    storage for each of their bits, and set these bits and no others, so that each of them is found
    from then on.  A filter of a list, whenever there is one, finds every query that equals a word
    of the list. -/
theorem filter_forgets_no_word (hasher : Hasher) :
    (∀ sizing : Sizing, 64 ≤ sizing.bits → 1 ≤ sizing.hashes → sizing.hashes ≤ 32 →
      ∀ added : List Word,
        ((Filter.empty sizing hasher).insertMany added).Remembers sizing hasher added) ∧
      ∀ (L : Type) [WordList L] (list after : L) (rate : Float) (folded : FoldedFilter),
        FoldedFilter.ofList hasher rate list = (.ok folded, after) →
        ∃ read, ((Walk.ofList false list).words list).1 = .ok read ∧
          (∀ order words, WordList.Holds list order words → read = words) ∧
          ∀ word ∈ read, ∀ query, (WordList.order list).compare word query = .eq →
            folded.search query = true := by
  constructor
  · intro sizing hbits hhashes _ added
    exact remembers_insertMany (by omega) (by omega) hasher added
  · intro L _ list after rate folded hfolded
    obtain ⟨read, hread, hsearch⟩ := FoldedFilter.search_of_ofList hfolded
    refine ⟨read, hread, fun order words hholds => ?_, hsearch⟩
    exact Except.ok.inj (hread.symm.trans hholds.words_ascending)

/-- A filter whose last storage word is not used up, and one of a list that is blind to case. -/
theorem filter_forgets_no_word_small :
    (64 ≤ (Sizing.mk 70 3).bits ∧ 1 ≤ (Sizing.mk 70 3).hashes ∧ (Sizing.mk 70 3).hashes ≤ 32 ∧
      ((Filter.empty ⟨70, 3⟩ .ofBytes).insertMany [['b'], [], ['b']]).Remembers ⟨70, 3⟩ .ofBytes
        [['b'], [], ['b']]) ∧
      ∃ folded after,
        FoldedFilter.ofList .ofBytes 0.5
            (InMemory.mk (.folding .unicode) #[['A'], ['b']]) = (.ok folded, after) ∧
          folded.search ['B'] = true := by
  have hrate : Sizing.ofRate 2 0.5 = .ok ⟨bitsFor (Float.ofNat 2) 0.5,
      hashesFor (Float.ofNat 2) (bitsFor (Float.ofNat 2) 0.5)⟩ := by
    have hbounds : (0 : Float) < 0.5 ∧ (0.5 : Float) < 1 := by decide
    rw [Sizing.ofRate, if_pos hbounds]
    rfl
  obtain ⟨folded, after, hfolded, -⟩ := FoldedFilter.exists_ofList
    (WordList.holds_inMemory ⟨.folding .unicode, #[['A'], ['b']]⟩) .ofBytes hrate
  refine ⟨⟨by decide, by decide, by decide, ?_⟩, folded, after, hfolded, ?_⟩
  · exact (filter_forgets_no_word .ofBytes).1 ⟨70, 3⟩ (by decide) (by decide) (by decide) _
  · obtain ⟨read, -, hwords, hsearch⟩ :=
      (filter_forgets_no_word .ofBytes).2 InMemory _ after 0.5 folded hfolded
    obtain rfl := hwords _ _ (WordList.holds_inMemory ⟨.folding .unicode, #[['A'], ['b']]⟩)
    exact hsearch ['b'] (by simp) ['B'] (by decide +kernel)

end Lexicon.Bloom
