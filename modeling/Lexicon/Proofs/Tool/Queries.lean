import Lexicon.Proofs.Text.Blank
import Lexicon.Tool.Queries
import Mathlib.Data.List.ReduceOption

namespace Lexicon.Queries

/-!
# The queries of an input

The input is read a line at a time.  What comes of it can be told from all its lines at once.

* `ofLines` — the queries in some lines.
* `Typed`, `typed_iff` — the queries that are typed in some lines, one line after the other.
* `splitOn_lineFeed` — the first line and the later ones.
* `ofInput_eq` — the queries of an input are those in its lines.
-/

/-- The queries in some lines: what stands in front of the first line that is not UTF-8, line by
    line and trimmed, unless nothing is left of it. -/
def ofLines (lines : List Bytes) : Queries where
  texts :=
    (((lines.map Utf8.decode?).takeWhile Option.isSome).reduceOption.map trim).filter (· ≠ [])
  broken := lines.any fun line => (Utf8.decode? line).isNone

/-- Lines, and the queries that are typed in them. -/
inductive Typed : List Bytes → Queries → Prop
  /-- Without a line there is no query. -/
  | nothing : Typed [] ⟨[], false⟩
  /-- A line that is not UTF-8 cuts the queries short. -/
  | cutShort {line : Bytes} {lines : List Bytes} (broken : Utf8.decode? line = none) :
      Typed (line :: lines) ⟨[], true⟩
  /-- A line of nothing but white space asks nothing. -/
  | blank {line : Bytes} {lines : List Bytes} {text : Text} {later : Queries}
      (decoded : Utf8.decode? line = some text) (trimmed : Trims text [])
      (typed : Typed lines later) : Typed (line :: lines) later
  /-- Any other line asks for what stands between the white space at its ends. -/
  | query {line : Bytes} {lines : List Bytes} {text query : Text} {later : Queries}
      (decoded : Utf8.decode? line = some text) (trimmed : Trims text query) (ne_nil : query ≠ [])
      (typed : Typed lines later) : Typed (line :: lines) ⟨query :: later.texts, later.broken⟩

/-! ### Line by line -/

theorem ofLines_cons_none {line : Bytes} (h : Utf8.decode? line = none) (lines : List Bytes) :
    ofLines (line :: lines) = ⟨[], true⟩ := by
  simp [ofLines, h]

theorem ofLines_cons_some {line : Bytes} {text : Text} (h : Utf8.decode? line = some text)
    (lines : List Bytes) :
    ofLines (line :: lines)
      = ⟨(if trim text = [] then [] else [trim text]) ++ (ofLines lines).texts,
          (ofLines lines).broken⟩ := by
  by_cases htrim : trim text = [] <;> simp [ofLines, h, htrim, List.reduceOption_cons_of_some]

theorem ofLines_cons_blank {line : Bytes} {text : Text} (h : Utf8.decode? line = some text)
    (htrim : trim text = []) (lines : List Bytes) : ofLines (line :: lines) = ofLines lines := by
  rw [ofLines_cons_some h, if_pos htrim, List.nil_append]

theorem ofLines_cons_query {line : Bytes} {text : Text} (h : Utf8.decode? line = some text)
    (htrim : trim text ≠ []) (lines : List Bytes) :
    ofLines (line :: lines) = ⟨trim text :: (ofLines lines).texts, (ofLines lines).broken⟩ := by
  rw [ofLines_cons_some h, if_neg htrim, List.singleton_append]

/-- The queries in some lines are typed in them. -/
theorem typed_ofLines (lines : List Bytes) : Typed lines (ofLines lines) := by
  induction lines with
  | nil => exact .nothing
  | cons line lines ih =>
    cases hline : Utf8.decode? line with
    | none =>
      rw [ofLines_cons_none hline]
      exact .cutShort hline
    | some text =>
      by_cases htrim : trim text = []
      · rw [ofLines_cons_blank hline htrim]
        exact .blank hline (trim_eq_iff.mp htrim) ih
      · rw [ofLines_cons_query hline htrim]
        exact .query hline (trims_trim text) htrim ih

/-- **Queries line by line.** What is typed in some lines are the queries in them, and no others:
    there is one way only to take the white space off a line. -/
theorem typed_iff {lines : List Bytes} {queries : Queries} :
    Typed lines queries ↔ queries = ofLines lines := by
  constructor
  · intro h
    induction h with
    | nothing => rfl
    | cutShort hline => rw [ofLines_cons_none hline]
    | blank hline htrims _ ih => rw [ofLines_cons_blank hline htrims.trim_eq, ih]
    | query hline htrims hne _ ih =>
      -- What is left of the line is what trimming leaves, as nothing else could be left.
      obtain rfl := htrims.trim_eq
      rw [ofLines_cons_query hline hne, ih]
  · rintro rfl
    exact typed_ofLines lines

/-- Where nothing is left, there is a last line without anything to ask. -/
theorem ofLines_splitOn_nil : ofLines (List.splitOn lineFeed []) = ⟨[], false⟩ := by
  -- An empty input has one line, which is empty and so decodes to the empty text.
  have hempty : Utf8.decode? [] = some [] := by
    unfold Utf8.decode?
    rfl
  rw [List.splitOn_nil, ofLines_cons_blank hempty rfl]
  rfl

/-! ### All lines -/

/-- An input is its first line and, if that is ended, the later ones. -/
theorem splitOn_lineFeed (input : Bytes) :
    input.splitOn lineFeed = firstLine input ::
      if lineFeed ∈ input then (laterLines input).splitOn lineFeed else [] := by
  have hfront : lineFeed ∉ firstLine input := by
    intro hmem
    simpa using List.mem_takeWhile_imp hmem
  have hsplit : firstLine input ++ input.dropWhile (· != lineFeed) = input :=
    List.takeWhile_append_dropWhile
  -- What is behind the first line is either nothing, or begins with the line feed that ends it.
  cases hback : input.dropWhile (· != lineFeed) with
  | nil =>
    rw [hback, List.append_nil] at hsplit
    rw [hsplit] at hfront ⊢
    rw [if_neg hfront, List.splitOn_eq_singleton hfront]
  | cons b later =>
    obtain rfl : b = lineFeed := by
      have hhead := List.head?_dropWhile_not (· != lineFeed) input
      simpa [hback] using hhead
    have hlater : laterLines input = later := by
      rw [laterLines, hback, List.drop_one, List.tail_cons]
    rw [hback] at hsplit
    have hmem : lineFeed ∈ input := by
      rw [← hsplit]
      exact List.mem_append_right _ List.mem_cons_self
    calc input.splitOn lineFeed
        = (firstLine input ++ lineFeed :: later).splitOn lineFeed := by rw [hsplit]
      _ = firstLine input :: later.splitOn lineFeed :=
          List.splitOn_append_cons_self_of_not_mem hfront later
      _ = _ := by rw [if_pos hmem, hlater]

/-- Behind a first line that is not ended, there might as well be an empty one. -/
theorem ofLines_splitOn (input : Bytes) :
    ofLines (input.splitOn lineFeed)
      = ofLines (firstLine input :: (laterLines input).splitOn lineFeed) := by
  rw [splitOn_lineFeed input]
  split_ifs with hmem
  · rfl
  · -- Nothing follows a line that is not ended, and nothing is asked by an empty line.
    have hlater : laterLines input = [] := by
      have hall : ∀ b ∈ input, (b != lineFeed) = true := by
        intro b hb
        rw [bne_iff_ne]
        rintro rfl
        exact hmem hb
      rw [laterLines, List.dropWhile_eq_nil_iff.mpr hall, List.drop_nil]
    rw [hlater]
    cases hline : Utf8.decode? (firstLine input) with
    | none => rw [ofLines_cons_none hline, ofLines_cons_none hline]
    | some text =>
      rw [ofLines_cons_some hline, ofLines_cons_some hline, ofLines_splitOn_nil]
      rfl

/-- The queries of an input are those in its lines, behind those that were found before. -/
theorem ofInputAfter_eq (found : List Text) (input : Bytes) :
    ofInputAfter found input
      = ⟨found.reverse ++ (ofLines (input.splitOn lineFeed)).texts,
          (ofLines (input.splitOn lineFeed)).broken⟩ := by
  fun_induction ofInputAfter found input with
  | case1 found => rw [ofLines_splitOn_nil, List.append_nil]
  | case2 found input hinput hline =>
    rw [ofLines_splitOn, ofLines_cons_none hline, List.append_nil]
  | case3 found input hinput line hline hlength query ih =>
    -- The query goes to the front of those found, and so to the end once these are reversed.
    refine ih.trans ?_
    rw [ofLines_splitOn input]
    by_cases hquery : query = []
    · rw [dif_pos (List.isEmpty_iff.mpr hquery), ofLines_cons_blank hline hquery]
    · rw [dif_neg (mt List.isEmpty_iff.mp hquery), ofLines_cons_query hline hquery,
        List.reverse_cons, List.append_assoc, List.singleton_append]

/-- **Queries on standard input.** They are the trimmed lines in front of the first that is not
    UTF-8, but for those of white space alone; such a line cuts them short. -/
theorem ofInput_eq (input : Bytes) : ofInput input = ofLines (input.splitOn lineFeed) :=
  ofInputAfter_eq [] input

end Lexicon.Queries
