import Lexicon.Text.Blank
import Mathlib.Data.List.TakeWhile

namespace Lexicon

/-!
# White space at the ends of a text

* `Trims` — what is left of a text without the white space at its ends.
* `trim_eq_iff` — trimming leaves that, and there is nothing else that could be left.
-/

/-- A text, and what is left of it without the white space at its ends. -/
structure Trims (text trimmed : Text) : Prop where
  /-- Only white space is gone, and only from the ends. -/
  parts : ∃ before after, text = before ++ (trimmed ++ after) ∧
    (∀ c ∈ before, isBlank c = true) ∧ ∀ c ∈ after, isBlank c = true
  /-- No white space is left in front. -/
  head : ∀ c ∈ trimmed.head?, isBlank c = false
  /-- No white space is left behind. -/
  last : ∀ c ∈ trimmed.getLast?, isBlank c = false

theorem isBlank_of_mem_head? {text : Text} {c : Char} (h : c ∈ (text.dropWhile isBlank).head?) :
    isBlank c = false := by
  have hhead := List.head?_dropWhile_not isBlank text
  rwa [Option.mem_def.mp h] at hhead

/-- White space is cut off in front, and not more. -/
theorem dropWhile_isBlank_append {before text : Text} (hbefore : ∀ c ∈ before, isBlank c = true)
    (hhead : ∀ c ∈ text.head?, isBlank c = false) :
    (before ++ text).dropWhile isBlank = text := by
  rw [List.dropWhile_append_of_pos hbefore]
  cases text with
  | nil => rfl
  | cons c text => exact List.dropWhile_cons_of_neg (by simp [hhead c rfl])

/-- Trimming cuts off the white space in front, and then that behind. -/
theorem trims_trim (text : Text) : Trims text (trim text) := by
  let back := ((text.dropWhile isBlank).reverse.takeWhile isBlank).reverse
  have hback : trim text ++ back = text.dropWhile isBlank := by
    rw [trim, ← List.reverse_append, List.takeWhile_append_dropWhile, List.reverse_reverse]
  have hhead : ∀ c ∈ (trim text).head?, isBlank c = false := by
    intro c hc
    have hfirst : (text.dropWhile isBlank).head? = some c := by
      rw [← hback, List.head?_append, Option.mem_def.mp hc, Option.some_or]
    exact isBlank_of_mem_head? hfirst
  have hlast : ∀ c ∈ (trim text).getLast?, isBlank c = false := by
    intro c hc
    rw [trim, List.getLast?_reverse] at hc
    exact isBlank_of_mem_head? hc
  refine ⟨⟨text.takeWhile isBlank, back, ?_, ?_, ?_⟩, hhead, hlast⟩
  · rw [hback, List.takeWhile_append_dropWhile]
  · exact fun c hc => List.mem_takeWhile_imp hc
  · exact fun c hc => List.mem_takeWhile_imp (List.mem_reverse.mp hc)

/-- There is only one way to cut the white space off both ends. -/
theorem Trims.trim_eq {text trimmed : Text} (h : Trims text trimmed) : trim text = trimmed := by
  obtain ⟨⟨before, after, rfl, hbefore, hafter⟩, hhead, hlast⟩ := h
  have hreverse : ∀ c ∈ after.reverse, isBlank c = true :=
    fun c hc => hafter c (List.mem_reverse.mp hc)
  have hkept : (trimmed ++ after).reverse.dropWhile isBlank = trimmed.reverse := by
    rw [List.reverse_append]
    exact dropWhile_isBlank_append hreverse (by simpa using hlast)
  cases htrimmed : trimmed with
  | nil =>
    -- All of the text is white space, and is gone at once.
    have hall : ∀ c ∈ before ++ after, isBlank c = true := by
      intro c hc
      exact (List.mem_append.mp hc).elim (hbefore c) (hafter c)
    rw [trim, List.nil_append, List.dropWhile_eq_nil_iff.mpr hall]
    rfl
  | cons c rest =>
    rw [← htrimmed, trim, dropWhile_isBlank_append hbefore, hkept, List.reverse_reverse]
    simpa [htrimmed] using hhead

theorem trim_eq_iff {text trimmed : Text} : trim text = trimmed ↔ Trims text trimmed := by
  constructor
  · rintro rfl
    exact trims_trim text
  · exact Trims.trim_eq

end Lexicon
