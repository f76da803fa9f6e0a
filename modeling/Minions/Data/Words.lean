import Mathlib.Data.List.DropRight

/-! Splitting a text into words and joining lines to a text. -/

namespace Minions.Data

variable {α : Type}

/-- The longest runs without a separator. -/
def words (sep : α → Bool) (text : List α) : List (List α) :=
  (text.splitOnP sep).filter (!·.isEmpty)

/-- The lines with a terminator behind each. -/
def unlines (eol : α) (lines : List (List α)) : List α :=
  lines.flatMap (· ++ [eol])

/-- No lines have no text. -/
@[simp]
theorem unlines_nil (eol : α) : unlines eol [] = [] := rfl

/-- Each line is followed by its end. -/
@[simp]
theorem unlines_cons (eol : α) (line : List α) (lines : List (List α))
    : unlines eol (line :: lines) = line ++ eol :: unlines eol lines := by
  simp [unlines]

/-- The lines of two lists come one after the other. -/
@[simp]
theorem unlines_append (eol : α) (lines lines' : List (List α))
    : unlines eol (lines ++ lines') = unlines eol lines ++ unlines eol lines' := by
  simp [unlines]

/-- An empty text has no words. -/
@[simp]
theorem words_nil (sep : α → Bool) : words sep [] = [] := rfl

/-- A text without separators is one word. -/
theorem words_singleton {sep : α → Bool} {text : List α} (hne : text ≠ [])
    (h : ∀ c ∈ text, sep c = false)
    : words sep text = [text] := by
  simp [words, List.splitOnP_eq_singleton h, hne]

/-- A separator ends a word and begins another. -/
theorem words_append_cons {sep : α → Bool} {c : α} (hc : sep c = true) (left right : List α)
    : words sep (left ++ c :: right) = words sep left ++ words sep right := by
  simp [words, List.splitOnP_append_cons left right hc]

/-- A separator at the end is not seen. -/
theorem words_concat {sep : α → Bool} {c : α} (hc : sep c = true) (text : List α)
    : words sep (text ++ [c]) = words sep text := by
  simpa using words_append_cons hc text []

/-- Separators at the end of a text do not matter. -/
theorem words_rdropWhile {sep p : α → Bool} (hp : ∀ c, p c = true → sep c = true)
    (text : List α)
    : words sep (text.rdropWhile p) = words sep text := by
  induction text using List.reverseRecOn with
  | nil => rfl
  | append_singleton text c ih =>
      cases hc : p c with
      | false => rw [List.rdropWhile_concat_neg p text c (by simp [hc])]
      | true =>
          rw [List.rdropWhile_concat_pos p text c hc, ih, words_concat (hp c hc)]

/-- Lines of one word each are found again. -/
theorem words_unlines {sep : α → Bool} {eol : α} (heol : sep eol = true)
    {lines : List (List α)} (h : ∀ line ∈ lines, line ≠ [] ∧ ∀ c ∈ line, sep c = false)
    : words sep (unlines eol lines) = lines := by
  induction lines with
  | nil => rfl
  | cons line lines ih =>
      obtain ⟨hne, hline⟩ := h line List.mem_cons_self
      have hrest := ih fun line hl => h line (List.mem_cons_of_mem _ hl)
      rw [unlines_cons, words_append_cons heol, words_singleton hne hline, hrest]
      rfl

/-- What comes before a text joins its first part. -/
theorem splitOnP_append_modifyHead {sep : α → Bool} {left : List α}
    (h : ∀ c ∈ left, sep c = false) (right : List α)
    : (left ++ right).splitOnP sep = (right.splitOnP sep).modifyHead (left ++ ·) := by
  induction left with
  | nil => cases h : right.splitOnP sep <;> simp [h]
  | cons c left ih =>
      simp only [List.forall_mem_cons] at h
      rw [List.cons_append, List.splitOnP_cons_eq_if_modifyHead, ih h.2]
      cases right.splitOnP sep <;> simp [h.1]

end Minions.Data
