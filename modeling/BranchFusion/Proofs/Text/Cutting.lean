import BranchFusion.Text.Blank
import Mathlib.Data.List.Basic

/-!
# Cutting text up

Text is written by putting pieces together, and read by cutting it up; here the one is seen to undo
the other. A newline between two texts separates their lines (`BranchFusion.Text.lines_append`), and
a separator between two texts separates their fields (`BranchFusion.Text.fields_append`). A text
without a newline is one line, and a text without a separator is one field. What is cut out of a
text has no characters that the text does not have (`BranchFusion.Text.mem_fields`,
`BranchFusion.Text.mem_of_mem_trim`).

A text is *tight* (`BranchFusion.Text.Tight`) if trimming leaves it alone: it has no blank in front
and none at its end.
-/

namespace BranchFusion.Text

/-! ### Lines -/

theorem lines_ne_nil (cs : List Char) : lines cs ≠ [] := by
  cases cs with
  | nil => simp [lines]
  | cons c cs =>
    rw [lines]
    split
    · simp
    · split <;> simp

/-- **A newline separates lines.** -/
theorem lines_append (a b : List Char) : lines (a ++ '\n' :: b) = lines a ++ lines b := by
  induction a with
  | nil => simp [lines]
  | cons c a ih =>
    rw [List.cons_append, lines, lines, ih]
    split
    · rfl
    · -- the first line of the rest is the one that gets the character
      obtain ⟨l, ls, hl⟩ := List.exists_cons_of_ne_nil (lines_ne_nil a)
      rw [hl]
      rfl

/-- A text without a newline is one line. -/
theorem lines_of_not_mem {cs : List Char} (h : '\n' ∉ cs) : lines cs = [cs] := by
  induction cs with
  | nil => rfl
  | cons c cs ih =>
    rw [List.mem_cons, not_or] at h
    rw [lines, if_neg (Ne.symm h.1), ih h.2]

/-- A line holds no newline. -/
theorem not_mem_of_mem_lines {l cs : List Char} (h : l ∈ lines cs) : '\n' ∉ l := by
  induction cs generalizing l with
  | nil =>
    rw [List.mem_singleton.mp h]
    exact List.not_mem_nil
  | cons c cs ih =>
    rw [lines] at h
    split at h
    · rcases List.mem_cons.mp h with rfl | h
      · exact List.not_mem_nil
      · exact ih h
    next hc =>
    -- only the first line of the rest has got a character, and that is no newline
    obtain ⟨l', ls, hl'⟩ := List.exists_cons_of_ne_nil (lines_ne_nil cs)
    rw [hl'] at h
    rcases List.mem_cons.mp h with rfl | h
    · rw [List.mem_cons, not_or]
      exact ⟨Ne.symm hc, ih (by simp [hl'])⟩
    · exact ih (by simp [hl', h])

/-! ### Fields -/

section Fields

variable {sep : Char → Bool} {c : Char}

theorem fields_cons_of_sep (hc : sep c = true) (cs : List Char) :
    fields sep (c :: cs) = fields sep cs := by
  cases cs with
  | nil => simp [fields, hc]
  | cons d cs => rw [fields, if_pos hc]

theorem fields_cons_ne_nil (hc : sep c = false) (cs : List Char) : fields sep (c :: cs) ≠ [] := by
  cases cs with
  | nil => simp [fields, hc]
  | cons d cs =>
    rw [fields, hc, if_neg (by simp)]
    split
    · simp
    · split <;> simp

/-- **A separator separates fields.** -/
theorem fields_append (hc : sep c = true) (b : List Char) :
    ∀ a, fields sep (a ++ c :: b) = fields sep a ++ fields sep b
  | [] => by rw [List.nil_append, fields_cons_of_sep hc]; rfl
  | [x] => by
    rw [List.singleton_append, fields, fields, fields_cons_of_sep hc, if_pos hc]
    split <;> rfl
  | x :: y :: a => by
    have ih := fields_append hc b (y :: a)
    rw [List.cons_append] at ih
    rw [List.cons_append, List.cons_append, fields, fields, ih]
    split
    · rfl
    split
    · rfl
    · next hy =>
      -- the character goes in front of the first field of the rest, so there has to be one
      obtain ⟨w, ws, hw⟩ := List.exists_cons_of_ne_nil (fields_cons_ne_nil (by simpa using hy) a)
      rw [hw]
      rfl

/-- A text without a separator is one field, unless it is empty. -/
theorem fields_of_word : ∀ {w : List Char}, w ≠ [] → (∀ c ∈ w, sep c = false) → fields sep w = [w]
  | [], hne, _ => absurd rfl hne
  | [c], _, h => by simp [fields, h c (by simp)]
  | c :: d :: cs, _, h => by
    have hrest : fields sep (d :: cs) = [d :: cs] :=
      fields_of_word (by simp) fun x hx => h x (List.mem_cons_of_mem c hx)
    rw [fields, h c (by simp), h d (by simp), hrest]
    rfl

/-- **A field** is not empty, and is made of characters of the text that are not separators. -/
theorem mem_fields {w : List Char} : ∀ {cs : List Char}, w ∈ fields sep cs →
    w ≠ [] ∧ ∀ c ∈ w, sep c = false ∧ c ∈ cs
  | [], h => by simp [fields] at h
  | [c], h => by
    rw [fields] at h
    split at h
    · exact absurd h (by simp)
    · next hc =>
      rw [List.mem_singleton.mp h]
      exact ⟨by simp, by simpa using hc⟩
  | c :: d :: cs, h => by
    have hrest : ∀ {w}, w ∈ fields sep (d :: cs) →
        w ≠ [] ∧ ∀ x ∈ w, sep x = false ∧ x ∈ c :: d :: cs := fun hw =>
      ⟨(mem_fields hw).1, fun x hx =>
        ⟨((mem_fields hw).2 x hx).1, List.mem_cons_of_mem c ((mem_fields hw).2 x hx).2⟩⟩
    rw [fields] at h
    split at h
    · exact hrest h
    next hc =>
    have hhead : sep c = false ∧ c ∈ c :: d :: cs := ⟨by simpa using hc, by simp⟩
    have hone : [c] ≠ [] ∧ ∀ x ∈ [c], sep x = false ∧ x ∈ c :: d :: cs := by simpa using hhead
    split at h
    · rcases List.mem_cons.mp h with rfl | h
      · exact hone
      · exact hrest h
    · split at h
      · rw [List.mem_singleton.mp h]
        exact hone
      · next w' ws hw' =>
        have hmem : ∀ {u}, u ∈ w' :: ws → u ∈ fields sep (d :: cs) := fun hu => hw' ▸ hu
        rcases List.mem_cons.mp h with rfl | h
        · refine ⟨by simp, fun x hx => ?_⟩
          rcases List.mem_cons.mp hx with rfl | hx
          · exact hhead
          · exact (hrest (hmem (by simp))).2 x hx
        · exact hrest (hmem (List.mem_cons_of_mem w' h))

end Fields

/-! ### Trimming -/

theorem mem_of_mem_trim {c : Char} {cs : List Char} (h : c ∈ trim cs) : c ∈ cs := by
  rw [trim, trimRight, List.mem_reverse] at h
  have h' := List.mem_reverse.mp ((List.dropWhile_suffix isBlank).subset h)
  exact (List.dropWhile_suffix isBlank).subset h'

/-- **A tight text**: it is not empty, and there is no blank in front of it or at its end. -/
structure Tight (cs : List Char) : Prop where
  front : ∃ c rest, cs = c :: rest ∧ isBlank c = false
  back : ∃ rest c, cs = rest ++ [c] ∧ isBlank c = false

theorem Tight.ne_nil {cs : List Char} (h : Tight cs) : cs ≠ [] := by
  obtain ⟨c, rest, rfl, -⟩ := h.front
  simp

/-- Trimming removes blanks in front of a tight text, and nothing else. -/
theorem trim_append {blanks cs : List Char} (hblanks : ∀ c ∈ blanks, isBlank c = true)
    (h : Tight cs) : trim (blanks ++ cs) = cs := by
  have hfront : (blanks ++ cs).dropWhile isBlank = cs := by
    obtain ⟨c, rest, rfl, hc⟩ := h.front
    rw [List.dropWhile_append_of_pos hblanks, List.dropWhile_cons_of_neg (by simp [hc])]
  obtain ⟨rest, c, hcs, hc⟩ := h.back
  rw [trim, hfront, trimRight, hcs, List.reverse_append, List.reverse_singleton,
    List.singleton_append, List.dropWhile_cons_of_neg (by simp [hc]), List.reverse_cons,
    List.reverse_reverse]

end BranchFusion.Text
