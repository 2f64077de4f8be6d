import BranchFusion.Proofs.Source.Naming

/-!
# The newlines of a printed text

A function is written line by line: its header, a line for each block and for each thing in a block,
and a brace. If no name in it holds a newline (`BranchFusion.Func.Tidy`), the newlines of its text
are those between the lines, so the text tells the measure of the function
(`BranchFusion.Func.Tidy.count_text`), and the text of a module tells the sum of the measures
(`BranchFusion.Module.count_text`).

Functions that were read are tidy (`BranchFusion.Source.tidy_of_parse`). The names in a function are
words, and a label that was read is one, too. The labels of all blocks count here, also of those
that are not live: a phi may still mention a block that was removed.
-/

namespace BranchFusion

open Source (Clean)

/-! ### Joined texts -/

theorem Text.count_join (sep : String) (c : Char) : ∀ ss : List String,
    (Text.join sep ss).toList.count c =
      (ss.map fun s => s.toList.count c).sum + (ss.length - 1) * sep.toList.count c
  | [] => by simp [Text.join]
  | [s] => by simp [Text.join]
  | s :: t :: ss => by
    have hlength : (s :: t :: ss).length - 1 = ((t :: ss).length - 1) + 1 := rfl
    have hsum : ((s :: t :: ss).map fun s => s.toList.count c).sum =
        s.toList.count c + ((t :: ss).map fun s => s.toList.count c).sum := List.sum_cons
    rw [Text.join_cons_cons, String.toList_append, String.toList_append, List.count_append,
      List.count_append, Text.count_join sep c (t :: ss), hsum, hlength, Nat.add_one_mul]
    omega

/-- Lines that hold no newline, joined by newlines. -/
theorem Text.count_newline_join {ss : List String} (h : ∀ s ∈ ss, Clean s) :
    (Text.join "\n" ss).toList.count '\n' = ss.length - 1 := by
  have hzero : (ss.map fun s => s.toList.count '\n').sum = 0 := by
    refine List.sum_eq_zero fun n hn => ?_
    obtain ⟨s, hs, rfl⟩ := List.mem_map.mp hn
    exact List.count_eq_zero.mpr (h s hs).1
  rw [Text.count_join, hzero]
  simp

/-- Lines that hold no newline are the lines of the text that they are joined to. -/
theorem Text.lines_join : ∀ {ss : List String}, ss ≠ [] → (∀ s ∈ ss, '\n' ∉ s.toList) →
    Text.lines (Text.join "\n" ss).toList = ss.map String.toList
  | [], hne, _ => absurd rfl hne
  | [s], _, h => Text.lines_of_not_mem (h s (by simp))
  | s :: t :: ss, _, h => by
    have ih : Text.lines (Text.join "\n" (t :: ss)).toList = (t :: ss).map String.toList :=
      Text.lines_join (by simp) fun u hu => h u (List.mem_cons_of_mem s hu)
    have hnewline : "\n".toList = ['\n'] := rfl
    rw [Text.join_cons_cons, String.toList_append, String.toList_append, hnewline,
      List.append_assoc, List.singleton_append, Text.lines_append, ih,
      Text.lines_of_not_mem (h s (by simp))]
    rfl

theorem Source.clean_toString (n : Nat) : Clean (toString n) :=
  ⟨fun h => absurd (Text.Numeral.isDigit_of_mem_toString h) (by decide),
    fun h => absurd (Text.Numeral.isDigit_of_mem_toString h) (by decide)⟩

/-! ### Tidy functions -/

/-- **A tidy function**: no name or label that it is written with holds a newline or a
semicolon. -/
structure Func.Tidy (fn : Func) : Prop where
  name : Clean fn.name
  param : ∀ v ∈ fn.params, Clean v.name
  label : ∀ b, Clean (fn.label b)
  item : ∀ b, fn.owns b → ∀ it ∈ (fn.block b).items, it.Tidy

namespace Func

variable {fn : Func}

/-- A block is written by its label or by its number. -/
theorem clean_label {b : BlockId} (h : Clean (fn.block b).label) : Clean (fn.label b) := by
  rw [label]
  split
  · exact Clean.append (by decide) (Source.clean_toString _)
  · exact h

theorem Tidy.clean_blockLines (h : fn.Tidy) {b : BlockId} (hb : fn.owns b) :
    ∀ s ∈ fn.blockLines b, Clean s := by
  intro s hs
  rw [blockLines_eq] at hs
  obtain ⟨it, hit, rfl⟩ := List.mem_map.mp hs
  exact (h.item b hb it hit).clean_text fun c _ => h.label c

theorem Tidy.clean_textLines (h : fn.Tidy) : ∀ s ∈ fn.textLines, Clean s := by
  intro s hs
  rw [textLines, List.cons_append, List.mem_cons, List.mem_append, List.mem_flatMap] at hs
  rcases hs with rfl | ⟨b, hb, hs⟩ | hs
  · exact Source.clean_headerLine_of_names h.name h.param
  · rcases List.mem_cons.mp hs with rfl | hs
    · exact (h.label b).append (by decide)
    · obtain ⟨l, hl, rfl⟩ := List.mem_map.mp hs
      exact Clean.append (by decide) (h.clean_blockLines (mem_ids.mp hb) l hl)
  · rw [List.mem_singleton.mp hs]
    decide

theorem length_blockLines (b : BlockId) : (fn.blockLines b).length = (fn.block b).size := by
  rw [blockLines, Block.size]
  cases (fn.block b).term with
  | none => simp
  | some t => simp [Nat.add_assoc]

/-- **The lines of a function** are its header, its brace, and what its measure counts. -/
theorem length_textLines : fn.textLines.length = fn.measure + 2 := by
  have hblock : ∀ b, ((fn.label b ++ ":") :: (fn.blockLines b).map ("    " ++ ·)).length =
      (fn.block b).size + 1 := by
    intro b
    rw [List.length_cons, List.length_map, length_blockLines]
  rw [textLines, List.length_append, List.length_cons, List.length_flatMap, measure_eq_sum]
  simp only [hblock, List.length_singleton]

/-- **The newlines of a tidy function tell its measure.** -/
theorem Tidy.count_text (h : fn.Tidy) : fn.text.toList.count '\n' = fn.measure + 1 := by
  rw [text, Text.count_newline_join h.clean_textLines, length_textLines]
  rfl

end Func

/-- **The newlines of a module tell the sum of the measures**, if the number of functions is
known. -/
theorem Module.count_text {m : Module} (h : ∀ fn ∈ m.funcs, fn.Tidy) :
    m.text.toList.count '\n' =
      (m.funcs.map Func.measure).sum + m.funcs.length + 2 * (m.funcs.length - 1) + 1 := by
  have hfuncs : ((m.funcs.map Func.text).map fun s => s.toList.count '\n').sum =
      (m.funcs.map Func.measure).sum + m.funcs.length := by
    have hcount : (m.funcs.map Func.text).map (fun s => s.toList.count '\n') =
        m.funcs.map fun fn => fn.measure + 1 := by
      rw [List.map_map]
      exact List.map_congr_left fun fn hfn => (h fn hfn).count_text
    rw [hcount, List.sum_map_add]
    simp
  have hblank : "\n\n".toList.count '\n' = 2 := rfl
  have hend : "\n".toList.count '\n' = 1 := rfl
  rw [Module.text, String.toList_append, List.count_append, Text.count_join, hfuncs, hblank, hend,
    List.length_map]
  omega

/-! ### Functions that were read -/

namespace Source

variable {d d' : Draft} {b : BlockId}

theorem Marks.label {o : Option Value} (h : Marks d o d') : d'.func.label b = d.func.label b := by
  rw [Func.label, Func.label, h.block]

/-- A line of program text changes no label. -/
theorem Effect.label {c : BlockId} (h : Effect c d d') : d'.func.label b = d.func.label b := by
  cases h with
  | instr i h _ _ => exact (Func.label_modify (by simp [Block.append])).trans h.label
  | phi p h _ _ => exact (Func.label_modify (by simp)).trans h.label
  | term t h _ _ =>
    rw [Func.terminate_eq, Func.label_modifyAll Func.label_termEdits]
    exact (Marks.nothing h).label

theorem Drafted.clean_label (h : Drafted d) : ∀ b, Clean (d.func.label b) := by
  induction h with
  | start serial name _ =>
    intro b
    refine Func.clean_label ?_
    have hempty : (({ serial := serial, name := name } : Func).block b).label = "" := by
      rw [Func.block, Func.block?]
      split <;> simp [Table.get?]
    rw [hempty]
    decide
  | param _ hmarks ih =>
    intro b
    exact hmarks.label (b := b) ▸ ih b
  | @block d h label hlabel hnew ih =>
    intro b
    by_cases hb : b = (d.func.createBlock label).1
    · refine Func.clean_label ?_
      rw [Func.block_createBlock, if_pos hb]
      exact (isName_label hlabel.1 hlabel.2).clean
    · have hold : (d.func.createBlock label).2.label b = d.func.label b := by
        rw [Func.label, Func.label, Func.block_createBlock, if_neg hb]
      rw [hold]
      exact ih b
  | line _ _ _ heffect ih =>
    intro b
    rw [heffect.label]
    exact ih b

/-- **A function that was read is tidy.** -/
theorem tidy_of_parse {src : String} {serial : Nat} {m : Module}
    (h : Module.parse src serial = .ok m) : ∀ fn ∈ m.funcs, fn.Tidy := by
  intro fn hfn
  obtain ⟨d, hd, rfl⟩ := (listed_of_parse h).finished fn hfn
  have hspell := hd.spellable
  exact ⟨hspell.name.clean, fun v hv => (hspell.valueName v (Or.inl hv)).clean,
    hd.drafted.clean_label, fun b hb it hit => (hspell.writable hb hit).tidy⟩

end Source

end BranchFusion
