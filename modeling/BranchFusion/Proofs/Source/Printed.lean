import BranchFusion.Proofs.Source.Spelling
import BranchFusion.Proofs.WellBuilt
import Mathlib.Data.List.TakeWhile

/-!
# Printable functions and the lines of their text

A function is *printable* (`BranchFusion.Func.Printable`) if its text says all there is to say about
it: the entry is the first block, the edges and the names make sense, and no two things that have to
be told apart have the same name.

For most of what follows less will do. A *spellable* function (`BranchFusion.Func.Spellable`) may
have values whose names end in a colon. Such names are words like others, and do harm only where
they stand at the end of a line (`BranchFusion.Func.Colonless`).

A reader drops blank lines, and blanks at both ends of a line. What it sees of a printed module are
the lines of its functions, one after the other, without the indentation
(`BranchFusion.Source.lineTexts_moduleText`).
-/

namespace BranchFusion

/-- The lines of a block: its phis, its instructions and its terminator. -/
def Block.items (bb : Block) : List Source.Item :=
  bb.phis.map .phi ++ bb.instrs.map .instr ++ bb.term.toList.map .term

theorem Block.definitions_eq (bb : Block) :
    bb.definitions = bb.items.flatMap Source.Item.results := by
  have hphis : (bb.phis.map Source.Item.phi).flatMap Source.Item.results =
      bb.phis.map Phi.result := by
    rw [List.flatMap_map, List.map_eq_flatMap]
    rfl
  have hinstrs : (bb.instrs.map Source.Item.instr).flatMap Source.Item.results =
      bb.instrs.filterMap Instr.result? := by
    rw [List.flatMap_map, List.filterMap_eq_flatMap_toList]
    rfl
  have hterm : (bb.term.toList.map Source.Item.term).flatMap Source.Item.results = [] := by
    cases bb.term <;> rfl
  rw [definitions, items, List.flatMap_append, List.flatMap_append, hphis, hinstrs, hterm,
    List.append_nil]

theorem Block.uses_eq (bb : Block) : bb.uses = bb.items.flatMap Source.Item.operands := by
  rw [uses, items, List.flatMap_append, List.flatMap_append, List.flatMap_map, List.flatMap_map]
  cases bb.term with
  | none => rfl
  | some t =>
    rw [Option.toList_some, List.map_singleton, List.flatMap_singleton]
    rfl

/-- What is used on a line of a block is used in the block. -/
theorem Block.mem_uses {bb : Block} {it : Source.Item} (hit : it ∈ bb.items) {u : Option Value}
    (hu : u ∈ it.operands) : u ∈ bb.uses := by
  rw [uses_eq]
  exact List.mem_flatMap.mpr ⟨it, hit, hu⟩

/-- What is defined on a line of a block is defined in the block. -/
theorem Block.mem_definitions {bb : Block} {it : Source.Item} (hit : it ∈ bb.items) {v : Value}
    (hv : v ∈ it.results) : v ∈ bb.definitions := by
  rw [definitions_eq]
  exact List.mem_flatMap.mpr ⟨it, hit, hv⟩

/-- A block with a line more. -/
def Source.Item.addTo : Source.Item → Block → Block
  | .phi p, bb => { bb with phis := bb.phis ++ [p] }
  | .instr i, bb => bb.append i
  | .term t, bb => { bb with term := some t }

/-- The lines of a block with a line more. -/
theorem Source.Item.mem_items_addTo (it : Source.Item) {x : Source.Item} {bb : Block}
    (h : x ∈ (it.addTo bb).items) : x = it ∨ x ∈ bb.items := by
  cases it with
  | phi p =>
    simp only [addTo, Block.items, List.map_append, List.map_singleton, List.mem_append,
      List.mem_singleton] at h ⊢
    tauto
  | instr i =>
    simp only [addTo, Block.append, Block.items, List.map_append, List.map_singleton,
      List.mem_append, List.mem_singleton] at h ⊢
    tauto
  | term t =>
    simp only [addTo, Block.items, Option.toList, List.map_singleton, List.mem_append,
      List.mem_singleton] at h ⊢
    tauto

namespace Func

variable {fn : Func} {b : BlockId} {it : Source.Item}

/-- **A printable function.** It is wired and its tables are sorted, as they are in every function
that is well built (`Func.WellBuilt`). The entry is the first live block, phis have inputs and all
of them are from live blocks, and what is used is defined, and defined once. Two values have two
names and two blocks have two labels; labels can be read as labels, and there is no sign of the
language in a name. -/
structure Printable (fn : Func) : Prop extends Wired fn where
  first : fn.root = fn.ids.head?
  sorted : fn.Sorted
  nonempty : ∀ b, fn.owns b → ∀ p ∈ (fn.block b).phis, p.inputs ≠ []
  inputs : ∀ b, fn.owns b → ∀ p ∈ (fn.block b).phis, ∀ e ∈ p.inputs, fn.owns e.1 ∧ e.2 ≠ none
  nodup : fn.definedValues.Nodup
  used : ∀ b, fn.owns b → ∀ v, some v ∈ (fn.block b).uses → fn.Defined v
  values : ∀ v w, fn.Defined v → fn.Defined w → v.name = w.name → v = w
  valueName : ∀ v, fn.Defined v → Source.IsName v.name
  labels : ∀ b c, fn.owns b → fn.owns c → fn.label b = fn.label c → b = c
  label : ∀ b, fn.owns b → Source.isLabel (fn.label b).toList = true ∧ ';' ∉ (fn.label b).toList
  name : Source.IsWord fn.name
  callee : ∀ b, fn.owns b → ∀ i ∈ (fn.block b).instrs, ∀ f ∈ i.callee?, Source.IsWord f

/-- **A valid function is printable** if its tables are sorted and its names will do; this can be
checked by going through its blocks and values. -/
theorem Valid.printable (h : fn.Valid) (hfirst : fn.root = fn.ids.head?)
    (hphis : ∀ b ∈ fn.ids, ∀ p ∈ (fn.block b).phis, p.inputs ≠ [] ∧ p.Ordered)
    (hterm : ∀ b ∈ fn.ids, ∀ t ∈ (fn.block b).term, t.Ordered)
    (hvalues : (fn.definedValues.map Value.name).Nodup)
    (hvalueName : ∀ v ∈ fn.definedValues, Source.IsName v.name)
    (hlabels : (fn.ids.map fn.label).Nodup)
    (hlabel : ∀ b ∈ fn.ids,
      Source.isLabel (fn.label b).toList = true ∧ ';' ∉ (fn.label b).toList)
    (hname : Source.IsWord fn.name)
    (hcallee : ∀ b ∈ fn.ids, ∀ i ∈ (fn.block b).instrs, ∀ f ∈ i.callee?, Source.IsWord f) :
    fn.Printable := by
  have howned : ∀ {P : BlockId → Prop}, (∀ b ∈ fn.ids, P b) → ∀ b, fn.owns b → P b :=
    fun hP b hb => hP b (mem_ids.mpr hb)
  have hdefined : ∀ b, fn.owns b → ∀ u ∈ (fn.block b).uses, ∃ v, u = some v ∧ fn.Defined v :=
    h.defined
  refine
    { h.toWired with
      first := hfirst, nodup := hvalues.of_map, name := hname
      sorted := ⟨howned fun b hb p hp => (hphis b hb p hp).2, howned hterm⟩
      nonempty := howned fun b hb p hp => (hphis b hb p hp).1
      valueName := fun v hv => hvalueName v (mem_definedValues.mpr hv)
      label := howned hlabel, callee := howned hcallee
      inputs := ?inputs, used := ?used, values := ?values, labels := ?labels }
  case inputs =>
    intro b hb p hp e he
    have hinput : (p.input? e.1).isSome := Table.isSome_get?_iff.mpr (List.mem_map_of_mem he)
    refine ⟨((h.mem_preds_iff hb).mp ((h.inputs b hb p hp e.1).mp hinput)).1, ?_⟩
    obtain ⟨v, hv, -⟩ := hdefined b hb e.2 (by
      simp only [Block.uses, List.mem_append, List.mem_flatMap]
      exact Or.inl (Or.inl ⟨p, hp, List.mem_map_of_mem he⟩))
    simp [hv]
  case used =>
    intro b hb v hv
    obtain ⟨w, hw, hdef⟩ := hdefined b hb (some v) hv
    rwa [Option.some.inj hw]
  case values =>
    intro v w hv hw
    exact List.inj_on_of_nodup_map hvalues (mem_definedValues.mpr hv) (mem_definedValues.mpr hw)
  case labels =>
    intro b c hb hc
    exact List.inj_on_of_nodup_map hlabels (mem_ids.mpr hb) (mem_ids.mpr hc)

/-- **A spellable function**: all that is asked of a printable function, but that values may have
any words for names. This is what holds of every function that was read. -/
structure Spellable (fn : Func) : Prop extends Wired fn where
  first : fn.root = fn.ids.head?
  sorted : fn.Sorted
  nonempty : ∀ b, fn.owns b → ∀ p ∈ (fn.block b).phis, p.inputs ≠ []
  inputs : ∀ b, fn.owns b → ∀ p ∈ (fn.block b).phis, ∀ e ∈ p.inputs, fn.owns e.1 ∧ e.2 ≠ none
  nodup : fn.definedValues.Nodup
  used : ∀ b, fn.owns b → ∀ v, some v ∈ (fn.block b).uses → fn.Defined v
  values : ∀ v w, fn.Defined v → fn.Defined w → v.name = w.name → v = w
  valueName : ∀ v, fn.Defined v → Source.IsWord v.name
  labels : ∀ b c, fn.owns b → fn.owns c → fn.label b = fn.label c → b = c
  label : ∀ b, fn.owns b → Source.isLabel (fn.label b).toList = true ∧ ';' ∉ (fn.label b).toList
  name : Source.IsWord fn.name
  callee : ∀ b, fn.owns b → ∀ i ∈ (fn.block b).instrs, ∀ f ∈ i.callee?, Source.IsWord f

theorem Printable.spellable (h : fn.Printable) : fn.Spellable :=
  { h with valueName := fun v hv => (h.valueName v hv).toIsWord }

/-- **No line of a block ends in a colon**, so that none is taken for a label. -/
def Colonless (fn : Func) : Prop :=
  ∀ b, fn.owns b → ∀ s ∈ fn.blockLines b, s.toList.getLast? ≠ some ':'

theorem Spellable.labelName (h : fn.Spellable) (hb : fn.owns b) : Source.IsName (fn.label b) :=
  Source.isName_label (h.label b hb).1 (h.label b hb).2

theorem Spellable.defined_result (hb : fn.owns b) (hit : it ∈ (fn.block b).items) {v : Value}
    (hv : v ∈ it.results) : fn.Defined v := by
  refine Or.inr ⟨b, hb, ?_⟩
  rw [Block.definitions_eq]
  exact List.mem_flatMap.mpr ⟨it, hit, hv⟩

/-- What a line uses is a value that is defined. -/
theorem Spellable.defined_operand (h : fn.Spellable) (hb : fn.owns b)
    (hit : it ∈ (fn.block b).items) {u : Option Value} (hu : u ∈ it.operands) :
    ∃ v, u = some v ∧ fn.Defined v := by
  have huse := Block.mem_uses hit hu
  cases u with
  | some v => exact ⟨v, rfl, h.used b hb v huse⟩
  | none =>
    -- only a phi could have an input that is not there
    simp only [Block.items, List.mem_append, List.mem_map] at hit
    rcases hit with (⟨p, hp, rfl⟩ | ⟨i, -, rfl⟩) | ⟨t, -, rfl⟩
    · obtain ⟨e, he, hnone⟩ := List.mem_map.mp hu
      exact absurd hnone (h.inputs b hb p hp e he).2
    · simp [Source.Item.operands] at hu
    · simp [Source.Item.operands] at hu

/-- The blocks that a line mentions are live. -/
theorem Spellable.owns_target (h : fn.Spellable) (hb : fn.owns b)
    (hit : it ∈ (fn.block b).items) {c : BlockId} (hc : c ∈ it.targets) : fn.owns c := by
  simp only [Block.items, List.mem_append, List.mem_map, Option.mem_toList] at hit
  rcases hit with (⟨p, hp, rfl⟩ | ⟨i, -, rfl⟩) | ⟨t, ht, rfl⟩
  · obtain ⟨e, he, rfl⟩ := List.mem_map.mp hc
    exact (h.inputs b hb p hp e he).1
  · simp [Source.Item.targets] at hc
  · refine h.successors b c hb ?_
    rw [Edge, Func.successors, Block.successors, Block.edges, ht]
    exact hc

/-- **Every line of a spellable function can be written and read back.** -/
theorem Spellable.writable (h : fn.Spellable) (hb : fn.owns b) (hit : it ∈ (fn.block b).items) :
    it.Writable fn.label := by
  refine ⟨fun v hv => h.valueName v (defined_result hb hit hv), fun u hu => ?_, fun c hc => ?_,
    ?_, ?_⟩
  · obtain ⟨v, rfl, hv⟩ := h.defined_operand hb hit hu
    exact ⟨v, rfl, h.valueName v hv⟩
  · exact h.labelName (h.owns_target hb hit hc)
  · rintro r f args rfl
    exact h.callee b hb _ (by simpa [Block.items] using hit) f rfl
  · rintro p rfl
    exact h.nonempty b hb p (by simpa [Block.items] using hit)

theorem blockLines_eq : fn.blockLines b = (fn.block b).items.map (Source.Item.text fn.label) := by
  rw [blockLines, Block.items, List.map_append, List.map_append, List.map_map, List.map_map]
  cases (fn.block b).term with
  | none => rfl
  | some t => rfl

theorem Printable.colonless (h : fn.Printable) : fn.Colonless := by
  intro b hb s hs
  rw [blockLines_eq] at hs
  obtain ⟨it, hit, rfl⟩ := List.mem_map.mp hs
  refine Source.Item.noColon_text (h.spellable.writable hb hit) fun v hv => ?_
  obtain ⟨w, hw, hdef⟩ := h.spellable.defined_operand hb hit hv
  exact Option.some.inj hw ▸ h.valueName w hdef

end Func

namespace Source

variable {a b s : String} {fn : Func}

/-! ### The header -/

theorem words_headerLine (h : fn.Spellable) :
    words fn.headerLine = ["func", "@" ++ fn.name] ++ fn.params.map Value.text ++ ["\x7b"] := by
  have hsigns : words "func " = ["func"] ∧ words "(" = [] ∧ words ") \x7b" = ["\x7b"] :=
    ⟨rfl, rfl, rfl⟩
  have hsplit : "func @" ++ fn.name = "func " ++ ("@" ++ fn.name) := by
    rw [← String.append_assoc]
    rfl
  have hparams : words (commaList (fn.params.map Value.text)) = fn.params.map Value.text := by
    refine words_commaList_of_isWord fun s hs => ?_
    obtain ⟨v, hv, rfl⟩ := List.mem_map.mp hs
    exact isWord_value (h.valueName v (Or.inl hv))
  rw [Func.headerLine, hsplit, words_append_of_front rfl, words_between "(" rfl rfl,
    words_append_of_back rfl, words_of_isWord (isWord_callee h.name), hparams, hsigns.1,
    hsigns.2.1, hsigns.2.2, List.append_nil]
  rfl

theorem clean_headerLine_of_names (hname : Clean fn.name)
    (hparams : ∀ v ∈ fn.params, Clean v.name) : Clean fn.headerLine := by
  have hlist : Clean (commaList (fn.params.map Value.text)) := by
    refine clean_commaList fun s hs => ?_
    obtain ⟨v, hv, rfl⟩ := List.mem_map.mp hs
    exact Item.clean_value (hparams v hv)
  have hfront : Clean ("func @" ++ fn.name) := Clean.append (by decide) hname
  exact ((hfront.append (by decide)).append hlist).append (by decide)

theorem clean_headerLine (h : fn.Spellable) : Clean fn.headerLine :=
  clean_headerLine_of_names h.name.clean fun v hv => (h.valueName v (Or.inl hv)).clean

/-! ### Lines -/

/-- The texts of the lines that a reader sees. -/
def lineTexts (src : String) : List String := (readLines src).map Line.text

theorem map_text_numbered : ∀ (ls : List (List Char)) (n : Nat), (numbered n ls).map Line.text =
    ((ls.map strip).filter fun l => !l.isEmpty).map String.ofList
  | [], _ => rfl
  | l :: ls, n => by
    have ih := map_text_numbered ls (n + 1)
    rw [numbered, List.map_cons, List.filter_cons]
    split
    · next hempty => simp [hempty, ih]
    · next hempty => simp [hempty, ih]

theorem lineTexts_append : lineTexts (a ++ "\n" ++ b) = lineTexts a ++ lineTexts b := by
  have hlist : (a ++ "\n" ++ b).toList = a.toList ++ '\n' :: b.toList := by
    rw [String.toList_append, String.toList_append, List.append_assoc]
    rfl
  rw [lineTexts, lineTexts, lineTexts, readLines, readLines, readLines, map_text_numbered,
    map_text_numbered, map_text_numbered, hlist, Text.lines_append, List.map_append,
    List.filter_append, List.map_append]

theorem lineTexts_join (ss : List String) :
    lineTexts (Text.join "\n" ss) = ss.flatMap lineTexts := by
  induction ss with
  | nil => rfl
  | cons s ss ih =>
    cases ss with
    | nil => rw [Text.join_singleton, List.flatMap_singleton]
    | cons t ss =>
      rw [Text.join_cons_cons, lineTexts_append, ih]
      rfl

/-- An empty line between two texts is not seen. -/
theorem lineTexts_join_blank (ss : List String) :
    lineTexts (Text.join "\n\n" ss) = ss.flatMap lineTexts := by
  induction ss with
  | nil => rfl
  | cons s ss ih =>
    cases ss with
    | nil => rw [Text.join_singleton, List.flatMap_singleton]
    | cons t ss =>
      -- two newlines are a newline, an empty line and a newline
      have hsplit : s ++ "\n\n" ++ Text.join "\n\n" (t :: ss) =
          s ++ "\n" ++ "" ++ "\n" ++ Text.join "\n\n" (t :: ss) := by
        simp only [String.append_assoc, String.empty_append]
        rfl
      have hempty : lineTexts "" = [] := rfl
      rw [Text.join_cons_cons, hsplit, lineTexts_append, lineTexts_append, hempty, List.append_nil,
        ih]
      rfl

/-- **A line is seen without its indentation.** -/
theorem lineTexts_indented {n : Nat} {blanks : String}
    (hblanks : blanks.toList = List.replicate n ' ') (h : IsLine s) :
    lineTexts (blanks ++ s) = [s] := by
  have hclean : Clean (blanks ++ s) := by
    refine Clean.append ?_ h.clean
    rw [Clean, hblanks]
    simp
  have hlines : Text.lines (blanks ++ s).toList = [(blanks ++ s).toList] :=
    Text.lines_of_not_mem hclean.1
  have hcomment : (blanks ++ s).toList.takeWhile (· ≠ ';') = (blanks ++ s).toList := by
    rw [List.takeWhile_eq_self_iff]
    intro c hc
    rw [decide_eq_true_eq]
    rintro rfl
    exact hclean.2 hc
  have hstrip : strip (blanks ++ s).toList = s.toList := by
    rw [strip, hcomment, String.toList_append]
    refine Text.trim_append (fun c hc => ?_) h.tight
    rw [hblanks] at hc
    rw [List.eq_of_mem_replicate hc]
    rfl
  rw [lineTexts, readLines, map_text_numbered, hlines, List.map_singleton, hstrip]
  simp [h.tight.ne_nil, String.ofList_toList]

theorem lineTexts_line (h : IsLine s) : lineTexts s = [s] := by
  have hplain := lineTexts_indented (s := s) (n := 0) (show "".toList = _ from rfl) h
  rwa [String.empty_append] at hplain

/-! ### Whole programs -/

/-- What a reader sees of a block: its label and its lines. -/
def blockTexts (fn : Func) (c : BlockId) : List String :=
  (fn.label c ++ ":") :: fn.blockLines c

/-- What a reader sees of a function. -/
def funcTexts (fn : Func) : List String :=
  fn.headerLine :: fn.ids.flatMap (blockTexts fn) ++ ["\x7d"]

theorem isLine_headerLine (h : fn.Spellable) : IsLine fn.headerLine := by
  refine ⟨⟨Opens.append (Opens.append (Opens.append (Opens.append ⟨'f', _, rfl, rfl⟩))), ?_⟩,
    clean_headerLine h⟩
  refine ⟨("func @" ++ fn.name ++ "(" ++ commaList (fn.params.map Value.text)).toList ++ [')', ' '],
    '\x7b', ?_, rfl⟩
  rw [Func.headerLine, String.toList_append, List.append_assoc]
  rfl

theorem isLine_label {c : BlockId} (h : fn.Spellable) (hc : fn.owns c) :
    IsLine (fn.label c ++ ":") := by
  have hname := h.labelName hc
  refine ⟨⟨hname.opens.append, (fn.label c).toList, ':', ?_, rfl⟩, hname.clean.append (by decide)⟩
  rw [String.toList_append]
  rfl

theorem isLine_blockLines {c : BlockId} (h : fn.Spellable) (hc : fn.owns c) :
    ∀ s ∈ fn.blockLines c, IsLine s := by
  intro s hs
  rw [Func.blockLines_eq] at hs
  obtain ⟨it, hit, rfl⟩ := List.mem_map.mp hs
  exact Item.isLine_text (h.writable hc hit)

theorem isLine_blockTexts {c : BlockId} (h : fn.Spellable) (hc : fn.owns c) :
    ∀ s ∈ blockTexts fn c, IsLine s :=
  List.forall_mem_cons.mpr ⟨isLine_label h hc, isLine_blockLines h hc⟩

theorem lineTexts_funcText (h : fn.Spellable) : lineTexts fn.text = funcTexts fn := by
  have hbrace : lineTexts "\x7d" = ["\x7d"] := rfl
  have hblock : ∀ c ∈ fn.ids, ((fn.label c ++ ":") :: (fn.blockLines c).map ("    " ++ ·)).flatMap
      lineTexts = blockTexts fn c := by
    intro c hc
    have hstatements : ∀ s ∈ fn.blockLines c, lineTexts ("    " ++ s) = [s] := fun s hs =>
      lineTexts_indented (n := 4) rfl (isLine_blockLines h (Func.mem_ids.mp hc) s hs)
    rw [List.flatMap_cons, lineTexts_line (isLine_label h (Func.mem_ids.mp hc)), List.flatMap_map,
      List.flatMap_congr hstatements, List.flatMap_singleton', List.singleton_append]
    rfl
  rw [Func.text, lineTexts_join, Func.textLines, List.flatMap_append, List.flatMap_cons,
    lineTexts_line (isLine_headerLine h), List.flatMap_singleton, hbrace, List.flatMap_assoc,
    List.flatMap_congr hblock]
  rfl

/-- **The lines of a printed module** are those of its functions. -/
theorem lineTexts_moduleText {m : Module} (h : ∀ fn ∈ m.funcs, fn.Spellable) :
    lineTexts m.text = m.funcs.flatMap funcTexts := by
  have hend : ∀ s : String, lineTexts (s ++ "\n") = lineTexts s := by
    intro s
    have hempty : lineTexts "" = [] := rfl
    have happend := lineTexts_append (a := s) (b := "")
    rwa [String.append_empty, hempty, List.append_nil] at happend
  rw [Module.text, hend, lineTexts_join_blank, List.flatMap_map]
  exact List.flatMap_congr fun fn hfn => lineTexts_funcText (h fn hfn)

end Source

end BranchFusion
