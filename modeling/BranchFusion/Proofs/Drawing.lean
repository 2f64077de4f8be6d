import BranchFusion.Dot
import BranchFusion.Proofs.Dominance.DepthFirst
import BranchFusion.Proofs.Source.Newlines

/-!
# What a drawing shows

The blocks of a function are drawn in breadth. A block may wait in the queue several times, since
whether it is drawn already is looked up when its turn comes; so the queue takes no more blocks than
there are edges, and the bound on the search is never met. The blocks that are drawn
(`BranchFusion.Dot.blocks`) are those that the entry reaches (`BranchFusion.Dot.mem_blocks_iff`),
each once (`BranchFusion.Dot.nodup_blocks`).

A drawing is a text, and it is read line by line. No line of the drawing of a tidy function holds a
newline (`BranchFusion.Dot.unbroken_of_mem_lines`): the texts of instructions are cut into rows
where they have one, and everything else is made of labels and numbers. So what a label is does not
matter to what the lines of the text are (`BranchFusion.Func.Tidy.lines_dot`), and a block has
as many node statements in it as it was drawn (`BranchFusion.Func.Tidy.nodeCount_dot`).
-/

namespace BranchFusion

namespace Dot

variable {fn : Func} {tree : DominatorTree} {b c r : BlockId} {queue done : List BlockId}

/-! ### The blocks that are drawn -/

/-- The statements of a block: its node, and its edges. -/
def statements (fn : Func) (tree : DominatorTree) (b : BlockId) : List String :=
  nodeLine fn tree b :: (distinct [] (fn.edges b)).map (edgeLine b)

/-- The blocks that are drawn from a queue on, in order. -/
def visits (fn : Func) : Nat → List BlockId → List Nat → List BlockId
  | 0, _, _ => []
  | _ + 1, [], _ => []
  | fuel + 1, b :: queue, drawn =>
    if drawn.contains b.index then visits fn fuel queue drawn
    else b :: visits fn fuel
      (queue ++ (fn.successors b).filter fun s => !(b.index :: drawn).contains s.index)
      (b.index :: drawn)

theorem draw_eq : ∀ (fuel : Nat) (queue : List BlockId) (drawn : List Nat),
    draw fn tree fuel queue drawn = (visits fn fuel queue drawn).flatMap (statements fn tree)
  | 0, _, _ => rfl
  | _ + 1, [], _ => rfl
  | fuel + 1, b :: queue, drawn => by
    rw [draw, visits]
    split
    · exact draw_eq fuel queue drawn
    · exact congrArg (statements fn tree b ++ ·) (draw_eq fuel _ _)

/-- **The invariant of the search**: what is drawn or waits can be reached, and what is drawn leads
only to what is drawn or waits. -/
structure Drawing (fn : Func) (r : BlockId) (queue done : List BlockId) : Prop where
  nodup : done.Nodup
  start : r ∈ queue ∨ r ∈ done
  waits : ∀ b ∈ queue, fn.Reaches b
  drawn : ∀ b ∈ done, fn.Reaches b
  followed : ∀ b ∈ done, ∀ s, fn.Edge b s → s ∈ queue ∨ s ∈ done

/-- Blocks are looked up by index, which is as good if the entry reaches them. -/
theorem contains_index_iff (hclosed : fn.Closed) (hdone : ∀ c ∈ done, fn.Reaches c)
    (hb : fn.Reaches b) : (done.map BlockId.index).contains b.index = true ↔ b ∈ done := by
  rw [List.contains_iff_mem, List.mem_map]
  constructor
  · rintro ⟨c, hc, heq⟩
    have hown := hclosed.owns_of_reaches (hdone c hc)
    rwa [← Func.eq_of_index_eq (Func.func_of_owns hown)
      (Func.func_of_owns (hclosed.owns_of_reaches hb)) heq]
  · exact fun hb => ⟨b, hb, rfl⟩

/-- The turn of a block that is drawn already. -/
theorem Drawing.skip (h : Drawing fn r (b :: queue) done) (hb : b ∈ done) :
    Drawing fn r queue done := by
  have hleft : ∀ {a}, a ∈ b :: queue ∨ a ∈ done → a ∈ queue ∨ a ∈ done := by
    intro a ha
    rcases ha with ha | ha
    · rcases List.mem_cons.mp ha with rfl | ha
      · exact Or.inr hb
      · exact Or.inl ha
    · exact Or.inr ha
  exact ⟨h.nodup, hleft h.start, fun a ha => h.waits a (List.mem_cons_of_mem b ha), h.drawn,
    fun a ha s hs => hleft (h.followed a ha s hs)⟩

/-- The turn of a block that is drawn now: the blocks that it leads to wait, unless they are
drawn. -/
theorem Drawing.visit (hclosed : fn.Closed) (h : Drawing fn r (b :: queue) done) (hb : b ∉ done) :
    Drawing fn r (queue ++ (fn.successors b).filter fun s =>
      !((b :: done).map BlockId.index).contains s.index) (b :: done) := by
  have hreach : fn.Reaches b := h.waits b (by simp)
  have hdrawn : ∀ a ∈ b :: done, fn.Reaches a := by
    intro a ha
    rcases List.mem_cons.mp ha with rfl | ha
    · exact hreach
    · exact h.drawn a ha
  have hleft : ∀ {a new}, a ∈ b :: queue ∨ a ∈ done → a ∈ queue ++ new ∨ a ∈ b :: done := by
    intro a new ha
    rcases ha with ha | ha
    · rcases List.mem_cons.mp ha with rfl | ha
      · exact Or.inr (by simp)
      · exact Or.inl (List.mem_append_left _ ha)
    · exact Or.inr (List.mem_cons_of_mem b ha)
  constructor
  case nodup => exact List.nodup_cons.mpr ⟨hb, h.nodup⟩
  case start => exact hleft h.start
  case waits =>
    intro a ha
    rcases List.mem_append.mp ha with ha | ha
    · exact h.waits a (List.mem_cons_of_mem b ha)
    · exact hreach.edge (List.mem_filter.mp ha).1
  case drawn => exact hdrawn
  case followed =>
    intro a ha s hs
    rcases List.mem_cons.mp ha with rfl | ha
    · by_cases hs' : s ∈ a :: done
      · exact Or.inr hs'
      · refine Or.inl (List.mem_append_right _ (List.mem_filter.mpr ⟨hs, ?_⟩))
        rwa [Bool.not_eq_true', Bool.eq_false_iff, ne_eq,
          contains_index_iff hclosed hdrawn (hreach.edge hs)]
    · exact hleft (h.followed a ha s hs)

/-- **The search ends with nothing waiting.** Besides the entry, a block waits at most once for each
edge of a block that is drawn. -/
theorem Drawing.visits (hclosed : fn.Closed) :
    ∀ (fuel : Nat) {queue done : List BlockId}, Drawing fn r queue done →
      queue.length + fn.edgeCount ≤ fuel + (done.map fun b => (fn.successors b).length).sum →
      Drawing fn r [] ((visits fn fuel queue (done.map BlockId.index)).reverse ++ done)
  | 0, queue, done, h, hfuel => by
    have hle := Func.sum_successors_le h.nodup fun b hb => hclosed.owns_of_reaches (h.drawn b hb)
    obtain rfl : queue = [] := List.eq_nil_of_length_eq_zero (by omega)
    exact h
  | _ + 1, [], done, h, _ => h
  | fuel + 1, b :: queue, done, h, hfuel => by
    have hlook := contains_index_iff hclosed h.drawn (h.waits b (by simp))
    rw [Dot.visits]
    split
    · next hb =>
      refine Drawing.visits hclosed fuel (h.skip (hlook.mp hb)) ?_
      simp only [List.length_cons] at hfuel
      omega
    · next hb =>
      rw [List.reverse_cons, List.append_assoc]
      refine Drawing.visits hclosed fuel (h.visit hclosed fun hmem => hb (hlook.mpr hmem)) ?_
      -- the edges of the block that is drawn now pay for the blocks that it lets wait
      have hnew := (fn.successors b).length_filter_le fun s =>
        !((b :: done).map BlockId.index).contains s.index
      simp only [List.length_cons, List.length_append, List.map_cons, List.sum_cons] at hfuel hnew ⊢
      omega

/-- **The blocks that are drawn**, in order. -/
def blocks (fn : Func) : List BlockId :=
  visits fn (fn.edgeCount + 1) fn.root.toList []

/-- The invariant at the end of the search. -/
theorem drawing_blocks (hclosed : fn.Closed) (hr : fn.root = some r) :
    Drawing fn r [] (blocks fn).reverse := by
  have hstart : Drawing fn r [r] [] := by
    refine ⟨List.nodup_nil, Or.inl (by simp), fun b hb => ?_, by simp, by simp⟩
    rw [List.mem_singleton.mp hb]
    exact ⟨r, hr, .refl⟩
  have hend := hstart.visits hclosed (fn.edgeCount + 1) (by simp; omega)
  rw [List.append_nil] at hend
  rw [blocks, hr]
  exact hend

/-- **The blocks that are drawn are those that the entry reaches.** -/
theorem mem_blocks_iff (hclosed : fn.Closed) : b ∈ blocks fn ↔ fn.Reaches b := by
  cases hr : fn.root with
  | none => simp [blocks, Func.Reaches, hr, visits]
  | some r =>
    have h := drawing_blocks hclosed hr
    rw [← List.mem_reverse]
    refine ⟨h.drawn b, fun hb => hb.induction (fun r' hr' => ?_) fun a c ha he => ?_⟩
    · obtain rfl : r = r' := by simpa [hr] using hr'
      exact h.start.resolve_left (by simp)
    · exact (h.followed a ha c he).resolve_left (by simp)

/-- No block is drawn twice. -/
theorem nodup_blocks (hclosed : fn.Closed) : (blocks fn).Nodup := by
  cases hr : fn.root with
  | none => simp [blocks, hr, visits]
  | some r => exact List.nodup_reverse.mp (drawing_blocks hclosed hr).nodup

theorem lines_eq : lines fn =
    preamble fn ++ (blocks fn).flatMap (statements fn (DominatorTree.build fn)) ++ ["\x7d"] := by
  rw [lines, draw_eq, blocks]

/-! ### Lines -/

/-- **A text of one line.** -/
def Unbroken (s : String) : Prop := '\n' ∉ s.toList

instance (s : String) : Decidable (Unbroken s) := inferInstanceAs (Decidable (¬_))

theorem Unbroken.append {s t : String} (hs : Unbroken s) (ht : Unbroken t) : Unbroken (s ++ t) := by
  rw [Unbroken, String.toList_append, List.mem_append, not_or]
  exact ⟨hs, ht⟩

/-- A text in which each character is replaced by a text of one line. -/
theorem unbroken_flatMap {cs : List Char} {f : Char → List Char} (h : ∀ c ∈ cs, '\n' ∉ f c) :
    Unbroken (String.ofList (cs.flatMap f)) := by
  rw [Unbroken, String.toList_ofList, List.mem_flatMap]
  rintro ⟨c, hc, hmem⟩
  exact h c hc hmem

theorem unbroken_escape {s : String} (h : Unbroken s) : Unbroken (escape s) := by
  refine unbroken_flatMap fun c hc => ?_
  have hne : c ≠ '\n' := fun heq => h (heq ▸ hc)
  unfold escapeChar
  split
  all_goals first | decide | simpa using hne.symm

theorem unbroken_row {s : String} (h : Unbroken s) : Unbroken (row s) := by
  refine (Unbroken.append (by decide) (unbroken_flatMap fun c hc => ?_)).append (by decide)
  have hne : c ≠ '\n' := fun heq => unbroken_escape h (heq ▸ hc)
  split
  · decide
  · simpa using hne.symm

theorem unbroken_of_mem_rows {s t : String} (h : t ∈ rows s) : Unbroken t := by
  obtain ⟨l, hl, rfl⟩ := List.mem_map.mp h
  refine unbroken_row ?_
  rw [Unbroken, String.toList_ofList]
  exact Text.not_mem_of_mem_lines hl

theorem unbroken_join {ss : List String} (h : ∀ s ∈ ss, Unbroken s) :
    Unbroken (String.join ss) := by
  rw [Unbroken, String.toList_join, List.mem_flatMap]
  rintro ⟨s, hs, hmem⟩
  exact h s hs hmem

theorem unbroken_table (h : fn.Tidy) : Unbroken (table fn tree b) := by
  have hlabel : ∀ c, Unbroken (fn.label c) := fun c => (h.label c).1
  have hpreds : Unbroken (escape (commaList ((fn.block b).preds.map fn.label))) := by
    refine unbroken_escape (Source.clean_commaList fun s hs => ?_).1
    obtain ⟨c, -, rfl⟩ := List.mem_map.mp hs
    exact h.label c
  have hrows : Unbroken (String.join ((fn.blockLines b).flatMap rows)) := by
    refine unbroken_join fun s hs => ?_
    obtain ⟨l, -, hs⟩ := List.mem_flatMap.mp hs
    exact unbroken_of_mem_rows hs
  refine (((((((Unbroken.append (by decide) (unbroken_escape (hlabel b))).append
    (by decide)).append hpreds).append (by decide)).append (unbroken_escape ?_)).append
    (by decide)).append hrows).append (by decide)
  cases tree.idom? b.index with
  | some d => exact hlabel d
  | none => exact (show Unbroken "∅" by decide)

theorem unbroken_node : Unbroken (node b) :=
  Unbroken.append (by decide) (Source.clean_toString b.index).1

theorem unbroken_nodeLine (h : fn.Tidy) : Unbroken (nodeLine fn tree b) :=
  (((Unbroken.append (by decide) unbroken_node).append (by decide)).append
    (unbroken_table h)).append (by decide)

theorem unbroken_edgeLabel : ∀ why : Terminator.Reason, Unbroken (edgeLabel why)
  | .case w => (Source.isName_decimal w).clean.1
  | .always | .whenTrue | .whenFalse | .otherwise => by decide

theorem unbroken_edgeLine {e : Terminator.Reason × BlockId} : Unbroken (edgeLine b e) :=
  (((((Unbroken.append (by decide) unbroken_node).append (by decide)).append
    unbroken_node).append (by decide)).append (unbroken_edgeLabel e.1)).append (by decide)

theorem unbroken_of_mem_preamble (h : fn.Tidy) : ∀ s ∈ preamble fn, Unbroken s := by
  have hname : Unbroken ("digraph \"" ++ fn.name ++ "\" \x7b") :=
    (Unbroken.append (by decide) h.name.1).append (by decide)
  simp only [preamble, List.forall_mem_cons, List.not_mem_nil, false_imp_iff, implies_true,
    and_true]
  refine ⟨hname, by decide, by decide, by decide, by decide, Unbroken.append (by decide) ?_⟩
  cases fn.root with
  | some r => exact unbroken_node
  | none => decide

/-- **No line of a drawing holds a newline**, if the function is tidy. -/
theorem unbroken_of_mem_lines (h : fn.Tidy) : ∀ s ∈ lines fn, Unbroken s := by
  intro s hs
  rw [lines_eq, List.mem_append, List.mem_append, List.mem_flatMap] at hs
  rcases hs with (hs | ⟨b, -, hs⟩) | hs
  · exact unbroken_of_mem_preamble h s hs
  · rcases List.mem_cons.mp hs with rfl | hs
    · exact unbroken_nodeLine h
    · obtain ⟨e, -, rfl⟩ := List.mem_map.mp hs
      exact unbroken_edgeLine
  · rw [List.mem_singleton.mp hs]
    decide

/-! ### Node statements -/

/-- Whether a line is a node statement of a block. -/
def declares (b : BlockId) (line : List Char) : Bool :=
  ("    " ++ node b ++ " [ ").toList.isPrefixOf line

/-- **The number of node statements** that a text has for a block. -/
def nodeCount (text : String) (b : BlockId) : Nat :=
  (Text.lines text.toList).countP (declares b)

/-- A word ends at the first blank. -/
theorem prefix_word_iff {u v rest rest' : List Char} (hu : ' ' ∉ u) (hv : ' ' ∉ v) :
    u ++ ' ' :: rest <+: v ++ ' ' :: rest' ↔ u = v ∧ rest <+: rest' := by
  induction u generalizing v with
  | nil =>
    cases v with
    | nil => simp
    | cons d v => simp [List.ne_of_not_mem_cons hv]
  | cons c u ih =>
    have hc := List.ne_of_not_mem_cons hu
    cases v with
    | nil => simp [hc.symm]
    | cons d v =>
      rw [List.cons_append, List.cons_append, List.cons_prefix_cons,
        ih (List.not_mem_of_not_mem_cons hu) (List.not_mem_of_not_mem_cons hv)]
      simp [and_assoc]

/-- The characters in the name of a node. -/
theorem not_mem_node {c : Char} (hword : c ∉ "bb_".toList) (hdigit : ¬c.isDigit) :
    c ∉ (node b).toList := by
  rw [node, String.toList_append, List.mem_append, not_or]
  exact ⟨hword, fun h => hdigit (Text.Numeral.isDigit_of_mem_toString h)⟩

theorem blank_not_mem_node : ' ' ∉ (node b).toList := not_mem_node (by decide) (by decide)

theorem toList_node_inj : (node b).toList = (node c).toList ↔ c.index = b.index := by
  rw [node, node, String.toList_inj, String.append_right_inj, Text.Numeral.toString_inj, eq_comm]

/-- The lines that start with the name of a node. -/
theorem declares_iff {rest : List Char} :
    declares b ("    ".toList ++ ((node c).toList ++ ' ' :: rest)) = true ↔
      c.index = b.index ∧ "[ ".toList <+: rest := by
  have hhead : ("    " ++ node b ++ " [ ").toList =
      "    ".toList ++ ((node b).toList ++ ' ' :: "[ ".toList) := by
    simp [String.toList_append]
  rw [declares, List.isPrefixOf_iff_prefix, hhead, List.prefix_append_right_inj,
    prefix_word_iff blank_not_mem_node blank_not_mem_node, toList_node_inj]

theorem declares_nodeLine :
    declares b (nodeLine fn tree c).toList = true ↔ c.index = b.index := by
  have hline : (nodeLine fn tree c).toList = "    ".toList ++ ((node c).toList ++ ' ' ::
      ("[ ".toList ++ ("label = < ".toList ++ (table fn tree c).toList ++ " > ]".toList))) := by
    simp [nodeLine, String.toList_append]
  rw [hline, declares_iff]
  exact and_iff_left (List.prefix_append _ _)

theorem declares_edgeLine {e : Terminator.Reason × BlockId} :
    declares b (edgeLine c e).toList = false := by
  have hline : (edgeLine c e).toList = "    ".toList ++ ((node c).toList ++
      ' ' :: '-' :: ("> ".toList ++ (node e.2).toList ++ " [ label = \"".toList ++
        (edgeLabel e.1).toList ++ "\" ]".toList)) := by
    simp [edgeLine, String.toList_append]
  rw [hline, Bool.eq_false_iff, ne_eq, declares_iff]
  rintro ⟨-, hrest⟩
  exact absurd (List.cons_prefix_cons.mp hrest).1 (by decide)

/-- A node statement is indented by four blanks, and then there is the name of a node. -/
theorem prefix_of_declares {line : List Char} (h : declares b line = true) :
    "    b".toList <+: line := by
  have hhead : ("    " ++ node b ++ " [ ").toList =
      "    b".toList ++ ("b_" ++ toString b.index ++ " [ ").toList := by
    simp [node, String.toList_append]
  rw [declares, List.isPrefixOf_iff_prefix, hhead] at h
  exact (List.prefix_append _ _).trans h

theorem not_declares_preamble : ∀ s ∈ preamble fn, ¬declares b s.toList = true := by
  intro s hs h
  have hfront := prefix_of_declares h
  simp only [preamble, List.mem_cons, List.not_mem_nil, or_false] at hs
  rcases hs with rfl | rfl | rfl | rfl | rfl | rfl
  all_goals simp [String.toList_append] at hfront

/-- The statements of a list of blocks declare each block as often as it is listed. -/
theorem countP_statements (bs : List BlockId) :
    ((bs.flatMap (statements fn tree)).map String.toList).countP (declares b) =
      (bs.map BlockId.index).count b.index := by
  induction bs with
  | nil => rfl
  | cons c bs ih =>
    have hedges : (((distinct [] (fn.edges c)).map (edgeLine c)).map String.toList).countP
        (declares b) = 0 := by
      refine List.countP_eq_zero.mpr fun l hl => ?_
      obtain ⟨s, hs, rfl⟩ := List.mem_map.mp hl
      obtain ⟨e, -, rfl⟩ := List.mem_map.mp hs
      simp [declares_edgeLine]
    rw [List.flatMap_cons, List.map_append, List.countP_append, ih, statements, List.map_cons,
      List.countP_cons, hedges, List.map_cons, List.count_cons]
    simp only [declares_nodeLine, beq_iff_eq]
    omega

end Dot

namespace Func

open Dot

variable {fn : Func} {b : BlockId}

/-- **The lines of the text of a drawing** are its lines, and an empty one at the end. -/
theorem Tidy.lines_dot (h : fn.Tidy) :
    Text.lines fn.dot.toList = (Dot.lines fn).map String.toList ++ [[]] := by
  have hne : Dot.lines fn ≠ [] := by simp [Dot.lines]
  have hnewline : "\n".toList = '\n' :: [] := rfl
  rw [dot, String.toList_append, hnewline, Text.lines_append,
    Text.lines_join hne (unbroken_of_mem_lines h)]
  rfl

/-- **A block has as many node statements as it was drawn.** -/
theorem Tidy.nodeCount_dot (h : fn.Tidy) :
    nodeCount fn.dot b = ((Dot.blocks fn).map BlockId.index).count b.index := by
  have hpreamble : ((preamble fn).map String.toList).countP (declares b) = 0 := by
    refine List.countP_eq_zero.mpr fun l hl => ?_
    obtain ⟨s, hs, rfl⟩ := List.mem_map.mp hl
    exact not_declares_preamble s hs
  have hend : [("\x7d").toList, []].countP (declares b) = 0 := by
    simp [declares, String.toList_append]
  rw [nodeCount, h.lines_dot, lines_eq, List.map_append, List.map_append, List.append_assoc,
    List.countP_append, List.countP_append, hpreamble, countP_statements]
  simpa using hend

/-- **A block has one node statement if the entry reaches it, and none otherwise.** -/
theorem Tidy.nodeCount_eq (h : fn.Tidy) (hclosed : fn.Closed) (hb : b.func = fn.serial) :
    (fn.Reaches b → nodeCount fn.dot b = 1) ∧ (¬fn.Reaches b → nodeCount fn.dot b = 0) := by
  have hown : ∀ c ∈ Dot.blocks fn, fn.owns c := fun c hc =>
    hclosed.owns_of_reaches ((mem_blocks_iff hclosed).mp hc)
  have hmem : b.index ∈ (Dot.blocks fn).map BlockId.index ↔ fn.Reaches b := by
    rw [← mem_blocks_iff hclosed, List.mem_map]
    constructor
    · rintro ⟨c, hc, heq⟩
      rwa [← eq_of_index_eq (func_of_owns (hown c hc)) hb heq]
    · exact fun hb => ⟨b, hb, rfl⟩
  rw [h.nodeCount_dot, (nodup_index (nodup_blocks hclosed) hown).count]
  exact ⟨fun hreach => if_pos (hmem.mpr hreach), fun hreach => if_neg (mt hmem.mp hreach)⟩

end Func

end BranchFusion
