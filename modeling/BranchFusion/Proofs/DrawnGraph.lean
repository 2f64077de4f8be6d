import BranchFusion.Proofs.Dominance.Tree
import BranchFusion.Proofs.Drawing
import Mathlib.Data.List.Find

/-!
# A drawing shows the graph

The drawing of a function is read back, line by line. Of the edges between two blocks only the first
is drawn, in the order in which a terminator lists them (`BranchFusion.Terminator.FirstTo`); so two
blocks have one edge statement if the entry reaches the one and it leads to the other, and none
otherwise. What else has the form of an edge statement is the arrow to the entry. A node statement
shows the immediate dominator of its block in its first cell (`BranchFusion.Dot.ShowsIdom`); labels
hold no brackets, so this is where the first cell ends.

`BranchFusion.Dot.Shows` puts together what a text says that shows the graph of a function, and
`BranchFusion.Func.dot_shows_reachable_graph` is about the drawing of every function that was read.
-/

namespace BranchFusion

/-! ### The first edge -/

namespace Terminator

/-- **What the first edge to a block is taken for**: the first branch before the second, and the
least case before the others and before the default. -/
inductive FirstTo (b : BlockId) : Terminator → Reason → Prop
  | jump : FirstTo b (.jump b) .always
  | onTrue (v : Value) (onFalse : BlockId) : FirstTo b (.branch v b onFalse) .whenTrue
  | onFalse (v : Value) {onTrue : BlockId} (h : onTrue ≠ b) :
    FirstTo b (.branch v onTrue b) .whenFalse
  | case (v : Value) (default : BlockId) {cases : Table Int64 BlockId} {w : Int64}
    (h : (w, b) ∈ cases) (hleast : ∀ w', (w', b) ∈ cases → w ≤ w') :
    FirstTo b (.switch v default cases) (.case w)
  | default (v : Value) {cases : Table Int64 BlockId} (h : ∀ w, (w, b) ∉ cases) :
    FirstTo b (.switch v b cases) .otherwise

variable {b : BlockId} {t : Terminator} {why : Reason}

/-- Cases in order: the first that leads to a block is the least. -/
theorem find?_cases {cases : Table Int64 BlockId}
    (h : cases.Ordered fun x y => decide (x < y)) {w : Int64} {c : BlockId}
    (hfind : cases.find? (fun e => e.2 = b) = some (w, c)) :
    c = b ∧ (w, b) ∈ cases ∧ ∀ w', (w', b) ∈ cases → w ≤ w' := by
  obtain ⟨hc, front, rest, rfl, hfront⟩ := List.find?_eq_some_iff_append.mp hfind
  obtain rfl : c = b := by simpa using hc
  refine ⟨rfl, by simp, fun w' hw' => ?_⟩
  rcases List.mem_append.mp hw' with hw' | hw'
  · exact absurd (hfront _ hw') (by simp)
  · rcases List.mem_cons.mp hw' with heq | hw'
    · exact Int64.le_of_eq (Prod.mk.inj heq).1.symm
    · obtain ⟨-, hrest, -⟩ := List.pairwise_append.mp h
      exact Int64.le_of_lt (by simpa using (List.pairwise_cons.mp hrest).1 _ hw')

/-- **The edges are listed so that the first is the first.** -/
theorem firstTo_of_find? (ht : t.Ordered) {c : BlockId}
    (h : t.edges.find? (fun e => e.2 = b) = some (why, c)) : c = b ∧ FirstTo b t why := by
  cases t with
  | jump target =>
    simp only [edges, List.find?_cons, List.find?_nil] at h
    split at h
    · next heq =>
      obtain ⟨rfl, rfl⟩ := Prod.mk.inj (Option.some.inj h)
      obtain rfl : target = b := by simpa using heq
      exact ⟨rfl, .jump⟩
    · exact absurd h (by simp)
  | branch v onTrue onFalse =>
    simp only [edges, List.find?_cons, List.find?_nil] at h
    split at h
    · next heq =>
      obtain ⟨rfl, rfl⟩ := Prod.mk.inj (Option.some.inj h)
      obtain rfl : onTrue = b := by simpa using heq
      exact ⟨rfl, .onTrue v onFalse⟩
    · next hne =>
      split at h
      · next heq =>
        obtain ⟨rfl, rfl⟩ := Prod.mk.inj (Option.some.inj h)
        obtain rfl : onFalse = b := by simpa using heq
        exact ⟨rfl, .onFalse v (by simpa using hne)⟩
      · exact absurd h (by simp)
  | switch v default cases =>
    have hmap : (cases.map fun e => (Reason.case e.1, e.2)).find? (fun e => e.2 = b) =
        (cases.find? fun e => e.2 = b).map fun e => (Reason.case e.1, e.2) := List.find?_map
    rw [edges, List.find?_append, hmap] at h
    cases hcase : cases.find? fun e => e.2 = b with
    | some e =>
      obtain ⟨rfl, hmem, hleast⟩ := find?_cases ht hcase
      rw [hcase] at h
      obtain ⟨rfl, rfl⟩ := Prod.mk.inj (Option.some.inj h)
      exact ⟨rfl, .case v default hmem hleast⟩
    | none =>
      rw [hcase, Option.map_none, Option.none_or, List.find?_singleton] at h
      split at h
      · next heq =>
        obtain ⟨rfl, rfl⟩ := Prod.mk.inj (Option.some.inj h)
        obtain rfl : default = b := by simpa using heq
        exact ⟨rfl, .default v fun w hw =>
          List.find?_eq_none.mp hcase (w, default) hw (by simp)⟩
      · exact absurd h (by simp)
  | ret vs => exact absurd h (by simp [edges])

theorem exists_firstTo (ht : t.Ordered) (hb : b ∈ t.successors) :
    ∃ why, FirstTo b t why ∧ t.edges.find? (fun e => e.2 = b) = some (why, b) := by
  obtain ⟨e, he, rfl⟩ := List.mem_map.mp hb
  have hsome : (t.edges.find? fun x => x.2 = e.2).isSome :=
    List.find?_isSome.mpr ⟨e, he, by simp⟩
  obtain ⟨⟨why, c⟩, hfind⟩ := Option.isSome_iff_exists.mp hsome
  obtain ⟨rfl, hfirst⟩ := firstTo_of_find? ht hfind
  exact ⟨why, hfirst, hfind⟩

end Terminator

namespace Dot

variable {fn : Func} {tree : DominatorTree} {a b c r : BlockId}
  {es : List (Terminator.Reason × BlockId)} {e : Terminator.Reason × BlockId}

/-- Of parallel edges the first is drawn. -/
theorem mem_distinct_iff : ∀ {es : List (Terminator.Reason × BlockId)} {seen : List Nat},
    e ∈ distinct seen es ↔
      e.2.index ∉ seen ∧ es.find? (fun x => x.2.index = e.2.index) = some e
  | [], seen => by simp [distinct]
  | x :: es, seen => by
    rw [distinct, List.find?_cons]
    by_cases hx : x.2.index = e.2.index
    · simp only [hx, decide_true, Option.some.injEq]
      split
      · next hseen =>
        rw [List.contains_iff_mem] at hseen
        rw [mem_distinct_iff]
        exact iff_of_false (fun h => h.1 hseen) fun h => h.1 hseen
      · next hseen =>
        rw [List.contains_iff_mem] at hseen
        rw [List.mem_cons, mem_distinct_iff]
        simp [hseen, eq_comm]
    · simp only [hx, decide_false]
      split
      · exact mem_distinct_iff
      · rw [List.mem_cons, mem_distinct_iff, List.mem_cons, not_or]
        have hne : e ≠ x := fun heq => hx (heq ▸ rfl)
        simp [hne, Ne.symm hx]

theorem nodup_distinct : ∀ (es : List (Terminator.Reason × BlockId)) (seen : List Nat),
    ((distinct seen es).map fun e => e.2.index).Nodup
  | [], _ => List.nodup_nil
  | x :: es, seen => by
    rw [distinct]
    split
    · exact nodup_distinct es seen
    · refine List.nodup_cons.mpr ⟨fun hmem => ?_, nodup_distinct es _⟩
      obtain ⟨e, he, heq⟩ := List.mem_map.mp hmem
      exact (mem_distinct_iff.mp he).1 (heq ▸ List.mem_cons_self ..)

/-! ### The edges that are drawn -/

/-- **The edges that are drawn**, in order. -/
def drawnEdges (fn : Func) : List (BlockId × Terminator.Reason × BlockId) :=
  (blocks fn).flatMap fun a => (distinct [] (fn.edges a)).map (Prod.mk a)

/-- The edges of a block that the entry reaches are found by block as by index. -/
theorem find?_index (hclosed : fn.Closed) (ha : fn.Reaches a) (hb : b.func = fn.serial) :
    (fn.edges a).find? (fun x => x.2.index = b.index) =
      (fn.edges a).find? (fun x => x.2 = b) := by
  refine List.find?_congr fun x hx => ?_
  have hown : fn.owns x.2 := hclosed.owns_of_reaches (ha.edge (List.mem_map_of_mem hx))
  have hiff : x.2.index = b.index ↔ x.2 = b :=
    ⟨Func.eq_of_index_eq (Func.func_of_owns hown) hb, congrArg BlockId.index⟩
  simp only [hiff]

theorem mem_drawnEdges_iff (hclosed : fn.Closed) :
    (a, e) ∈ drawnEdges fn ↔
      fn.Reaches a ∧ (fn.edges a).find? (fun x => x.2 = e.2) = some e := by
  have hmem : (a, e) ∈ drawnEdges fn ↔ a ∈ blocks fn ∧ e ∈ distinct [] (fn.edges a) := by
    simp [drawnEdges]
  rw [hmem, mem_blocks_iff hclosed, mem_distinct_iff]
  refine and_congr_right fun ha => ?_
  constructor
  · rintro ⟨-, hfind⟩
    have hedge : fn.Edge a e.2 := List.mem_map_of_mem (List.mem_of_find?_eq_some hfind)
    rwa [← find?_index hclosed ha (Func.func_of_owns (hclosed.owns_of_reaches (ha.edge hedge)))]
  · intro hfind
    have hedge : fn.Edge a e.2 := List.mem_map_of_mem (List.mem_of_find?_eq_some hfind)
    rw [find?_index hclosed ha (Func.func_of_owns (hclosed.owns_of_reaches (ha.edge hedge)))]
    exact ⟨List.not_mem_nil, hfind⟩

/-- No two edges that are drawn have the same ends. -/
theorem nodup_drawnEdges (hclosed : fn.Closed) :
    ((drawnEdges fn).map fun x => (x.1.index, x.2.2.index)).Nodup := by
  have hown : ∀ c ∈ blocks fn, fn.owns c := fun c hc =>
    hclosed.owns_of_reaches ((mem_blocks_iff hclosed).mp hc)
  have hblocks : ((blocks fn).map BlockId.index).Nodup :=
    Func.nodup_index (nodup_blocks hclosed) hown
  have hmap : ∀ a, ((distinct [] (fn.edges a)).map (Prod.mk a)).map
      (fun x : BlockId × Terminator.Reason × BlockId => (x.1.index, x.2.2.index)) =
        ((distinct [] (fn.edges a)).map fun e => e.2.index).map (Prod.mk a.index) := by
    intro a
    rw [List.map_map, List.map_map]
    rfl
  simp only [drawnEdges, List.map_flatMap, hmap]
  refine List.nodup_flatMap.mpr ⟨fun a _ => ?_, ?_⟩
  · exact (nodup_distinct _ _).map (Prod.mk_right_injective a.index)
  · refine (List.pairwise_map.mp hblocks).imp fun {a c} hne => ?_
    rw [Function.onFun, List.disjoint_left]
    intro x hx hx'
    obtain ⟨i, -, rfl⟩ := List.mem_map.mp hx
    obtain ⟨j, -, heq⟩ := List.mem_map.mp hx'
    exact hne (Prod.mk.inj heq).1.symm

/-! ### Edge statements -/

/-- Whether a line is an edge statement that leads from one block to another. -/
def connects (a b : BlockId) (line : List Char) : Bool :=
  ("    " ++ node a ++ " -> " ++ node b ++ " [ ").toList.isPrefixOf line

/-- **An edge statement**: an indented name, and an arrow behind it. -/
def IsEdge (line : List Char) : Prop :=
  ∃ name, ' ' ∉ name ∧ "    ".toList ++ (name ++ ' ' :: "-> ".toList) <+: line

/-- An indented line with a word in front is an edge statement if an arrow follows. -/
theorem isEdge_iff {w rest : List Char} (hw : ' ' ∉ w) :
    IsEdge ("    ".toList ++ (w ++ ' ' :: rest)) ↔ "-> ".toList <+: rest := by
  constructor
  · rintro ⟨name, hname, hprefix⟩
    rw [List.prefix_append_right_inj, prefix_word_iff hname hw] at hprefix
    exact hprefix.2
  · intro hrest
    refine ⟨w, hw, ?_⟩
    rw [List.prefix_append_right_inj, prefix_word_iff hw hw]
    exact ⟨rfl, hrest⟩

theorem toList_connects : ("    " ++ node a ++ " -> " ++ node b ++ " [ ").toList =
    "    ".toList ++ ((node a).toList ++
      ' ' :: ("-> ".toList ++ ((node b).toList ++ ' ' :: "[ ".toList))) := by
  simp [String.toList_append]

theorem isEdge_of_connects {line : List Char} (h : connects a b line = true) : IsEdge line := by
  rw [connects, List.isPrefixOf_iff_prefix, toList_connects] at h
  refine ⟨(node a).toList, blank_not_mem_node, List.IsPrefix.trans ?_ h⟩
  rw [List.prefix_append_right_inj, prefix_word_iff blank_not_mem_node blank_not_mem_node]
  exact ⟨rfl, List.prefix_append _ _⟩

/-- The line of an edge. -/
def edgeText (x : BlockId × Terminator.Reason × BlockId) : List Char := (edgeLine x.1 x.2).toList

theorem connects_edgeText {x : BlockId × Terminator.Reason × BlockId} :
    connects a b (edgeText x) = true ↔ x.1.index = a.index ∧ x.2.2.index = b.index := by
  have hline : edgeText x = "    ".toList ++ ((node x.1).toList ++
      ' ' :: ("-> ".toList ++ ((node x.2.2).toList ++
        ' ' :: ("[ label = \"".toList ++ (edgeLabel x.2.1).toList ++ "\" ]".toList)))) := by
    simp [edgeText, edgeLine, String.toList_append]
  rw [connects, List.isPrefixOf_iff_prefix, toList_connects, hline, List.prefix_append_right_inj,
    prefix_word_iff blank_not_mem_node blank_not_mem_node, List.prefix_append_right_inj,
    prefix_word_iff blank_not_mem_node blank_not_mem_node, toList_node_inj, toList_node_inj]
  exact and_congr_right fun _ => and_iff_left (List.prefix_append _ _)

theorem not_isEdge_nodeLine : ¬IsEdge (nodeLine fn tree c).toList := by
  have hline : (nodeLine fn tree c).toList = "    ".toList ++ ((node c).toList ++ ' ' ::
      ("[ label = < ".toList ++ (table fn tree c).toList ++ " > ]".toList)) := by
    simp [nodeLine, String.toList_append]
  rw [hline, isEdge_iff blank_not_mem_node]
  intro h
  exact absurd (List.cons_prefix_cons.mp h).1 (by decide)

/-- The arrow to the entry. -/
def startLine (r : BlockId) : List Char := ("    START -> " ++ node r).toList

theorem toList_startLine :
    startLine r = "    ".toList ++ ("START".toList ++ ' ' :: ("-> ".toList ++ (node r).toList)) := by
  simp [startLine, String.toList_append]

theorem not_connects_startLine : ¬connects a b (startLine r) = true := by
  rw [connects, List.isPrefixOf_iff_prefix, toList_connects, toList_startLine,
    List.prefix_append_right_inj, prefix_word_iff blank_not_mem_node (by decide)]
  rintro ⟨hword, -⟩
  simp [node, String.toList_append] at hword

/-- The statements that are the same in every drawing. -/
def settings : List String :=
  ["    graph [ fontname = \"Fira Code\" ]",
    "    node [ fontname = \"Fira Code\" fontsize = \"14\" shape = \"plaintext\" ]",
    "    edge [ fontname = \"Fira Code\" ]",
    "    START [ shape = \"circle\" ]"]

theorem preamble_eq (hr : fn.root = some r) : preamble fn =
    ("digraph \"" ++ fn.name ++ "\" \x7b") :: (settings ++ ["    START -> " ++ node r]) := by
  rw [preamble, hr]
  rfl

theorem not_isEdge_settings : ∀ l ∈ settings.map String.toList, ¬IsEdge l := by
  have hword : ∀ {w rest : List Char}, ' ' ∉ w → ¬"-> ".toList <+: rest →
      ¬IsEdge ("    ".toList ++ (w ++ ' ' :: rest)) := fun hw hrest h =>
    hrest ((isEdge_iff hw).mp h)
  simp only [settings, List.map_cons, List.map_nil, List.forall_mem_cons, List.not_mem_nil,
    false_imp_iff, implies_true, and_true]
  exact ⟨hword (w := "graph".toList) (by decide) (by decide),
    hword (w := "node".toList) (by decide) (by decide),
    hword (w := "edge".toList) (by decide) (by decide),
    hword (w := "START".toList) (by decide) (by decide)⟩

/-- Of the statements in front of the nodes only the last is an edge statement. -/
theorem exists_preamble (hr : fn.root = some r) :
    ∃ front, (preamble fn).map String.toList = front ++ [startLine r] ∧
      ∀ l ∈ front, ¬IsEdge l := by
  have hname : ¬IsEdge ("digraph \"" ++ fn.name ++ "\" \x7b").toList := by
    rintro ⟨name, -, hprefix⟩
    simp [String.toList_append] at hprefix
  refine ⟨_ :: settings.map String.toList, ?_, List.forall_mem_cons.mpr ⟨hname,
    not_isEdge_settings⟩⟩
  rw [preamble_eq hr, List.map_cons, List.map_append]
  rfl

/-! ### The lines of a drawing -/

/-- **The lines of a drawing**: some that are no edge statements, the arrow to the entry, the
statements of blocks, and the brace at the end. -/
theorem exists_front_lines (htidy : fn.Tidy) (hr : fn.root = some r) :
    ∃ front, (∀ l ∈ front, ¬IsEdge l) ∧ Text.lines fn.dot.toList =
      front ++ startLine r ::
        (((blocks fn).flatMap (statements fn (DominatorTree.build fn))).map String.toList ++
          ["\x7d".toList, []]) := by
  obtain ⟨front, hpreamble, hfront⟩ := exists_preamble hr
  refine ⟨front, hfront, ?_⟩
  rw [htidy.lines_dot, lines_eq, List.map_append, List.map_append, hpreamble]
  simp

theorem not_isEdge_end : ∀ l ∈ ["\x7d".toList, []], ¬IsEdge l := by
  simp [IsEdge]

/-- The edge statements of a block. -/
theorem filter_connects_statements : ((statements fn tree c).map String.toList).filter
    (connects a b) = (((distinct [] (fn.edges c)).map (Prod.mk c)).filter fun x =>
      connects a b (edgeText x)).map edgeText := by
  have hnode : ¬connects a b (nodeLine fn tree c).toList = true :=
    fun h => not_isEdge_nodeLine (isEdge_of_connects h)
  rw [statements, List.map_cons, List.filter_cons_of_neg hnode]
  simp only [List.filter_map, List.map_map]
  rfl

/-- **The edge statements between two blocks** are those of the edges that are drawn. -/
theorem filter_connects_dot (htidy : fn.Tidy) (hr : fn.root = some r) :
    (Text.lines fn.dot.toList).filter (connects a b) =
      ((drawnEdges fn).filter fun x => connects a b (edgeText x)).map edgeText := by
  have hnone : ∀ {ls : List (List Char)}, (∀ l ∈ ls, ¬IsEdge l) → ls.filter (connects a b) = [] :=
    fun hls => List.filter_eq_nil_iff.mpr fun l hl h => hls l hl (isEdge_of_connects h)
  obtain ⟨front, hfront, hlines⟩ := exists_front_lines htidy hr
  rw [hlines, List.filter_append, List.filter_cons_of_neg not_connects_startLine,
    List.filter_append, hnone hfront, hnone not_isEdge_end, List.nil_append, List.append_nil,
    drawnEdges]
  simp only [List.map_flatMap, List.filter_flatMap, filter_connects_statements]

/-- Among the statements of blocks, those that have the form of an edge statement are the edges that
are drawn. -/
theorem exists_edgeText {l : List Char}
    (hl : l ∈ ((blocks fn).flatMap (statements fn tree)).map String.toList) (h : IsEdge l) :
    ∃ x ∈ drawnEdges fn, l = edgeText x := by
  obtain ⟨s, hs, rfl⟩ := List.mem_map.mp hl
  obtain ⟨c, hc, hs⟩ := List.mem_flatMap.mp hs
  rcases List.mem_cons.mp hs with rfl | hs
  · exact absurd h not_isEdge_nodeLine
  · obtain ⟨e, he, rfl⟩ := List.mem_map.mp hs
    exact ⟨(c, e), List.mem_flatMap.mpr ⟨c, hc, List.mem_map_of_mem he⟩, rfl⟩

/-- What has the form of an edge statement is the arrow to the entry, or an edge that is drawn. -/
theorem eq_of_isEdge (htidy : fn.Tidy) (hr : fn.root = some r) {l : List Char}
    (hl : l ∈ Text.lines fn.dot.toList) (h : IsEdge l) :
    l = startLine r ∨ ∃ x ∈ drawnEdges fn, l = edgeText x := by
  obtain ⟨front, hfront, hlines⟩ := exists_front_lines htidy hr
  rw [hlines, List.mem_append, List.mem_cons, List.mem_append] at hl
  rcases hl with hl | hl | hl | hl
  · exact absurd h (hfront l hl)
  · exact .inl hl
  · exact .inr (exists_edgeText hl h)
  · exact absurd h (not_isEdge_end l hl)

/-- The arrow to the entry is drawn once. -/
theorem count_startLine (htidy : fn.Tidy) (hr : fn.root = some r) :
    (Text.lines fn.dot.toList).count (startLine r) = 1 := by
  have hstart : IsEdge (startLine r) := by
    rw [toList_startLine, isEdge_iff (by decide)]
    exact List.prefix_append _ _
  obtain ⟨front, hfront, hlines⟩ := exists_front_lines htidy hr
  have hstatements : startLine r ∉
      ((blocks fn).flatMap (statements fn (DominatorTree.build fn))).map String.toList := by
    intro hmem
    obtain ⟨x, -, hx⟩ := exists_edgeText hmem hstart
    exact not_connects_startLine (hx ▸ connects_edgeText.mpr ⟨rfl, rfl⟩)
  rw [hlines, List.count_append, List.count_eq_zero.mpr fun h => hfront _ h hstart,
    List.count_cons_self, List.count_append, List.count_eq_zero.mpr hstatements,
    List.count_eq_zero.mpr fun h => not_isEdge_end _ h hstart]

/-! ### The immediate dominators -/

/-- **The dominator that a line shows**: what stands behind its last blank in front of the first
closing bracket. -/
def ShowsIdom (line text : List Char) : Prop :=
  ∃ front rest, line = front ++ ", idom: ".toList ++ text ++ ')' :: rest ∧
    ')' ∉ front ++ text ∧ ' ' ∉ text

/-- Writing entities for characters brings in the characters of entities only. -/
theorem mem_of_mem_escape {d : Char} {s : String} (h : d ∈ (escape s).toList) :
    d ∈ s.toList ∨ d ∈ "&;#0123456789abcdefghijklmnopqrstuvwxyz".toList := by
  have hall : ∀ {l : List Char}, l.all "&;#0123456789abcdefghijklmnopqrstuvwxyz".toList.contains →
      d ∈ l → d ∈ "&;#0123456789abcdefghijklmnopqrstuvwxyz".toList := fun hl hd =>
    List.contains_iff_mem.mp (List.all_eq_true.mp hl d hd)
  rw [escape, String.toList_ofList, List.mem_flatMap] at h
  obtain ⟨c, hc, h⟩ := h
  unfold escapeChar at h
  split at h
  case h_6 => exact .inl (List.mem_singleton.mp h ▸ hc)
  all_goals exact .inr (hall (by decide) h)

theorem not_mem_escape {d : Char} {s : String} (hs : d ∉ s.toList)
    (hd : d ∉ "&;#0123456789abcdefghijklmnopqrstuvwxyz".toList) : d ∉ (escape s).toList :=
  fun h => (mem_of_mem_escape h).elim hs hd

theorem not_mem_commaList {d : Char} {ss : List String} (hss : ∀ s ∈ ss, d ∉ s.toList)
    (hd : d ∉ ", ".toList) : d ∉ (commaList ss).toList := by
  rw [← List.count_eq_zero, commaList, Text.count_join, List.count_eq_zero.mpr hd, Nat.mul_zero,
    Nat.add_zero]
  refine List.sum_eq_zero fun n hn => ?_
  obtain ⟨s, hs, rfl⟩ := List.mem_map.mp hn
  exact List.count_eq_zero.mpr (hss s hs)

/-- A label has no brackets and no blanks. -/
theorem not_mem_label (hfn : fn.Spellable) (hb : fn.owns b) :
    ')' ∉ (fn.label b).toList ∧ ' ' ∉ (fn.label b).toList := by
  have hname := (hfn.labelName hb).plain
  constructor
  all_goals
    intro h
    exact absurd (hname _ h).1 (by decide)

/-- The text of the immediate dominator in a table. -/
def idomText (fn : Func) (tree : DominatorTree) (b : BlockId) : String :=
  match tree.idom? b.index with
  | some d => fn.label d
  | none => "∅"

/-- What stands in front of the dominator in a node statement. -/
def cellFront (fn : Func) (b : BlockId) : String :=
  "    " ++ node b ++ " [ label = < " ++
    "<table border=\"1\" cellborder=\"0\" cellspacing=\"0\"><tr><td bgcolor=\"lightgrey\"><b>" ++
    escape (fn.label b) ++ "</b> (pred: " ++
    escape (commaList ((fn.block b).preds.map fn.label))

theorem table_eq : table fn tree b =
    "<table border=\"1\" cellborder=\"0\" cellspacing=\"0\"><tr><td bgcolor=\"lightgrey\"><b>" ++
      escape (fn.label b) ++ "</b> (pred: " ++
      escape (commaList ((fn.block b).preds.map fn.label)) ++ ", idom: " ++
      escape (idomText fn tree b) ++ ")</td></tr>" ++
      String.join ((fn.blockLines b).flatMap rows) ++ "</table>" := rfl

theorem exists_nodeLine_eq : ∃ rest : String, nodeLine fn tree b =
    cellFront fn b ++ ", idom: " ++ escape (idomText fn tree b) ++ ")</td></tr>" ++ rest := by
  refine ⟨String.join ((fn.blockLines b).flatMap rows) ++ "</table>" ++ " > ]", ?_⟩
  rw [nodeLine, table_eq, cellFront]
  simp only [String.append_assoc]

theorem not_mem_cellFront (hfn : fn.Spellable) (hb : fn.owns b) : ')' ∉ (cellFront fn b).toList := by
  have hnode : ')' ∉ (node b).toList := not_mem_node (by decide) (by decide)
  have hlabel : ')' ∉ (escape (fn.label b)).toList :=
    not_mem_escape (not_mem_label hfn hb).1 (by decide)
  have hpreds : ')' ∉ (escape (commaList ((fn.block b).preds.map fn.label))).toList := by
    refine not_mem_escape (not_mem_commaList (fun s hs => ?_) (by decide)) (by decide)
    obtain ⟨p, hp, rfl⟩ := List.mem_map.mp hs
    exact (not_mem_label hfn ((hfn.mem_preds_iff hb).mp hp).1).1
  simp [cellFront, hnode, hlabel, hpreds]

/-- **A node statement shows the immediate dominator.** -/
theorem showsIdom_nodeLine (hfn : fn.Spellable) (hb : fn.owns b)
    (hd : ∀ d, tree.idom? b.index = some d → fn.owns d) :
    ShowsIdom (nodeLine fn tree b).toList (escape (idomText fn tree b)).toList := by
  have hidom : ')' ∉ (idomText fn tree b).toList ∧ ' ' ∉ (idomText fn tree b).toList := by
    rw [idomText]
    split
    · next d hsome => exact not_mem_label hfn (hd d hsome)
    · decide
  obtain ⟨rest, hrest⟩ : ∃ rest : String, nodeLine fn tree b = _ := exists_nodeLine_eq
  have hcell : ")</td></tr>".toList = ')' :: "</td></tr>".toList := by decide
  refine ⟨(cellFront fn b).toList, "</td></tr>".toList ++ rest.toList, ?_, ?_,
    not_mem_escape hidom.2 (by decide)⟩
  · rw [hrest, String.toList_append, String.toList_append, hcell, String.toList_append,
      String.toList_append, List.append_assoc, List.cons_append]
  · rw [List.mem_append, not_or]
    exact ⟨not_mem_cellFront hfn hb, not_mem_escape hidom.1 (by decide)⟩

/-- What stands in front of the first `c`. -/
theorem takeWhile_ne {c : Char} {front rest : List Char} (h : c ∉ front) :
    (front ++ c :: rest).takeWhile (· ≠ c) = front := by
  rw [List.takeWhile_append_of_pos fun d hd => by simpa using fun heq : d = c => h (heq ▸ hd),
    List.takeWhile_cons_of_neg (by simp), List.append_nil]

/-- A line shows one dominator at most. -/
theorem ShowsIdom.unique {l t t' : List Char} (h : ShowsIdom l t) (h' : ShowsIdom l t') :
    t = t' := by
  have hread : ∀ {t}, ShowsIdom l t →
      ((l.takeWhile (· ≠ ')')).reverse.takeWhile (· ≠ ' ')).reverse = t := by
    rintro t ⟨front, rest, rfl, hbracket, hblank⟩
    rw [List.mem_append, not_or] at hbracket
    have hfront : ')' ∉ front ++ ", idom: ".toList ++ t := by
      simp only [List.mem_append, not_or]
      exact ⟨⟨hbracket.1, by decide⟩, hbracket.2⟩
    have hidom : (front ++ ", idom: ".toList ++ t).reverse =
        t.reverse ++ ' ' :: (", idom:".toList.reverse ++ front.reverse) := by
      rw [List.reverse_append, List.reverse_append]
      rfl
    rw [takeWhile_ne hfront, hidom, takeWhile_ne (by simpa using hblank), List.reverse_reverse]
  exact (hread h).symm.trans (hread h')

/-! ### The graph in a text -/

/-- **Lines that show the reachable graph of a function.** There is one arrow to the entry. From a
block that the entry reaches to a block that it leads to there is one edge statement, and it says
what the first of the edges is taken for; between any other two blocks of the function there is
none, and there are no other edge statements. Each block that the entry reaches, and so each end of
an edge, has one node statement, which shows its immediate dominator, or that it is the entry. -/
structure Shows (fn : Func) (ls : List (List Char)) : Prop where
  start : ∃ r, fn.root = some r ∧ ls.count (startLine r) = 1
  edge : ∀ a b, fn.Reaches a → fn.Edge a b → ∃ t why, (fn.block a).term = some t ∧
    Terminator.FirstTo b t why ∧ ls.filter (connects a b) = [(edgeLine a (why, b)).toList]
  no_edge : ∀ a b, a.func = fn.serial → b.func = fn.serial → ¬(fn.Reaches a ∧ fn.Edge a b) →
    ls.filter (connects a b) = []
  only : ∀ l ∈ ls, IsEdge l → (∃ r, fn.root = some r ∧ l = startLine r) ∨
    ∃ a b, fn.Reaches a ∧ fn.Edge a b ∧ connects a b l = true
  node : ∀ c, fn.Reaches c → ∃ l, ls.filter (declares c) = [l] ∧
    (fn.root = some c ∧ ShowsIdom l "∅".toList ∨
      ∃ d, fn.ImmediatelyDominates d c ∧ ShowsIdom l (escape (fn.label d)).toList)

theorem filter_eq_singleton {α : Type} {p : α → Bool} {l : List α} {x : α}
    (h : l.countP p = 1) (hx : x ∈ l) (hp : p x = true) : l.filter p = [x] := by
  rw [List.countP_eq_length_filter, List.length_eq_one_iff] at h
  obtain ⟨y, hy⟩ := h
  have hmem : x ∈ l.filter p := List.mem_filter.mpr ⟨hx, hp⟩
  rw [hy, List.mem_singleton] at hmem
  rw [hy, hmem]

/-- The edge statements between two blocks with a drawn edge. -/
theorem filter_connects_eq (htidy : fn.Tidy) (hclosed : fn.Closed) (hr : fn.root = some r)
    (he : (a, e) ∈ drawnEdges fn) :
    (Text.lines fn.dot.toList).filter (connects a e.2) = [edgeText (a, e)] := by
  have hfilter : (drawnEdges fn).filter (fun x => connects a e.2 (edgeText x)) = [(a, e)] := by
    refine filter_eq_singleton ?_ he (connects_edgeText.mpr ⟨rfl, rfl⟩)
    have hcount : (drawnEdges fn).countP (fun x => connects a e.2 (edgeText x)) =
        ((drawnEdges fn).map fun x => (x.1.index, x.2.2.index)).count (a.index, e.2.index) := by
      rw [List.count, List.countP_map]
      refine List.countP_congr fun x _ => ?_
      rw [connects_edgeText]
      simp
    rw [hcount, (nodup_drawnEdges hclosed).count, if_pos]
    exact List.mem_map.mpr ⟨(a, e), he, rfl⟩
  rw [filter_connects_dot htidy hr, hfilter, List.map_singleton]

end Dot

namespace Func

open Dot

variable {fn : Func} {a c d : BlockId}

theorem edges_of_term {t : Terminator} (h : (fn.block a).term = some t) : fn.edges a = t.edges := by
  rw [edges, Block.edges, h]

/-- The immediate dominator of a block is reached, too. -/
theorem ImmediatelyDominates.reaches (h : fn.ImmediatelyDominates d c) : fn.Reaches d := by
  obtain ⟨r, hr, hdom⟩ := h
  exact ⟨r, hr, hdom.dominates.reaches_left⟩

/-- The node statement of a block that the entry reaches. -/
theorem Spellable.showsIdom (hfn : fn.Spellable) (hc : fn.Reaches c) :
    fn.root = some c ∧
        ShowsIdom (nodeLine fn (DominatorTree.build fn) c).toList "∅".toList ∨
      ∃ d, fn.ImmediatelyDominates d c ∧
        ShowsIdom (nodeLine fn (DominatorTree.build fn) c).toList (escape (fn.label d)).toList := by
  have hclosed : fn.Closed := hfn.closed
  have hown : fn.owns c := hclosed.owns_of_reaches hc
  have hsome : ∀ d, (DominatorTree.build fn).idom? c.index = some d ↔
      fn.ImmediatelyDominates d c := fun d =>
    DominatorTree.idom?_build_eq_some_iff hclosed (func_of_owns hown)
  have hshows : ShowsIdom (nodeLine fn (DominatorTree.build fn) c).toList
      (escape (idomText fn (DominatorTree.build fn) c)).toList :=
    showsIdom_nodeLine hfn hown fun d hd => hclosed.owns_of_reaches ((hsome d).mp hd).reaches
  rw [idomText] at hshows
  cases hidom : (DominatorTree.build fn).idom? c.index with
  | some d =>
    rw [hidom] at hshows
    exact .inr ⟨d, (hsome d).mp hidom, hshows⟩
  | none =>
    have hroot := mt (DominatorTree.isSome_idom?_build_iff hclosed (func_of_owns hown)).mpr
      (by simp [hidom])
    have hescape : escape "∅" = "∅" := by decide
    rw [hidom] at hshows
    dsimp only at hshows
    rw [hescape] at hshows
    exact .inl ⟨by_contra fun hne => hroot ⟨hc, hne⟩, hshows⟩

/-- **The drawing of a function that can be spelled shows its reachable graph.** -/
theorem Spellable.shows_dot (hfn : fn.Spellable) (htidy : fn.Tidy) :
    Shows fn (Text.lines fn.dot.toList) := by
  have hclosed : fn.Closed := hfn.closed
  obtain ⟨r, hr, -⟩ := hfn.entry
  constructor
  case start => exact ⟨r, hr, count_startLine htidy hr⟩
  case edge =>
    intro a b ha hedge
    have hown : fn.owns a := hclosed.owns_of_reaches ha
    obtain ⟨t, ht⟩ := Option.isSome_iff_exists.mp (hfn.terminated a hown)
    have hsucc : b ∈ t.successors := by
      rwa [Edge, successors, Block.successors, Block.edges, ht] at hedge
    obtain ⟨why, hfirst, hfind⟩ := Terminator.exists_firstTo (hfn.sorted.term a hown t ht) hsucc
    rw [← edges_of_term ht] at hfind
    have hmem : (a, (why, b)) ∈ drawnEdges fn := (mem_drawnEdges_iff hclosed).mpr ⟨ha, hfind⟩
    have hfilter := filter_connects_eq htidy hclosed hr hmem
    rw [edgeText] at hfilter
    exact ⟨t, why, ht, hfirst, hfilter⟩
  case no_edge =>
    intro a b ha hb hnone
    rw [filter_connects_dot htidy hr, List.map_eq_nil_iff, List.filter_eq_nil_iff]
    rintro ⟨a', e⟩ hx hconnects
    obtain ⟨ha', hfind⟩ := (mem_drawnEdges_iff hclosed).mp hx
    have hedge : fn.Edge a' e.2 := List.mem_map_of_mem (List.mem_of_find?_eq_some hfind)
    obtain ⟨haindex, hbindex⟩ := connects_edgeText.mp hconnects
    obtain rfl := eq_of_index_eq (func_of_owns (hclosed.owns_of_reaches ha')) ha haindex
    obtain rfl :=
      eq_of_index_eq (func_of_owns (hclosed.owns_of_reaches (ha'.edge hedge))) hb hbindex
    exact hnone ⟨ha', hedge⟩
  case only =>
    intro l hl hisEdge
    rcases eq_of_isEdge htidy hr hl hisEdge with rfl | ⟨⟨a, e⟩, hx, rfl⟩
    · exact .inl ⟨r, hr, rfl⟩
    · obtain ⟨ha, hfind⟩ := (mem_drawnEdges_iff hclosed).mp hx
      exact .inr ⟨a, e.2, ha, List.mem_map_of_mem (List.mem_of_find?_eq_some hfind),
        connects_edgeText.mpr ⟨rfl, rfl⟩⟩
  case node =>
    intro c hc
    have hcount := (htidy.nodeCount_eq hclosed (func_of_owns (hclosed.owns_of_reaches hc))).1 hc
    obtain ⟨front, -, hlines⟩ := exists_front_lines htidy hr
    have hmem : (nodeLine fn (DominatorTree.build fn) c).toList ∈ Text.lines fn.dot.toList := by
      rw [hlines]
      refine List.mem_append_right _ (List.mem_cons_of_mem _ (List.mem_append_left _ ?_))
      refine List.mem_map_of_mem (List.mem_flatMap.mpr ⟨c, ?_, List.mem_cons_self ..⟩)
      exact (mem_blocks_iff hclosed).mpr hc
    exact ⟨_, filter_eq_singleton hcount hmem (declares_nodeLine.mpr rfl), hfn.showsIdom hc⟩

/-- **The drawing of a function that was read shows its reachable graph.** -/
theorem dot_shows_reachable_graph {src : String} {serial : Nat} {m : Module}
    (hread : Module.parse src serial = .ok m) (hfn : fn ∈ m.funcs) :
    Shows fn (Text.lines fn.dot.toList) :=
  (Source.spellable_of_parse hread fn hfn).shows_dot (Source.tidy_of_parse hread fn hfn)

end Func

/-- A program with a switch that leads to one block by default and to another twice, a way back to
the entry, and a block that is out of reach. -/
def dispatchText : String :=
  "func @f(%a) \x7b\n" ++
  "entry:\n  switch %a, one, [3, two], [1, two], [2, one]\n" ++
  "one:\n  jmp entry\n" ++
  "two:\n  ret\n" ++
  "lost:\n  jmp one\n\x7d\n"

/-- The function of this program. -/
def dispatch : Func where
  serial := 0
  name := "f"
  root := some ⟨0, 0⟩
  params := [⟨0, 0, "a"⟩]
  values := #[⟨0, 0, "a"⟩]
  blocks := #[
    { label := "entry", preds := [⟨0, 1⟩],
      term := some (.switch ⟨0, 0, "a"⟩ ⟨0, 1⟩ [(1, ⟨0, 2⟩), (2, ⟨0, 1⟩), (3, ⟨0, 2⟩)]) },
    { label := "one", preds := [⟨0, 0⟩, ⟨0, 0⟩, ⟨0, 3⟩], term := some (.jump ⟨0, 0⟩) },
    { label := "two", preds := [⟨0, 0⟩, ⟨0, 0⟩], term := some (.ret []) },
    { label := "lost", term := some (.jump ⟨0, 1⟩) }]

theorem parse_dispatchText : Module.parse dispatchText = .ok ⟨[dispatch]⟩ := by
  decide +kernel

/-- Its drawing shows its reachable graph: the entry has one edge statement to the block of the least
and the greatest case, and it is about the least. -/
theorem Func.dispatch_shows_reachable_graph :
    Module.parse dispatchText = .ok ⟨[dispatch]⟩ ∧
      Dot.Shows dispatch (Text.lines dispatch.dot.toList) ∧
      Terminator.FirstTo ⟨0, 2⟩
        (.switch ⟨0, 0, "a"⟩ ⟨0, 1⟩ [(1, ⟨0, 2⟩), (2, ⟨0, 1⟩), (3, ⟨0, 2⟩)]) (.case 1) := by
  refine ⟨parse_dispatchText, Func.dot_shows_reachable_graph parse_dispatchText (by simp),
    .case _ _ (by simp) ?_⟩
  simp only [List.mem_cons, Prod.mk.injEq, List.not_mem_nil, or_false]
  rintro w (⟨rfl, -⟩ | ⟨-, h⟩ | ⟨rfl, -⟩)
  · decide
  · exact absurd h (by decide)
  · decide

end BranchFusion
