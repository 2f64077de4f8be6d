import BranchFusion.Proofs.DrawnGraph

/-!
# What names do to a drawing

A drawing is read character by character (`BranchFusion.Dot.scan`): a quote opens an ID, which the
next quote closes that no backslash stands in front of; an angle bracket opens a label, in which
there are tags, entities, and text. Comments are left out, since what stands outside of quotes and
labels is fixed text and numbers.

In labels names are written with entities, so the name of a block, of a value or of a callee is text
and nothing else. What stands behind the name of the function is therefore read as the outline of
its graph (`BranchFusion.Dot.outline`), which is made from the numbers of the blocks, the numbers of
their instructions and their edges, and from no name. The name of the function stands in front,
between quotes, as it is: the quote behind it closes it if and only if the name holds no quote and
does not end in a backslash, escaped ones aside (`BranchFusion.Dot.closes`).
`BranchFusion.Func.dot_outlined` puts this together for every function that was read.
-/

namespace BranchFusion

namespace Dot

variable {fn : Func} {tree : DominatorTree} {b r : BlockId} {m m' m'' : Mode}

/-! ### Reading a drawing -/

/-- **What a drawing is read as.** The text of a label is passed over, and so are the entities that
there are. -/
inductive Token
  /-- A character outside of quotes and labels, or a bracket around a label. -/
  | mark (c : Char)
  /-- What stands between two quotes. -/
  | quoted (text : List Char)
  /-- What stands between the brackets of a tag. -/
  | tag (text : List Char)
  /-- What stands between an ampersand and a semicolon and is no entity. -/
  | stray (name : List Char)
  deriving Repr, DecidableEq

/-- Where a reader is, with what it has read of what is not complete. -/
inductive Mode
  | plain
  | quoted (text : List Char)
  | escaped (text : List Char)
  | label
  | tag (text : List Char)
  | entity (name : List Char)
  deriving Repr, DecidableEq

/-- The entities. -/
def entities : List (List Char) :=
  ["amp", "lt", "gt", "#34", "#39", "nbsp"].map String.toList

/-- **Reads a character.** Behind a backslash in quotes no character has a meaning. -/
def step : Mode → Char → List Token × Mode
  | .plain, '"' => ([], .quoted [])
  | .plain, '<' => ([.mark '<'], .label)
  | .plain, c => ([.mark c], .plain)
  | .quoted text, '"' => ([.quoted text], .plain)
  | .quoted text, '\\' => ([], .escaped (text ++ ['\\']))
  | .quoted text, c => ([], .quoted (text ++ [c]))
  | .escaped text, c => ([], .quoted (text ++ [c]))
  | .label, '>' => ([.mark '>'], .plain)
  | .label, '<' => ([], .tag [])
  | .label, '&' => ([], .entity [])
  | .label, _ => ([], .label)
  | .tag text, '>' => ([.tag text], .label)
  | .tag text, c => ([], .tag (text ++ [c]))
  | .entity name, ';' => (if name ∈ entities then [] else [.stray name], .label)
  | .entity name, c => ([], .entity (name ++ [c]))

/-- **Reads a text.** -/
def scan : Mode → List Char → List Token × Mode
  | m, [] => ([], m)
  | m, c :: cs =>
    ((step m c).1 ++ (scan (step m c).2 cs).1, (scan (step m c).2 cs).2)

theorem scan_append (m : Mode) (xs ys : List Char) : scan m (xs ++ ys) =
    ((scan m xs).1 ++ (scan (scan m xs).2 ys).1, (scan (scan m xs).2 ys).2) := by
  induction xs generalizing m with
  | nil => rfl
  | cons c xs ih => simp only [List.cons_append, scan, ih, List.append_assoc]

/-- **A piece of a text**, with where the reader is in front of it and behind it. -/
def Reads (m : Mode) (text : List Char) (ts : List Token) (m' : Mode) : Prop :=
  scan m text = (ts, m')

instance (text : List Char) (ts : List Token) : Decidable (Reads m text ts m') :=
  inferInstanceAs (Decidable (_ = _))

theorem Reads.append {xs ys : List Char} {ts us : List Token} (h : Reads m xs ts m')
    (h' : Reads m' ys us m'') : Reads m (xs ++ ys) (ts ++ us) m'' := by
  rw [Reads] at h h'
  rw [Reads, scan_append, h, h']

theorem Reads.toList_append {s t : String} {ts us : List Token} (h : Reads m s.toList ts m')
    (h' : Reads m' t.toList us m'') : Reads m (s ++ t).toList (ts ++ us) m'' := by
  rw [String.toList_append]
  exact h.append h'

theorem Reads.toList_ofList {cs : List Char} {ts : List Token} (h : Reads m cs ts m') :
    Reads m (String.ofList cs).toList ts m' := by
  rwa [String.toList_ofList]

/-- Pieces that are read one by one, in each of which a reader comes back to where it was. -/
theorem Reads.flatMap {α : Type} {f : α → List Char} {g : α → List Token} {l : List α}
    (h : ∀ x ∈ l, Reads m (f x) (g x) m) : Reads m (l.flatMap f) (l.flatMap g) m := by
  induction l with
  | nil => rfl
  | cons x l ih =>
    rw [List.flatMap_cons, List.flatMap_cons]
    exact (h x (by simp)).append (ih fun y hy => h y (List.mem_cons_of_mem x hy))

theorem Reads.flatMap_nil {α : Type} {f : α → List Char} {l : List α}
    (h : ∀ x ∈ l, Reads m (f x) [] m) : Reads m (l.flatMap f) [] m := by
  have hall : Reads m (l.flatMap f) (l.flatMap fun _ => []) m := .flatMap h
  rwa [List.flatMap_eq_nil_iff.mpr fun _ _ => rfl] at hall

/-- The marks of a text. -/
def marks (s : String) : List Token := s.toList.map .mark

theorem step_plain {c : Char} (hquote : c ≠ '"') (hopen : c ≠ '<') :
    step .plain c = ([.mark c], .plain) := by
  unfold step
  split <;> simp_all

/-- A text without quotes and labels. -/
theorem reads_marks {cs : List Char} (hquote : '"' ∉ cs) (hopen : '<' ∉ cs) :
    Reads .plain cs (cs.map .mark) .plain := by
  induction cs with
  | nil => rfl
  | cons c cs ih =>
    have hc : step .plain c = ([.mark c], .plain) :=
      step_plain (List.ne_of_not_mem_cons hquote).symm (List.ne_of_not_mem_cons hopen).symm
    have hcs : scan .plain cs = (cs.map .mark, .plain) :=
      ih (List.not_mem_of_not_mem_cons hquote) (List.not_mem_of_not_mem_cons hopen)
    rw [Reads, scan, hc, hcs]
    rfl

/-! ### Names in quotes -/

/-- **Whether a quote behind a name closes it**: there is no quote in it and no backslash at its
end, but for those behind a backslash. -/
def closes : List Char → Bool
  | [] => true
  | '"' :: _ => false
  | ['\\'] => false
  | '\\' :: _ :: cs => closes cs
  | _ :: cs => closes cs

section

variable {c : Char} {cs rest : List Char}

theorem scan_close (text cs : List Char) : scan (.quoted text) ('"' :: cs) =
    (.quoted text :: (scan .plain cs).1, (scan .plain cs).2) := rfl

theorem scan_escape (text : List Char) (c : Char) (cs : List Char) :
    scan (.quoted text) ('\\' :: c :: cs) = scan (.quoted (text ++ ['\\', c])) cs := by
  simp [scan, step]

theorem scan_char (hquote : c ≠ '"') (hback : c ≠ '\\') (text cs : List Char) :
    scan (.quoted text) (c :: cs) = scan (.quoted (text ++ [c])) cs := by
  have hstep : step (.quoted text) c = ([], .quoted (text ++ [c])) := by
    unfold step
    split <;> simp_all
  rw [scan, hstep]
  rfl

/-- The last case of `BranchFusion.Dot.closes` is about a character that has no meaning. -/
theorem ne_backslash (hlast : c = '\\' → cs = [] → False)
    (hescape : ∀ d ds, c = '\\' → cs = d :: ds → False) : c ≠ '\\' := by
  rintro rfl
  cases cs with
  | nil => exact hlast rfl rfl
  | cons d ds => exact hescape d ds rfl rfl

/-- A name that a quote closes is read up to the quote behind it. -/
theorem scan_quoted (h : closes cs = true) (text : List Char) :
    scan (.quoted text) (cs ++ '"' :: rest) =
      (.quoted (text ++ cs) :: (scan .plain rest).1, (scan .plain rest).2) := by
  induction cs using closes.induct generalizing text with
  | case1 => rw [List.nil_append, scan_close, List.append_nil]
  | case2 cs => exact absurd h (by simp [closes])
  | case3 => exact absurd h (by simp [closes])
  | case4 c cs ih =>
    rw [List.cons_append, List.cons_append, scan_escape, ih (by simpa only [closes] using h),
      List.append_assoc]
    rfl
  | case5 c cs hquote hlast hescape ih =>
    rw [closes.eq_5 c cs hquote hlast hescape] at h
    rw [List.cons_append, scan_char hquote (ne_backslash hlast hescape), ih h, List.append_assoc]
    rfl

/-- The next ID of a reader that is in quotes starts with what it has read. -/
theorem prefix_of_scan_quoted {t : List Char} (text : List Char)
    (h : [.quoted t] <+: (scan (.quoted text) cs).1) : text <+: t := by
  induction cs using closes.induct generalizing text with
  | case1 => exact absurd h (by simp [scan])
  | case2 cs =>
    rw [scan_close, List.cons_prefix_cons] at h
    exact (Token.quoted.inj h.1) ▸ List.prefix_rfl
  | case3 => exact absurd h (by simp [scan, step])
  | case4 c cs ih =>
    rw [scan_escape] at h
    exact (List.prefix_append _ _).trans (ih _ h)
  | case5 c cs hquote hlast hescape ih =>
    rw [scan_char hquote (ne_backslash hlast hescape)] at h
    exact (List.prefix_append _ _).trans (ih _ h)

/-- A name that is read up to the quote behind it is one that a quote closes. -/
theorem closes_of_scan_quoted (text : List Char)
    (h : [.quoted (text ++ cs)] <+: (scan (.quoted text) (cs ++ '"' :: rest)).1) :
    closes cs = true := by
  induction cs using closes.induct generalizing text with
  | case1 => rfl
  | case2 cs =>
    -- the quote in the name closes it
    rw [List.cons_append, scan_close, List.cons_prefix_cons] at h
    have hlength := congrArg List.length (Token.quoted.inj h.1)
    simp at hlength
  | case3 =>
    -- the quote behind the name is escaped, so the ID goes on
    rw [List.singleton_append, scan_escape] at h
    have hlength := (prefix_of_scan_quoted _ h).length_le
    simp at hlength
  | case4 c cs ih =>
    rw [List.cons_append, List.cons_append, scan_escape] at h
    exact ih (text ++ ['\\', c]) (by simpa using h)
  | case5 c cs hquote hlast hescape ih =>
    rw [List.cons_append, scan_char hquote (ne_backslash hlast hescape)] at h
    rw [closes.eq_5 c cs hquote hlast hescape]
    exact ih (text ++ [c]) (by simpa using h)

/-- A text without quotes and backslashes. -/
theorem closes_of_not_mem (hquote : '"' ∉ cs) (hback : '\\' ∉ cs) : closes cs = true := by
  induction cs using closes.induct with
  | case1 => rfl
  | case2 cs => exact absurd (List.mem_cons_self ..) hquote
  | case3 => exact absurd (List.mem_cons_self ..) hback
  | case4 c cs ih => exact absurd (List.mem_cons_self ..) hback
  | case5 c cs hne hlast hescape ih =>
    rw [closes.eq_5 c cs hne hlast hescape]
    exact ih (List.not_mem_of_not_mem_cons hquote) (List.not_mem_of_not_mem_cons hback)

/-- **The quote behind a name closes it if and only if the name lets it.** -/
theorem quoted_prefix_iff :
    [.quoted cs] <+: (scan (.quoted []) (cs ++ '"' :: rest)).1 ↔ closes cs = true := by
  constructor
  · exact closes_of_scan_quoted []
  · intro h
    rw [scan_quoted h, List.nil_append]
    exact List.prefix_append [_] _

end

/-! ### Names in labels -/

/-- **A character of a name is text of a label.** -/
theorem reads_escapeChar (c : Char) : Reads .label (escapeChar c) [] .label := by
  unfold escapeChar
  split
  case h_6 hamp hopen hclose _ _ =>
    have hstep : step .label c = ([], .label) := by
      unfold step
      split <;> simp_all
    rw [Reads, scan, hstep]
    rfl
  all_goals decide

theorem reads_escape (s : String) : Reads .label (escape s).toList [] .label :=
  .toList_ofList (.flatMap_nil fun c _ => reads_escapeChar c)

/-- The tags of a row. -/
def rowTags : List Token :=
  ["tr", "td align=\"left\"", "/td", "/tr"].map fun s => .tag s.toList

theorem blank_not_mem_escapeChar {c : Char} (h : c ≠ ' ') : ' ' ∉ escapeChar c := by
  unfold escapeChar
  split
  case h_6 => exact fun hmem => h (List.mem_singleton.mp hmem).symm
  all_goals decide

/-- The blanks of a row are entities, too. -/
theorem reads_blanks (s : String) : Reads .label ((escape s).toList.flatMap fun c =>
    if c = ' ' then "&nbsp;".toList else [c]) [] .label := by
  have hescape : (escape s).toList = s.toList.flatMap escapeChar := String.toList_ofList
  rw [hescape, List.flatMap_assoc]
  refine .flatMap_nil fun c _ => ?_
  by_cases hc : c = ' '
  · subst hc
    decide
  · have hkeep : ∀ d ∈ escapeChar c, (if d = ' ' then "&nbsp;".toList else [d]) = [d] :=
      fun d hd => if_neg fun heq : d = ' ' => blank_not_mem_escapeChar hc (heq ▸ hd)
    rw [List.flatMap_congr hkeep, List.flatMap_singleton']
    exact reads_escapeChar c

theorem reads_row (s : String) : Reads .label (row s).toList rowTags .label := by
  have hopen : Reads .label "<tr><td align=\"left\">".toList (rowTags.take 2) .label := by decide
  have hclose : Reads .label "</td></tr>".toList (rowTags.drop 2) .label := by decide
  exact (hopen.toList_append (reads_blanks s).toList_ofList).toList_append hclose

/-- The tags of the first row of a table, in front of the name of its block and behind it. -/
def headTags : List Token :=
  ["table border=\"1\" cellborder=\"0\" cellspacing=\"0\"", "tr", "td bgcolor=\"lightgrey\"", "b",
    "/b", "/td", "/tr"].map fun s => .tag s.toList

/-- The tags of a table with a number of rows under the first. -/
def tableTags (rows : Nat) : List Token :=
  headTags ++ (List.replicate rows rowTags).flatten ++ [.tag "/table".toList]

theorem rows_eq {s : String} (h : Unbroken s) : rows s = [row s] := by
  rw [rows, Text.lines_of_not_mem h, List.map_singleton, String.ofList_toList]

theorem reads_rows (htidy : fn.Tidy) (hb : fn.owns b) :
    Reads .label (String.join ((fn.blockLines b).flatMap rows)).toList
      (List.replicate (fn.block b).size rowTags).flatten .label := by
  have hrows : (fn.blockLines b).flatMap rows = (fn.blockLines b).map row := by
    rw [List.flatMap_congr fun s hs => rows_eq (htidy.clean_blockLines hb s hs).1]
    exact List.map_eq_flatMap.symm
  have htags : (fn.blockLines b).flatMap (fun _ => rowTags) =
      (List.replicate (fn.block b).size rowTags).flatten := by
    rw [List.flatMap_def, List.map_const', Func.length_blockLines]
  rw [hrows, String.toList_join, List.flatMap_map, ← htags]
  exact .flatMap fun s _ => reads_row s

/-- **A table has a row for each instruction**, and names are text in it. -/
theorem reads_table (htidy : fn.Tidy) (hb : fn.owns b) :
    Reads .label (table fn tree b).toList (tableTags (fn.block b).size) .label := by
  have hopen : Reads .label (String.toList
      "<table border=\"1\" cellborder=\"0\" cellspacing=\"0\"><tr><td bgcolor=\"lightgrey\"><b>")
      (headTags.take 4) .label := by
    decide +kernel
  have hpreds : Reads .label "</b> (pred: ".toList [.tag "/b".toList] .label := by decide
  have hidom : Reads .label ", idom: ".toList [] .label := by decide
  have hrow : Reads .label ")</td></tr>".toList (headTags.drop 5) .label := by decide
  have hclose : Reads .label "</table>".toList [.tag "/table".toList] .label := by decide
  rw [table_eq]
  exact ((((((((hopen.toList_append (reads_escape _)).toList_append hpreds).toList_append
    (reads_escape _)).toList_append hidom).toList_append (reads_escape _)).toList_append
    hrow).toList_append (reads_rows htidy hb)).toList_append hclose)

/-! ### The outline of a drawing -/

/-- **What a drawing shows of a block**: its number, the number of its instructions, and where the
edges that are drawn lead. -/
structure Sketch where
  index : Nat
  size : Nat
  edges : List (Terminator.Reason × Nat)
  deriving Repr, DecidableEq

/-- The sketch of a block. -/
def sketch (fn : Func) (b : BlockId) : Sketch where
  index := b.index
  size := (fn.block b).size
  edges := (distinct [] (fn.edges b)).map fun e => (e.1, e.2.index)

/-- The sketches of the blocks that are drawn. -/
def sketches (fn : Func) : List Sketch := (blocks fn).map (sketch fn)

/-- The name of the node with a number. -/
def nodeName (index : Nat) : String := "bb_" ++ toString index

/-- A node statement. -/
def nodeOutline (index size : Nat) : List Token :=
  marks ("    " ++ nodeName index ++ " [ label = <") ++ tableTags size ++ marks "> ]\n"

/-- An edge statement. -/
def edgeOutline (index : Nat) (e : Terminator.Reason × Nat) : List Token :=
  marks ("    " ++ nodeName index ++ " -> " ++ nodeName e.2 ++ " [ label = ") ++
    .quoted (edgeLabel e.1).toList :: marks " ]\n"

/-- The statements of a block. -/
def Sketch.outline (s : Sketch) : List Token :=
  nodeOutline s.index s.size ++ s.edges.flatMap (edgeOutline s.index)

/-- A line of a text. -/
def line (s : String) : List Char := s.toList ++ ['\n']

/-- **The outline of a graph**: what its drawing is read as, behind the name of the function. -/
def outline (entry : Nat) (graph : List Sketch) : List Token :=
  marks " \x7b\n" ++ (scan .plain (settings.flatMap line)).1 ++
    marks ("    START -> " ++ nodeName entry ++ "\n") ++ graph.flatMap Sketch.outline ++
    marks "\x7d\n"

theorem marks_append (s t : String) : marks (s ++ t) = marks s ++ marks t := by
  rw [marks, String.toList_append, List.map_append]
  rfl

theorem line_append (s t : String) : line (s ++ t) = s.toList ++ line t := by
  rw [line, String.toList_append, List.append_assoc]
  rfl

/-- The name of a node, with what stands in front of it. -/
theorem reads_node {s : String} (hquote : '"' ∉ s.toList) (hopen : '<' ∉ s.toList) (b : BlockId) :
    Reads .plain (s ++ node b).toList (marks (s ++ nodeName b.index)) .plain := by
  refine reads_marks ?_ ?_
  all_goals rw [String.toList_append, List.mem_append, not_or]
  · exact ⟨hquote, not_mem_node (by decide) (by decide)⟩
  · exact ⟨hopen, not_mem_node (by decide) (by decide)⟩

theorem reads_nodeLine (htidy : fn.Tidy) (hb : fn.owns b) :
    Reads .plain (line (nodeLine fn tree b)) (nodeOutline b.index (fn.block b).size) .plain := by
  have hopen : Reads .plain " [ label = < ".toList (marks " [ label = <") .label := by decide
  have hclose : Reads .label (line " > ]") (marks "> ]\n") .plain := by decide
  rw [nodeOutline, marks_append, nodeLine, line_append]
  exact (((reads_node (by decide) (by decide) b).toList_append hopen).toList_append
    (reads_table htidy hb)).append hclose

theorem closes_edgeLabel : ∀ why : Terminator.Reason, closes (edgeLabel why).toList = true
  | .always | .whenTrue | .whenFalse | .otherwise => by decide
  | .case w => by
    refine closes_of_not_mem (fun h => ?_) fun h => ?_
    all_goals
      rcases Text.Numeral.mem_decimal h with h | h
      · exact absurd h (by decide)
      · exact absurd h (by decide)

theorem reads_edgeLine (e : Terminator.Reason × BlockId) :
    Reads .plain (line (edgeLine b e)) (edgeOutline b.index (e.1, e.2.index)) .plain := by
  have hends : Reads .plain ("    " ++ node b ++ " -> " ++ node e.2).toList
      (marks ("    " ++ nodeName b.index ++ " -> " ++ nodeName e.2.index)) .plain := by
    refine reads_node ?_ ?_ e.2
    all_goals rw [String.toList_append, String.toList_append, List.mem_append, List.mem_append,
      not_or, not_or]
    · exact ⟨⟨by decide, not_mem_node (by decide) (by decide)⟩, by decide⟩
    · exact ⟨⟨by decide, not_mem_node (by decide) (by decide)⟩, by decide⟩
  have hopen : Reads .plain " [ label = \"".toList (marks " [ label = ") (.quoted []) := by decide
  have hlabel : Reads (.quoted []) ((edgeLabel e.1).toList ++ line "\" ]")
      (.quoted (edgeLabel e.1).toList :: marks " ]\n") .plain := by
    have hclose : scan .plain (line " ]") = (marks " ]\n", .plain) := by decide
    have hline : line "\" ]" = '"' :: line " ]" := by decide
    rw [Reads, hline, scan_quoted (closes_edgeLabel e.1), hclose, List.nil_append]
  rw [edgeOutline, marks_append, edgeLine, line_append, String.toList_append, List.append_assoc]
  exact (hends.toList_append hopen).append hlabel

/-- The statements of a block are read as the outline of its sketch. -/
theorem reads_statements (htidy : fn.Tidy) (hb : fn.owns b) :
    Reads .plain ((statements fn tree b).flatMap line) (sketch fn b).outline .plain := by
  rw [statements, List.flatMap_cons, List.flatMap_map, Sketch.outline, sketch, List.flatMap_map]
  exact (reads_nodeLine htidy hb).append (.flatMap fun e _ => reads_edgeLine e)

/-! ### The text of a drawing -/

/-- Lines, joined by newlines, with one at the end. -/
theorem toList_join_newline : ∀ {ss : List String}, ss ≠ [] →
    (Text.join "\n" ss ++ "\n").toList = ss.flatMap line
  | [], hne => absurd rfl hne
  | [s], _ => by
    rw [Text.join_singleton, List.flatMap_singleton, String.toList_append]
    rfl
  | s :: t :: ss, _ => by
    have ih : (Text.join "\n" (t :: ss) ++ "\n").toList = (t :: ss).flatMap line :=
      toList_join_newline (by simp)
    have hline : (s ++ "\n").toList = line s := String.toList_append
    rw [Text.join_cons_cons, String.append_assoc, String.toList_append, ih, hline]
    rfl

/-- What stands behind the name of a function in its drawing. -/
def body (fn : Func) (r : BlockId) : List Char :=
  line " \x7b" ++ settings.flatMap line ++ line ("    START -> " ++ node r) ++
    (blocks fn).flatMap (fun b => (statements fn (DominatorTree.build fn) b).flatMap line) ++
    line "\x7d"

theorem toList_dot (hr : fn.root = some r) :
    fn.dot.toList = "digraph \"".toList ++ (fn.name.toList ++ '"' :: body fn r) := by
  have hfirst : line ("digraph \"" ++ fn.name ++ "\" \x7b") =
      "digraph \"".toList ++ (fn.name.toList ++ '"' :: line " \x7b") := by
    have hclose : line "\" \x7b" = '"' :: line " \x7b" := by decide
    rw [line_append, String.toList_append, hclose, List.append_assoc]
  have hne : lines fn ≠ [] := by simp [lines]
  rw [Func.dot, toList_join_newline hne, lines_eq, preamble_eq hr, List.flatMap_append,
    List.flatMap_append, List.flatMap_cons, List.flatMap_append, List.flatMap_assoc, hfirst, body]
  simp only [List.flatMap_singleton, List.append_assoc, List.cons_append]

/-- **What stands behind the name of a function is read as the outline of its graph.** -/
theorem reads_body (htidy : fn.Tidy) (hclosed : fn.Closed) :
    Reads .plain (body fn r) (outline r.index (sketches fn)) .plain := by
  have hopen : Reads .plain (line " \x7b") (marks " \x7b\n") .plain := by decide
  have hsettings : Reads .plain (settings.flatMap line) (scan .plain (settings.flatMap line)).1
      .plain := by
    decide +kernel
  have hstart : Reads .plain (line ("    START -> " ++ node r))
      (marks ("    START -> " ++ nodeName r.index ++ "\n")) .plain := by
    rw [marks_append]
    exact (reads_node (by decide) (by decide) r).append (by decide)
  have hgraph : Reads .plain
      ((blocks fn).flatMap fun b => (statements fn (DominatorTree.build fn) b).flatMap line)
      ((sketches fn).flatMap Sketch.outline) .plain := by
    rw [sketches, List.flatMap_map]
    exact .flatMap fun b hb =>
      reads_statements htidy (hclosed.owns_of_reaches ((mem_blocks_iff hclosed).mp hb))
  have hclose : Reads .plain (line "\x7d") (marks "\x7d\n") .plain := by decide
  exact (((hopen.append hsettings).append hstart).append hgraph).append hclose

/-! ### The same graph with other names -/

/-- **Functions with the same graph**: the same entry, the same edges and as many instructions in
each block, and as many edges in all. Their names may be others. -/
structure SameGraph (fn fn' : Func) : Prop where
  root : fn'.root = fn.root
  edges : ∀ b, fn'.edges b = fn.edges b
  size : ∀ b, (fn'.block b).size = (fn.block b).size
  edgeCount : fn'.edgeCount = fn.edgeCount

theorem SameGraph.sketches_eq {fn' : Func} (h : SameGraph fn fn') : sketches fn' = sketches fn := by
  have hsuccessors : ∀ b, fn'.successors b = fn.successors b := fun b =>
    congrArg (List.map Prod.snd) (h.edges b)
  have hvisits : ∀ fuel queue drawn, visits fn' fuel queue drawn = visits fn fuel queue drawn := by
    intro fuel
    induction fuel with
    | zero => exact fun _ _ => rfl
    | succ fuel ih =>
      intro queue drawn
      cases queue with
      | nil => rfl
      | cons b queue => simp only [visits, ih, hsuccessors]
  have hsketch : sketch fn' = sketch fn := by
    funext b
    rw [sketch, sketch, h.size, h.edges]
  rw [sketches, sketches, blocks, blocks, h.root, h.edgeCount, hvisits, hsketch]

/-- **A text that shows the outline of a graph but for the name in front.** Behind the name there is
nothing that depends on names. The quote behind the name closes it if and only if the name lets it,
and then this is all there is in the text. -/
structure Outlined (fn : Func) (text : List Char) : Prop where
  body : ∃ r rest, fn.root = some r ∧
    text = "digraph \"".toList ++ (fn.name.toList ++ '"' :: rest) ∧
    Reads .plain rest (outline r.index (sketches fn)) .plain
  name : marks "digraph " ++ [.quoted fn.name.toList] <+: (scan .plain text).1 ↔
    closes fn.name.toList = true
  whole : closes fn.name.toList = true → ∃ r, fn.root = some r ∧ Reads .plain text
    (marks "digraph " ++ .quoted fn.name.toList :: outline r.index (sketches fn)) .plain

/-- What a text with the name of a function in front is read as. -/
theorem scan_digraph (cs : List Char) : scan .plain ("digraph \"".toList ++ cs) =
    (marks "digraph " ++ (scan (.quoted []) cs).1, (scan (.quoted []) cs).2) := by
  have hopen : scan .plain "digraph \"".toList = (marks "digraph ", .quoted []) := by decide
  rw [scan_append, hopen]

end Dot

namespace Func

open Dot

variable {fn : Func}

theorem Tidy.outlined_dot (htidy : fn.Tidy) (hclosed : fn.Closed) (hroot : fn.root.isSome) :
    Outlined fn fn.dot.toList := by
  obtain ⟨r, hr⟩ := Option.isSome_iff_exists.mp hroot
  have hbody : scan .plain (Dot.body fn r) = (outline r.index (sketches fn), .plain) :=
    reads_body htidy hclosed
  constructor
  case body => exact ⟨r, _, hr, toList_dot hr, hbody⟩
  case name => rw [toList_dot hr, scan_digraph, List.prefix_append_right_inj, quoted_prefix_iff]
  case whole =>
    intro hcloses
    refine ⟨r, hr, ?_⟩
    rw [Reads, toList_dot hr, scan_digraph, scan_quoted hcloses, hbody, List.nil_append]

/-- **The drawing of a function that was read shows the outline of its graph but for its name**, and
the outline is that of every function with the same graph. -/
theorem dot_outlined {src : String} {serial : Nat} {m : Module}
    (hread : Module.parse src serial = .ok m) (hfn : fn ∈ m.funcs) :
    Outlined fn fn.dot.toList ∧ ∀ fn', SameGraph fn fn' → sketches fn' = sketches fn := by
  have hspellable : fn.Spellable := Source.spellable_of_parse hread fn hfn
  have htidy : fn.Tidy := Source.tidy_of_parse hread fn hfn
  obtain ⟨r, hr, -⟩ := hspellable.entry
  exact ⟨htidy.outlined_dot hspellable.closed (by simp [hr]), fun _ h => h.sketches_eq⟩

end Func

/-- A program with names that have a meaning in labels. -/
def markupText : String :=
  "func @<b>(%x>) \x7b\n" ++
  "a&b:\n  %\"y = call @</table>(%x>)\n  br %\"y, a&b, <i>\n" ++
  "<i>:\n  ret\n\x7d\n"

/-- The function of this program. -/
def markup : Func where
  serial := 0
  name := "<b>"
  root := some ⟨0, 0⟩
  params := [⟨0, 0, "x>"⟩]
  values := #[⟨0, 0, "x>"⟩, ⟨0, 1, "\"y"⟩]
  blocks := #[
    { label := "a&b", instrs := [.call (some ⟨0, 1, "\"y"⟩) "</table>" [⟨0, 0, "x>"⟩]],
      preds := [⟨0, 0⟩], term := some (.branch ⟨0, 1, "\"y"⟩ ⟨0, 0⟩ ⟨0, 1⟩) },
    { label := "<i>", preds := [⟨0, 0⟩], term := some (.ret []) }]

/-- The function with other names. -/
def unmarked : Func where
  serial := 0
  name := "f"
  root := some ⟨0, 0⟩
  params := [⟨0, 0, "x"⟩]
  values := #[⟨0, 0, "x"⟩, ⟨0, 1, "y"⟩]
  blocks := #[
    { label := "loop", instrs := [.call (some ⟨0, 1, "y"⟩) "g" [⟨0, 0, "x"⟩]],
      preds := [⟨0, 0⟩], term := some (.branch ⟨0, 1, "y"⟩ ⟨0, 0⟩ ⟨0, 1⟩) },
    { label := "done", preds := [⟨0, 0⟩], term := some (.ret []) }]

theorem parse_markupText : Module.parse markupText = .ok ⟨[markup]⟩ := by
  decide +kernel

theorem sameGraph_unmarked : Dot.SameGraph markup unmarked := by
  have hblock : ∀ b, (unmarked.block b).edges = (markup.block b).edges ∧
      (unmarked.block b).size = (markup.block b).size := by
    rintro ⟨func, index⟩
    by_cases hfunc : func = 0
    · subst hfunc
      match index with
      | 0 => exact ⟨rfl, rfl⟩
      | 1 => exact ⟨rfl, rfl⟩
      | _ + 2 => exact ⟨rfl, rfl⟩
    · simp [Func.block, Func.block?, markup, unmarked, hfunc, Table.get?]
  exact ⟨rfl, fun b => (hblock b).1, fun b => (hblock b).2, rfl⟩

/-- Its drawing is read as the outline of two blocks, and so are the blocks of the function with
other names. -/
theorem Func.markup_outlined :
    Module.parse markupText = .ok ⟨[markup]⟩ ∧ Dot.SameGraph markup unmarked ∧
      Dot.Reads .plain markup.dot.toList (Dot.marks "digraph " ++ .quoted "<b>".toList ::
        Dot.outline 0 [⟨0, 2, [(.whenTrue, 0), (.whenFalse, 1)]⟩, ⟨1, 1, []⟩]) .plain ∧
      Dot.sketches unmarked = [⟨0, 2, [(.whenTrue, 0), (.whenFalse, 1)]⟩, ⟨1, 1, []⟩] := by
  obtain ⟨houtlined, hsketches⟩ := Func.dot_outlined parse_markupText (List.mem_singleton_self _)
  have hsame : Dot.sketches unmarked = Dot.sketches markup := hsketches unmarked sameGraph_unmarked
  have hmarkup : Dot.sketches markup =
      [⟨0, 2, [(.whenTrue, 0), (.whenFalse, 1)]⟩, ⟨1, 1, []⟩] := by
    decide
  obtain ⟨r, hr, hreads⟩ := houtlined.whole (by decide)
  obtain rfl : ⟨0, 0⟩ = r := Option.some.inj hr
  rw [hmarkup] at hreads hsame
  exact ⟨parse_markupText, sameGraph_unmarked, hreads, hsame⟩

/-- A program with a quote in the name of its function. -/
def quoteText : String := "func @a\"b() \x7b\ne:\n  ret\n\x7d\n"

/-- The function of this program. -/
def quote : Func where
  serial := 0
  name := "a\"b"
  root := some ⟨0, 0⟩
  blocks := #[{ label := "e", term := some (.ret []) }]

/-- **The quote in the name closes the name**, in front of the quote behind it. -/
theorem Func.quote_in_name_closes :
    Module.parse quoteText = .ok ⟨[quote]⟩ ∧ quote.name = "a\"b" ∧
      Dot.marks "digraph " ++ [.quoted "a".toList] <+: (Dot.scan .plain quote.dot.toList).1 ∧
      ¬Dot.marks "digraph " ++ [.quoted quote.name.toList] <+:
        (Dot.scan .plain quote.dot.toList).1 := by
  have hname : quote.name.toList = 'a' :: '"' :: ['b'] := by decide
  have hnot : Dot.closes quote.name.toList = false := by decide
  rw [Dot.toList_dot rfl, Dot.scan_digraph, List.prefix_append_right_inj,
    List.prefix_append_right_inj, Dot.quoted_prefix_iff, hnot, hname]
  refine ⟨by decide +kernel, rfl, ?_, by simp⟩
  rw [List.cons_append, List.cons_append, Dot.scan_char (by decide) (by decide), Dot.scan_close]
  exact List.prefix_append [_] _

end BranchFusion
