import BranchFusion.Dominance.Tree
import BranchFusion.Source.Printer

/-!
# Drawing a control-flow graph

The graph of a function in the DOT language. The blocks that the entry reaches are drawn in breadth:
each as a table with its label, its predecessors, its immediate dominator and its instructions, and
after it its edges, each labelled with what it is taken for. Of parallel edges only the first is
drawn.
-/

namespace BranchFusion.Dot

/-- The characters that have a meaning in an HTML label are written as entities. -/
def escapeChar : Char → List Char
  | '&' => "&amp;".toList
  | '<' => "&lt;".toList
  | '>' => "&gt;".toList
  | '"' => "&#34;".toList
  | '\'' => "&#39;".toList
  | c => [c]

/-- The text of an HTML label. -/
def escape (s : String) : String :=
  String.ofList (s.toList.flatMap escapeChar)

/-- A row of a table, in which blanks keep their width. -/
def row (s : String) : String :=
  "<tr><td align=\"left\">" ++
    String.ofList ((escape s).toList.flatMap fun c => if c = ' ' then "&nbsp;".toList else [c]) ++
    "</td></tr>"

/-- The rows of a text, one for each of its lines. -/
def rows (s : String) : List String :=
  (Text.lines s.toList).map fun l => row (String.ofList l)

/-- The table of a block. -/
def table (fn : Func) (tree : DominatorTree) (b : BlockId) : String :=
  let idom := match tree.idom? b.index with
    | some d => fn.label d
    | none => "∅"
  "<table border=\"1\" cellborder=\"0\" cellspacing=\"0\"><tr><td bgcolor=\"lightgrey\"><b>" ++
    escape (fn.label b) ++ "</b> (pred: " ++
    escape (commaList ((fn.block b).preds.map fn.label)) ++ ", idom: " ++ escape idom ++
    ")</td></tr>" ++ String.join ((fn.blockLines b).flatMap rows) ++ "</table>"

/-- The label of an edge. -/
def edgeLabel : Terminator.Reason → String
  | .always => "goto"
  | .whenTrue => "then"
  | .whenFalse => "else"
  | .case w => decimal w
  | .otherwise => "default"

/-- The name of a node. -/
def node (b : BlockId) : String := "bb_" ++ toString b.index

/-- A node statement. -/
def nodeLine (fn : Func) (tree : DominatorTree) (b : BlockId) : String :=
  "    " ++ node b ++ " [ label = < " ++ table fn tree b ++ " > ]"

/-- An edge statement. -/
def edgeLine (a : BlockId) (e : Terminator.Reason × BlockId) : String :=
  "    " ++ node a ++ " -> " ++ node e.2 ++ " [ label = \"" ++ edgeLabel e.1 ++ "\" ]"

/-- The edges to draw: those to nodes that no earlier edge leads to. -/
def distinct : List Nat → List (Terminator.Reason × BlockId) → List (Terminator.Reason × BlockId)
  | _, [] => []
  | seen, e :: es =>
    if seen.contains e.2.index then distinct seen es
    else e :: distinct (e.2.index :: seen) es

/-- Draws the blocks of a queue that are not drawn yet, and what they lead to. A block enters the
queue at most once for each edge. -/
def draw (fn : Func) (tree : DominatorTree) : Nat → List BlockId → List Nat → List String
  | 0, _, _ => []
  | _ + 1, [], _ => []
  | fuel + 1, b :: queue, drawn =>
    if drawn.contains b.index then draw fn tree fuel queue drawn
    else
      let drawn := b.index :: drawn
      nodeLine fn tree b :: (distinct [] (fn.edges b)).map (edgeLine b) ++
        draw fn tree fuel
          (queue ++ (fn.successors b).filter fun s => !drawn.contains s.index) drawn

/-- The statements in front of the nodes. The name of the function is written as it is. -/
def preamble (fn : Func) : List String :=
  ["digraph \"" ++ fn.name ++ "\" \x7b",
    "    graph [ fontname = \"Fira Code\" ]",
    "    node [ fontname = \"Fira Code\" fontsize = \"14\" shape = \"plaintext\" ]",
    "    edge [ fontname = \"Fira Code\" ]",
    "    START [ shape = \"circle\" ]",
    "    START -> " ++ (match fn.root with | some r => node r | none => "")]

/-- The lines of a drawing. -/
def lines (fn : Func) : List String :=
  preamble fn ++
    draw fn (DominatorTree.build fn) (fn.edgeCount + 1) fn.root.toList [] ++ ["\x7d"]

end BranchFusion.Dot

namespace BranchFusion

/-- **The drawing of a function**, in the DOT language. -/
def Func.dot (fn : Func) : String :=
  Text.join "\n" (Dot.lines fn) ++ "\n"

end BranchFusion
