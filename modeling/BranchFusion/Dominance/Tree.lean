import BranchFusion.Dominance.Forest
import BranchFusion.Dominance.Spanning

/-!
# Dominators

A block `a` dominates a block `b` when every path from the entry to `b` passes through `a`. The
strict dominators of a reachable block form a chain, and the last of them is its *immediate*
dominator; immediate dominators make up the dominator tree.

The tree is found by semidominators. The vertices are the numbers of a depth-first spanning tree,
and the semidominator of `w` is the least `v` with a path to `w` whose inner vertices are all
greater than `w`. The vertices are taken in descending order. For each, the forest of the vertices
already taken gives its semidominator, and then the vertices whose semidominator is its parent learn
their immediate dominator, or a vertex that shares it. A last pass in ascending order resolves the
latter.
-/

namespace BranchFusion

/-- What is known while the vertices are taken: the forest, whose keys are semidominators, the
vertices that wait at their semidominator, and the dominator of each vertex as far as known. -/
structure DominatorSearch where
  forest : Forest
  waiting : Array (List Nat)
  dom : Array Nat
deriving DecidableEq, Repr, Inhabited

namespace DominatorSearch

/-- Nothing is known. -/
def start (n : Nat) : DominatorSearch :=
  ⟨.discrete n, Array.replicate n [], Array.replicate n 0⟩

/-- Lowers the key of `w` to the least key that its predecessors offer. -/
def lower (w : Nat) : Forest → List Nat → Forest
  | f, [] => f
  | f, v :: vs =>
    let (q, f) := f.eval v
    lower w (if f.keyOf q < f.keyOf w then f.setKey w (f.keyOf q) else f) vs

/-- Gives the vertices that waited at `p` their dominator: `p` itself, or a vertex of lesser
semidominator on the way, whose dominator they share. -/
def settle (p : Nat) : DominatorSearch → List Nat → DominatorSearch
  | s, [] => s
  | s, v :: vs =>
    let (q, f) := s.forest.eval v
    let d := if f.keyOf q < f.keyOf v then q else p
    settle p { s with forest := f, dom := s.dom.setIfInBounds v d } vs

/-- Takes a vertex: its semidominator is found, it joins the forest and waits, and those that wait
at its parent are settled. -/
def visit (fn : Func) (t : Spanning) (s : DominatorSearch) (w : Nat) : DominatorSearch :=
  let p := t.parentOf w
  let f := (lower w s.forest (t.preds fn w)).link w p
  let waiting := s.waiting.modify (f.keyOf w) (· ++ [w])
  let s := settle p { s with forest := f, waiting } (waiting[p]?.getD [])
  { s with waiting := s.waiting.setIfInBounds p [] }

/-- Takes the vertices from `w` down to one. -/
def descend (fn : Func) (t : Spanning) : Nat → DominatorSearch → DominatorSearch
  | 0, s => s
  | w + 1, s => descend fn t w (visit fn t s (w + 1))

/-- Resolves, upwards from `w`, the vertices that share the dominator of another one. -/
def resolve (f : Forest) : List Nat → Array Nat → Array Nat
  | [], dom => dom
  | w :: ws, dom =>
    let d := dom[w]?.getD 0
    resolve f ws (if d = f.keyOf w then dom else dom.setIfInBounds w (dom[d]?.getD 0))

end DominatorSearch

/-- The dominator tree: its root, and each other reachable block with its immediate dominator, in
the order of the depth-first numbering. -/
structure DominatorTree where
  root : Option BlockId
  idoms : List (BlockId × BlockId)
deriving DecidableEq, Repr, Inhabited

namespace DominatorTree

/-- **The dominator tree of a function.** -/
def build (fn : Func) : DominatorTree :=
  let t := Spanning.build fn
  let s := DominatorSearch.descend fn t (t.size - 1) (.start t.size)
  let inner := List.range' 1 (t.size - 1)
  let dom := DominatorSearch.resolve s.forest inner s.dom
  ⟨fn.root, inner.map fun w => (t.vertex w, t.vertex (dom[w]?.getD 0))⟩

/-- The immediate dominator of the block with an index. -/
def idom? (t : DominatorTree) (i : Nat) : Option BlockId :=
  (t.idoms.find? fun e => e.1.index = i).map Prod.snd

/-- The blocks that the block with an index dominates immediately. -/
def children (t : DominatorTree) (i : Nat) : List BlockId :=
  (t.idoms.filter fun e => e.2.index = i).map Prod.fst

/-- Whether a block is in the tree. -/
def reachable (t : DominatorTree) (b : BlockId) : Bool :=
  (t.idom? b.index).isSome || t.root = some b

/-- Whether `a` is met on the way from `b` to the root, `b` and the root included. -/
def above (t : DominatorTree) (a : BlockId) : Nat → BlockId → Bool
  | 0, _ => false
  | fuel + 1, b =>
    b = a || match t.idom? b.index with
      | some d => above t a fuel d
      | none => false

/-- **Whether `a` dominates `b`.** A block dominates itself, and nothing dominates a block that is
not reachable. -/
def dominates (t : DominatorTree) (a b : BlockId) : Bool :=
  t.reachable b && t.above a (t.idoms.length + 1) b

end DominatorTree

end BranchFusion
