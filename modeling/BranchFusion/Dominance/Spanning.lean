import BranchFusion.Func

/-!
# Depth-first numbering

The vertices of the graph of a function are the blocks that its entry reaches, numbered in the order
in which a depth-first search meets them. The search follows edges in the order of successors; the
edge along which a vertex is first met makes its source the *parent* of the vertex. The entry has
number zero, and every other vertex has a greater number than its parent.
-/

namespace BranchFusion

/-- A depth-first spanning tree: the vertices by number, and the number of the parent of each. -/
structure Spanning where
  order : Array BlockId := #[]
  parent : Array Nat := #[]
deriving DecidableEq, Repr, Inhabited

namespace Spanning

/-- Follows edges, each given with the number of its source. The edges of a vertex that is met for
the first time are followed before those that are waiting. -/
def grow (fn : Func) : Nat → List (Nat × BlockId) → Spanning → Spanning
  | 0, _, t => t
  | _ + 1, [], t => t
  | fuel + 1, (p, b) :: work, t =>
    if t.order.any fun v => v.index = b.index then grow fn fuel work t
    else
      grow fn fuel ((fn.successors b).map (fun s => (t.order.size, s)) ++ work)
        ⟨t.order.push b, t.parent.push p⟩

/-- **The spanning tree of a function.** Every edge is followed at most once. -/
def build (fn : Func) : Spanning :=
  match fn.root with
  | some r => grow fn (fn.edgeCount + 1) [(0, r)] {}
  | none => {}

/-- The number of vertices. -/
def size (t : Spanning) : Nat := t.order.size

/-- The number of the parent of a vertex. -/
def parentOf (t : Spanning) (v : Nat) : Nat := t.parent[v]?.getD 0

/-- The block with a number. -/
def vertex (t : Spanning) (v : Nat) : BlockId := t.order[v]?.getD default

/-- The vertices with an edge to a vertex, once for each edge. -/
def preds (fn : Func) (t : Spanning) (w : Nat) : List Nat :=
  (List.range t.size).flatMap fun v =>
    ((fn.successors (t.vertex v)).filter fun s => s.index = (t.vertex w).index).map fun _ => v

end Spanning

end BranchFusion
