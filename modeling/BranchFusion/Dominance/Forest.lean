/-!
# A forest with path minima

The data structure behind the search for dominators. Vertices are numbers, and each carries a *key*
that may still be lowered until the vertex is *linked* to its parent. The forest answers one
question: which vertex has the least key on the way from a vertex up to, but without, the root of
its tree?

`Forest.eval` answers it and shortens the way as it goes: `Forest.compress` makes every vertex on
the way point just below the root, and keeps in its label the vertex of least key that was skipped.
-/

namespace BranchFusion

/-- A forest on the numbers below some bound. -/
structure Forest where
  /-- The key of each vertex. -/
  key : Array Nat
  /-- A vertex of least key on the part of the way that `ancestor` skips. -/
  label : Array Nat
  /-- A vertex further up the way; none at a root. -/
  ancestor : Array (Option Nat)
deriving DecidableEq, Repr, Inhabited

namespace Forest

/-- The forest in which every vertex is a root and its own label, and is its own key. -/
def discrete (n : Nat) : Forest :=
  ⟨Array.range n, Array.range n, Array.replicate n none⟩

/-- The number of vertices. -/
def size (f : Forest) : Nat := f.key.size

/-- The key of a vertex. -/
def keyOf (f : Forest) (v : Nat) : Nat := f.key[v]?.getD 0

/-- The label of a vertex. -/
def labelOf (f : Forest) (v : Nat) : Nat := f.label[v]?.getD v

/-- The ancestor of a vertex. -/
def ancestorOf (f : Forest) (v : Nat) : Option Nat := f.ancestor[v]?.join

/-- Sets the key of a vertex. -/
def setKey (f : Forest) (v k : Nat) : Forest := { f with key := f.key.setIfInBounds v k }

/-- Makes a root the child of a vertex. -/
def link (f : Forest) (v parent : Nat) : Forest :=
  { f with ancestor := f.ancestor.setIfInBounds v (some parent) }

/-- Takes over from the ancestor `a` of `v`, whose own way is already short: its label, if that has
a lesser key, and its ancestor. -/
def adopt (f : Forest) (v a : Nat) : Forest :=
  let label :=
    if f.keyOf (f.labelOf a) < f.keyOf (f.labelOf v) then f.label.setIfInBounds v (f.labelOf a)
    else f.label
  { f with label, ancestor := f.ancestor.setIfInBounds v (f.ancestorOf a) }

/-- **Path compression**: after it the ancestor of `v` is a root. A way has fewer steps than there
are vertices. -/
def compress : Nat → Forest → Nat → Forest
  | 0, f, _ => f
  | fuel + 1, f, v =>
    match f.ancestorOf v with
    | none => f
    | some a =>
      match f.ancestorOf a with
      | none => f
      | some _ => (compress fuel f a).adopt v a

/-- **The vertex of least key** from `v` up to, but without, the root of its tree; a root is its own
answer. -/
def eval (f : Forest) (v : Nat) : Nat × Forest :=
  match f.ancestorOf v with
  | none => (v, f)
  | some _ =>
    let f' := compress f.size f v
    (f'.labelOf v, f')

end Forest

end BranchFusion
