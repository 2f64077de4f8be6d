import BranchFusion.Proofs.Drawing
import BranchFusion.Proofs.Pipeline.Change
import BranchFusion.Proofs.PostOrder

/-!
# Traversals agree

Four searches go through the blocks of a function, each in its own way: the walk in post-order goes
down a path and comes back, the numbering for dominators keeps the edges that wait, the search for
unreachable blocks spreads over indices, and the drawing takes blocks from a queue and looks late
whether it has drawn them. In a closed function they all find what the entry reaches, so they agree
(`BranchFusion.Func.TraversalsAgree`). Functions that were read are closed and stay so under all
passes (`BranchFusion.Pass.traversals_agree`).
-/

namespace BranchFusion

namespace Func

variable {fn : Func}

/-- **The traversals of a function agree**: the blocks that each of them finds are those that the
entry reaches. -/
structure TraversalsAgree (fn : Func) : Prop where
  postOrder : ∀ b, b ∈ fn.postOrder ↔ fn.Reaches b
  dominators : ∀ b, fn.owns b ∧ (DominatorTree.build fn).reachable b = true ↔ fn.Reaches b
  unreachable : ∀ b, fn.owns b ∧ b ∉ fn.unreachable ↔ fn.Reaches b
  drawing : ∀ b, b.func = fn.serial ∧ 0 < Dot.nodeCount fn.dot b ↔ fn.Reaches b
  /-- Each of them has one node in the drawing. -/
  once : ∀ b, fn.Reaches b → Dot.nodeCount fn.dot b = 1

theorem traversalsAgree_of_closed (hclosed : fn.Closed) (htidy : fn.Tidy) :
    fn.TraversalsAgree := by
  have hfunc : ∀ {b}, fn.Reaches b → b.func = fn.serial := fun hb =>
    func_of_owns (hclosed.owns_of_reaches hb)
  constructor
  case postOrder => exact fun b => mem_postOrder_iff hclosed
  case dominators =>
    intro b
    constructor
    · rintro ⟨hown, hb⟩
      exact (DominatorTree.reachable_build_iff hclosed (func_of_owns hown)).mp hb
    · intro hb
      exact ⟨hclosed.owns_of_reaches hb,
        (DominatorTree.reachable_build_iff hclosed (hfunc hb)).mpr hb⟩
  case unreachable =>
    intro b
    have hmem : fn.owns b → (b ∉ fn.unreachable ↔ fn.Reaches b) := fun hown => by
      rw [← mem_reached_iff hclosed (func_of_owns hown)]
      simp [unreachable, hown]
    constructor
    · rintro ⟨hown, hb⟩
      exact (hmem hown).mp hb
    · intro hb
      have hown := hclosed.owns_of_reaches hb
      exact ⟨hown, (hmem hown).mpr hb⟩
  case drawing =>
    intro b
    constructor
    · rintro ⟨hb, hpos⟩
      by_contra hreach
      rw [(htidy.nodeCount_eq hclosed hb).2 hreach] at hpos
      exact absurd hpos (Nat.lt_irrefl 0)
    · intro hb
      exact ⟨hfunc hb, by rw [(htidy.nodeCount_eq hclosed (hfunc hb)).1 hb]; exact Nat.one_pos⟩
  case once => exact fun b hb => (htidy.nodeCount_eq hclosed (hfunc hb)).1 hb

end Func

namespace Pass

/-- **All traversals agree on what can be reached**, in every function that was read and after any
passes over it: post-order, the dominator tree, the search for unreachable blocks and the drawing
find the blocks that the entry reaches, and the drawing has one node for each. -/
theorem traversals_agree {src : String} {serial : Nat} {m : Module} {fn : Func}
    (hread : Module.parse src serial = .ok m) (hfn : fn ∈ m.funcs) (qs : List Request) :
    ∀ f ∈ fn :: (runEach qs fn).map PassRun.func, f.TraversalsAgree := by
  have hwell := Source.wellBuilt_of_parse hread fn hfn
  have htidy := Source.tidy_of_parse hread fn hfn
  intro f hf
  rcases List.mem_cons.mp hf with rfl | hf
  · exact Func.traversalsAgree_of_closed hwell.toWired.closed htidy
  · obtain ⟨r, hr, rfl⟩ := List.mem_map.mp hf
    exact Func.traversalsAgree_of_closed (wellBuilt_runEach qs hwell r hr).2.toWired.closed
      (tidy_runEach qs hwell htidy r hr)

/-- A function with a cycle that is out of reach. Folding removes a block that can be reached, and
merging one of those that cannot. -/
theorem tangled_traversals_agree : tangled.unreachable = [⟨0, 4⟩, ⟨0, 5⟩] ∧
    (runEach [⟨.nestedIf, true, none⟩, ⟨.blockMerge, false, none⟩] tangled).map
      (fun r => (r.func.postOrder, r.func.unreachable)) =
        [([⟨0, 2⟩, ⟨0, 3⟩, ⟨0, 0⟩], [⟨0, 4⟩, ⟨0, 5⟩]), ([⟨0, 2⟩, ⟨0, 3⟩, ⟨0, 0⟩], [⟨0, 4⟩])] ∧
    ∀ f ∈ tangled ::
      (runEach [⟨.nestedIf, true, none⟩, ⟨.blockMerge, false, none⟩] tangled).map PassRun.func,
      f.TraversalsAgree :=
  ⟨by decide +kernel, by decide +kernel, traversals_agree parse_tangledText (by simp) _⟩

end Pass

end BranchFusion
