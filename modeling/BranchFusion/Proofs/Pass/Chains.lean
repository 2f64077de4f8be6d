import BranchFusion.Proofs.Pass.WellBuilt

/-!
# Merging comes to a normal form

Sweeps are repeated until one of them finds nothing to do. Each merge removes a block, so this
happens, on cycles of jumps too, where the blocks of a cycle are merged into one that jumps to
itself. The loop without a bound on the sweeps is `BranchFusion.BlockMerge.Settles`, and a run gives
its result (`BranchFusion.BlockMerge.settles_run`). A sweep that finds nothing has looked at every
live block of the function as it is in the end, so no two blocks are left that could be merged.

What a run makes of the blocks is told by chains. Each block that is left stands for a chain of
blocks of the first function, linked by their jumps, which starts with the block itself
(`BranchFusion.BlockMerge.Chained`). One merge appends one chain to another, in whatever order the
merges are made, so nothing is lost, doubled or put in another order.
-/

namespace BranchFusion

namespace BlockMerge

variable {fn f f' : Func} {b m : BlockId} {changed c : Bool}

/-! ### The loop without a bound -/

theorem target?_eq_some_iff : target? f b = some m ↔ Mergeable f b m := by
  refine ⟨mergeable_of_target?, fun h => ?_⟩
  rw [target?, h.term]
  exact if_pos ⟨h.ne, h.not_entry, h.one_pred, h.no_phis⟩

/-- **Normal form**: no live block can take over another. -/
def Normal (f : Func) : Prop := ∀ b m, f.owns b → ¬Mergeable f b m

/-- A sweep that finds nothing has found that there is nothing. -/
theorem target?_of_sweep : ∀ (bs : List BlockId), f.Wired → (∀ b ∈ bs, b.func = f.serial) →
    sweep f false bs = .ok (f', false) → ∀ b ∈ bs, f.owns b → target? f b = none
  | [], _, _, _ => by simp
  | b :: bs, hw, hbs, h => by
    have hrest : ∀ c ∈ bs, c.func = f.serial := fun c hc => hbs c (List.mem_cons_of_mem b hc)
    rw [sweep] at h
    refine List.forall_mem_cons.mpr ?_
    split at h
    · next hgone =>
      refine ⟨fun hb => ?_, target?_of_sweep bs hw hrest h⟩
      rw [Option.isNone_iff_eq_none, ← Option.not_isSome_iff_eq_none, Func.liveAt?_isSome_iff,
        Func.mk_index (hbs b (by simp))] at hgone
      exact absurd hb hgone
    · next hlive =>
      cases htarget : target? f b with
      | none =>
        rw [htarget] at h
        exact ⟨fun _ => rfl, target?_of_sweep bs hw hrest h⟩
      | some m =>
        -- a merge would have been reported
        have hb : f.owns b := by
          rw [Bool.not_eq_true, Option.isNone_eq_false_iff, Func.liveAt?_isSome_iff,
            Func.mk_index (hbs b (by simp))] at hlive
          exact hlive
        have hm := mergeable_of_target? htarget
        obtain ⟨g, hg, hmerged⟩ := exists_merged hm hw hb
        obtain ⟨f'', c, hsweep, hcases⟩ := sweep_cases bs g true (hmerged.wired hm hw hb)
          fun c hc => by rw [hmerged.serial]; exact hrest c hc
        rw [htarget] at h
        simp only [hg, hsweep] at h
        obtain ⟨-, rfl⟩ := Prod.mk.inj (Except.ok.inj h)
        exact absurd hcases (by simp)

/-- A sweep over all live blocks leaves the function alone, or merges blocks, as it says. -/
theorem sweep_ids_cases (hw : f.Wired) : ∃ f' c, sweep f false f.ids = .ok (f', c) ∧
    (f' = f ∧ c = false ∨ Relation.TransGen MergeStep f f' ∧ c = true) :=
  sweep_cases f.ids f false hw fun _ hb => Func.func_of_owns (Func.mem_ids.mp hb)

/-- **Sweeps without a bound**, up to the first that finds nothing. -/
inductive Settles : Func → Bool → Func → Bool → Prop
  | done {f f' : Func} {changed : Bool} (h : sweep f false f.ids = .ok (f', false)) :
    Settles f changed f' changed
  | again {f f' f'' : Func} {changed c : Bool} (h : sweep f false f.ids = .ok (f', true))
    (h' : Settles f' true f'' c) : Settles f changed f'' c

/-- The last sweep goes over the function as it is left. -/
theorem Settles.last (h : Settles f changed f' c) (hw : f.Wired) :
    f'.Wired ∧ sweep f' false f'.ids = .ok (f', false) := by
  induction h with
  | done h =>
    obtain ⟨g, c, hg, hcases⟩ := sweep_ids_cases hw
    rw [h] at hg
    obtain ⟨rfl, rfl⟩ := Prod.mk.inj (Except.ok.inj hg)
    obtain ⟨rfl, -⟩ := hcases.resolve_right (by simp)
    exact ⟨hw, h⟩
  | again h _ ih =>
    obtain ⟨g, c, hg, hcases⟩ := sweep_ids_cases hw
    rw [h] at hg
    obtain ⟨rfl, rfl⟩ := Prod.mk.inj (Except.ok.inj hg)
    exact ih (wired_of_merges (hcases.resolve_left (by simp)).1 hw)

/-- **What is left is in normal form.** -/
theorem Settles.normal (h : Settles f changed f' c) (hw : f.Wired) : Normal f' := by
  obtain ⟨hw', hlast⟩ := h.last hw
  intro b m hb hm
  have hnone := target?_of_sweep f'.ids hw' (fun b hb => Func.func_of_owns (Func.mem_ids.mp hb))
    hlast b (Func.mem_ids.mpr hb) hb
  rw [target?_eq_some_iff.mpr hm] at hnone
  exact absurd hnone (by simp)

/-- **The bound on the sweeps is never met**: each sweep but the last removes a block. -/
theorem settles_sweeps : ∀ (fuel : Nat) (f : Func) (changed : Bool), f.Wired →
    f.ids.length < fuel →
      ∃ f' c, sweeps fuel f changed = .ok (f', c) ∧ Settles f changed f' c
  | 0, _, _, _, hfuel => absurd hfuel (by simp)
  | fuel + 1, f, changed, hw, hfuel => by
    obtain ⟨f', again, hf', hcases⟩ := sweep_ids_cases hw
    rw [sweeps, hf']
    rcases hcases with ⟨rfl, rfl⟩ | ⟨hmerges, rfl⟩
    · exact ⟨f', changed, rfl, .done hf'⟩
    · have hless := length_ids_of_merges hmerges hw
      obtain ⟨f'', c, hsweeps, hsettles⟩ := settles_sweeps fuel f' true
        (wired_of_merges hmerges hw) (by omega)
      exact ⟨f'', c, hsweeps, .again hf' hsettles⟩

theorem settles_run (hw : fn.Wired) : ∃ f' c, run fn = .ok (f', c) ∧ Settles fn false f' c :=
  settles_sweeps (fn.ids.length + 1) fn false hw (Nat.lt_succ_self _)

/-! ### Chains -/

/-- The block `x` ends in a jump to `y`. -/
def Jumps (fn : Func) (x y : BlockId) : Prop := (fn.block x).term = some (.jump y)

/-- **The blocks of `f` are chains of blocks of `fn`.** -/
structure Chained (fn f : Func) (chain : BlockId → List BlockId) : Prop where
  /-- A chain starts with the block that it is for. -/
  head : ∀ b, f.owns b → (chain b).head? = some b
  linked : ∀ b, f.owns b → (chain b).IsChain (Jumps fn)
  /-- The instructions are those of the chain, one block after the other. -/
  instrs : ∀ b, f.owns b → (f.block b).instrs = (chain b).flatMap fun x => (fn.block x).instrs
  /-- The block ends as the last block of its chain does. -/
  term : ∀ b, f.owns b → ∀ x ∈ (chain b).getLast?, (f.block b).term = (fn.block x).term
  /-- The chains together are the blocks of `fn`, each in one place. -/
  perm : (f.ids.flatMap chain).Perm fn.ids

theorem chained_self : Chained fn fn fun b => [b] where
  head _ _ := rfl
  linked b _ := .singleton b
  instrs b _ := by simp
  term b _ x hx := by
    obtain rfl := Option.some.inj hx
    rfl
  perm := by simp

/-- **A merge appends the chain of the one block to that of the other.** -/
theorem Chained.merge {chain : BlockId → List BlockId} (h : Chained fn f chain)
    (hmerged : Merged f f' b m) (hm : Mergeable f b m) (hw : f.Wired) (hb : f.owns b) :
    Chained fn f' fun x => if x = b then chain b ++ chain m else chain x := by
  have hown := hm.owned hw hb
  have hbm : b ≠ m := Ne.symm hm.ne
  have hkept : ∀ {x}, f'.owns x → f.owns x ∧ x ≠ m := fun hx => (hmerged.owns _).mp hx
  obtain ⟨ms, hms⟩ := List.head?_eq_some_iff.mp (h.head m hown)
  constructor
  case head =>
    intro x hx
    by_cases hxb : x = b
    · rw [if_pos hxb, List.head?_append, h.head b hb, hxb]
      rfl
    · rw [if_neg hxb]
      exact h.head x (hkept hx).1
  case linked =>
    intro x hx
    by_cases hxb : x = b
    · rw [if_pos hxb, List.isChain_append]
      refine ⟨h.linked b hb, h.linked m hown, fun y hy z hz => ?_⟩
      -- the last block of the one chain jumps to the first of the other
      rw [h.head m hown] at hz
      obtain rfl := Option.some.inj hz
      exact (h.term b hb y hy).symm.trans hm.term
    · rw [if_neg hxb]
      exact h.linked x (hkept hx).1
  case instrs =>
    intro x hx
    rw [hmerged.instrs x (hkept hx).2]
    by_cases hxb : x = b
    · rw [if_pos hxb, if_pos hxb, List.flatMap_append, h.instrs b hb, h.instrs m hown]
    · rw [if_neg hxb, if_neg hxb]
      exact h.instrs x (hkept hx).1
  case term =>
    intro x hx y hy
    rw [hmerged.term x (hkept hx).2]
    by_cases hxb : x = b
    · rw [if_pos hxb]
      rw [if_pos hxb, hms, List.getLast?_append_cons, ← hms] at hy
      exact h.term m hown y hy
    · rw [if_neg hxb]
      rw [if_neg hxb] at hy
      exact h.term x (hkept hx).1 y hy
  case perm =>
    refine (Func.flatMap_perm_of_removed [] hb hown hbm hmerged.owns ?_ ?_).trans h.perm
    · rw [if_pos rfl, List.append_nil]
    · exact fun x _ hxb _ => if_neg hxb

/-! ### Whole runs -/

/-- **Merging comes to a normal form.** A run over a function that was read comes to an end, with
cycles of jumps too. In what it leaves no live block ends in a jump to another block that is not the
entry, has one predecessor and no phis. Each block that is left has the instructions of a chain of
blocks of the first function, one after the other, where each block of the chain jumps to the next;
and each block of the first function is in one of the chains, in one place. A second run changes
nothing and reports no change. -/
theorem run_reaches_normal_form {src : String} {serial : Nat} {mod : Module}
    (hread : Module.parse src serial = .ok mod) (hfn : fn ∈ mod.funcs) :
    ∃ f' c, run fn = .ok (f', c) ∧ Settles fn false f' c ∧ Normal f' ∧
      (∃ chain, Chained fn f' chain) ∧ run f' = .ok (f', false) := by
  have hw := (Source.wellBuilt_of_parse hread fn hfn).toWired
  obtain ⟨f', c, hrun, hsettles⟩ := settles_run hw
  obtain ⟨f'', c', hrun', -, hchained⟩ := run_induction
    (I := fun f => f.Wired ∧ ∃ chain, Chained fn f chain) (fun _ hI => hI.1)
    (fun f f' b m hI hb hm hmerged => ⟨hmerged.wired hm hI.1 hb,
      hI.2.elim fun _ h => ⟨_, h.merge hmerged hm hI.1 hb⟩⟩) ⟨hw, _, chained_self⟩
  rw [hrun] at hrun'
  obtain ⟨rfl, rfl⟩ := Prod.mk.inj (Except.ok.inj hrun')
  refine ⟨f', c, hrun, hsettles, hsettles.normal hw, hchained, ?_⟩
  rw [run, sweeps, (hsettles.last hw).2]
  rfl

/-- A program with a chain of three blocks, and a ring of three that is out of reach. -/
def ringText : String :=
  "func @f(%a) \x7b\n" ++
  "i:\n%p = add %a, %a\njmp k\n" ++
  "j:\n%q = mul %r, %p\nret %q\n" ++
  "k:\n%r = sub %p, %a\njmp j\n" ++
  "x:\n%u = add %a, %a\njmp z\n" ++
  "y:\n%v = sub %a, %a\njmp x\n" ++
  "z:\n%w = mul %a, %a\njmp y\n\x7d\n"

/-- The function of this program. -/
def ring : Func where
  serial := 0
  name := "f"
  root := some ⟨0, 0⟩
  params := [⟨0, 0, "a"⟩]
  values := #[⟨0, 0, "a"⟩, ⟨0, 1, "p"⟩, ⟨0, 2, "q"⟩, ⟨0, 3, "r"⟩, ⟨0, 4, "u"⟩, ⟨0, 5, "v"⟩,
    ⟨0, 6, "w"⟩]
  blocks := #[
    { label := "i", instrs := [.binary ⟨0, 1, "p"⟩ .add ⟨0, 0, "a"⟩ ⟨0, 0, "a"⟩]
      term := some (.jump ⟨0, 2⟩) },
    { label := "j", instrs := [.binary ⟨0, 2, "q"⟩ .mul ⟨0, 3, "r"⟩ ⟨0, 1, "p"⟩]
      preds := [⟨0, 2⟩], term := some (.ret [⟨0, 2, "q"⟩]) },
    { label := "k", instrs := [.binary ⟨0, 3, "r"⟩ .sub ⟨0, 1, "p"⟩ ⟨0, 0, "a"⟩]
      preds := [⟨0, 0⟩], term := some (.jump ⟨0, 1⟩) },
    { label := "x", instrs := [.binary ⟨0, 4, "u"⟩ .add ⟨0, 0, "a"⟩ ⟨0, 0, "a"⟩]
      preds := [⟨0, 4⟩], term := some (.jump ⟨0, 5⟩) },
    { label := "y", instrs := [.binary ⟨0, 5, "v"⟩ .sub ⟨0, 0, "a"⟩ ⟨0, 0, "a"⟩]
      preds := [⟨0, 5⟩], term := some (.jump ⟨0, 3⟩) },
    { label := "z", instrs := [.binary ⟨0, 6, "w"⟩ .mul ⟨0, 0, "a"⟩ ⟨0, 0, "a"⟩]
      preds := [⟨0, 3⟩], term := some (.jump ⟨0, 4⟩) }]

theorem parse_ringText : Module.parse ringText = .ok ⟨[ring]⟩ := by
  decide +kernel

/-- In the first sweep the first block of the ring takes over the third, and is taken over by the
second. What is left of the ring is one block, which jumps to itself. -/
theorem ring_reaches_normal_form :
    ∃ f', run ring = .ok (f', true) ∧ f'.ids = [⟨0, 0⟩, ⟨0, 4⟩] ∧
      (f'.block ⟨0, 4⟩).instrs =
        [⟨0, 4⟩, ⟨0, 3⟩, ⟨0, 5⟩].flatMap (fun x => (ring.block x).instrs) ∧
      (f'.block ⟨0, 4⟩).term = some (.jump ⟨0, 4⟩) ∧ Normal f' ∧
      (∃ chain, Chained ring f' chain) ∧ run f' = .ok (f', false) := by
  obtain ⟨f', c, hrun, -, hnormal, hchained, hagain⟩ :=
    run_reaches_normal_form parse_ringText (List.mem_singleton_self ring)
  have hmerged : (run ring).map (fun r => (r.2, r.1.ids, (r.1.block ⟨0, 4⟩).instrs,
      (r.1.block ⟨0, 4⟩).term)) = .ok (true, [⟨0, 0⟩, ⟨0, 4⟩],
        [⟨0, 4⟩, ⟨0, 3⟩, ⟨0, 5⟩].flatMap (fun x => (ring.block x).instrs),
        some (.jump ⟨0, 4⟩)) := by decide +kernel
  rw [hrun] at hmerged
  obtain ⟨rfl, hrest⟩ := Prod.mk.inj (Except.ok.inj hmerged)
  obtain ⟨hids, hrest⟩ := Prod.mk.inj hrest
  obtain ⟨hinstrs, hterm⟩ := Prod.mk.inj hrest
  exact ⟨f', hrun, hids, hinstrs, hterm, hnormal, hchained, hagain⟩

end BlockMerge

end BranchFusion
