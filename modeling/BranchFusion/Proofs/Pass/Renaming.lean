import BranchFusion.Proofs.Outcome
import BranchFusion.Proofs.Pass.WellBuilt
import BranchFusion.Proofs.Renaming

/-!
# Passes do not see numbers

The passes compare values and look them up in tables, but never ask for their numbers. So what a
pass does to a function it does to a twin as well (`BranchFusion.Pass.run_twin`). New values get the
next number in both, and the same name, since the same names are taken.

Every statement here goes one way: what succeeds for a function succeeds for its twin. That is
enough, because nothing fails over a well-built function.
-/

namespace BranchFusion

open Func (Twin Renumbers)

variable {ν : Value → Value} {fn fn' f : Func} {b c : BlockId}

/-! ### Edits -/

namespace Func.Twin

theorem size_values (h : Twin ν fn fn') : fn'.values.size = fn.values.size := by
  simpa using h.values.length_eq

theorem taken (h : Twin ν fn fn') (hν : Renumbers ν) : fn'.taken = fn.taken := by
  funext name
  have hany : fn'.values.toList.any (fun v => v.name = name) =
      fn.values.toList.any fun v => v.name = name := by
    rw [h.values.any_eq, List.any_map]
    simp only [Function.comp_def, hν.name]
  simpa [Func.taken] using hany

/-- A value that is entered into both functions is the same. -/
theorem define (h : Twin ν fn fn') (name : String) :
    (fn'.define name).1 = (fn.define name).1 ∧ ν (fn.define name).1 = (fn.define name).1 ∧
      Twin ν (fn.define name).2 (fn'.define name).2 := by
  have hvalue : (fn'.define name).1 = (fn.define name).1 := by
    simp only [Func.define, h.serial, h.size_values]
  have hkept : ν (fn.define name).1 = (fn.define name).1 := h.fresh _ name le_rfl
  refine ⟨hvalue, hkept, ?_, ?_, fun n s hn => h.fresh n s ?_⟩
  · exact congrArg (fun g : Func => { g with values := fn'.values.push (fn'.define name).1 })
      h.eq_rename
  · show (fn'.values.push (fn'.define name).1).toList.Perm
      ((fn.values.push (fn.define name).1).toList.map ν)
    rw [Array.toList_push, Array.toList_push, List.map_append, List.map_singleton, hkept, hvalue]
    exact h.values.append_right _
  · exact (Nat.le_succ _).trans ((Array.size_push _).symm.le.trans hn)

theorem freshValue (h : Twin ν fn fn') (hν : Renumbers ν) (wanted : String) :
    (fn'.freshValue wanted).1 = (fn.freshValue wanted).1 ∧
      ν (fn.freshValue wanted).1 = (fn.freshValue wanted).1 ∧
      Twin ν (fn.freshValue wanted).2 (fn'.freshValue wanted).2 := by
  have hname : fn'.freshName wanted = fn.freshName wanted := by
    simp only [freshName, h.taken hν, h.size_values]
  rw [Func.freshValue, Func.freshValue, hname]
  exact h.define _

theorem replacePred (h : Twin ν fn fn') {old new : BlockId}
    (hok : fn.replacePred b old new = .ok f) :
    ∃ f', fn'.replacePred b old new = .ok f' ∧ Twin ν f f' := by
  have hpreds : (fn'.block b).preds = (fn.block b).preds := by rw [h.block]; rfl
  rw [Func.replacePred] at hok
  rw [Func.replacePred, hpreds]
  cases hps : replaceFirst old new (fn.block b).preds with
  | none => simp [hps] at hok
  | some ps =>
    rw [hps] at hok
    obtain rfl := Except.ok.inj hok
    exact ⟨_, rfl, h.modify b _ _ fun _ => rfl⟩

theorem removePred (h : Twin ν fn fn') {old : BlockId} (hok : fn.removePred b old = .ok f) :
    ∃ f', fn'.removePred b old = .ok f' ∧ Twin ν f f' := by
  have hpreds : (fn'.block b).preds = (fn.block b).preds := by rw [h.block]; rfl
  rw [Func.removePred] at hok
  rw [Func.removePred, hpreds]
  cases hps : removeFirst old (fn.block b).preds with
  | none => simp [hps] at hok
  | some ps =>
    rw [hps] at hok
    obtain rfl := Except.ok.inj hok
    exact ⟨_, rfl, h.modify b _ _ fun _ => rfl⟩

theorem removeBlock (h : Twin ν fn fn') (hok : fn.removeBlock b = .ok f) :
    ∃ f', fn'.removeBlock b = .ok f' ∧ Twin ν f f' := by
  rw [Func.removeBlock] at hok
  rw [Func.removeBlock, h.root, h.owns]
  split_ifs at hok ⊢ with hroot howns
  obtain rfl := Except.ok.inj hok
  exact ⟨_, rfl, h.modify b _ _ fun _ => rfl⟩

/-- An edit of the phis of a block. -/
theorem modify_phis (h : Twin ν fn fn') {g : Phi → Phi} (b : BlockId)
    (hg : ∀ p : Phi, g (p.rename id ν) = (g p).rename id ν) :
    Twin ν (fn.modify b fun bb => { bb with phis := bb.phis.map g })
      (fn'.modify b fun bb => { bb with phis := bb.phis.map g }) := by
  refine h.modify b _ _ fun bb => ?_
  simp only [Block.rename, List.map_map, Function.comp_def, hg]

end Func.Twin

/-! ### Folding nested branches -/

namespace NestedIf

/-- Two branches with other conditions. -/
def Nest.rename (ν : Value → Value) (n : Nest) : Nest :=
  { n with outer := ν n.outer, inner := ν n.inner }

/-- What is known about definitions, for other values. -/
def Availability.rename (ν : Value → Value) (a : Availability) : Availability :=
  { a with sites := a.sites.map (Prod.map ν id) }

/-- A branch to try, with another condition. -/
def Candidate.rename (ν : Value → Value) (c : Candidate) : Candidate :=
  { c with branch := c.branch.rename id ν }

theorem isParam_twin (h : Twin ν fn fn') (hν : Renumbers ν) (v : Value) :
    fn'.isParam (ν v) = fn.isParam v := by
  rw [Func.isParam, Func.isParam, h.params, contains_map hν.injective]

theorem knows_twin (h : Twin ν fn fn') (hν : Renumbers ν) (a : Availability) (v : Value) :
    (a.rename ν).knows fn' b (ν v) = a.knows fn b v := by
  have hsite : (a.rename ν).sites.get? (ν v) = a.sites.get? v := by
    rw [Availability.rename, Table.get?_map hν.injective, Option.map_id, id_eq]
  rw [Availability.knows, Availability.knows, isParam_twin h hν, hsite]
  rfl

/-- **The same branches are found**, or the same speaks against it. -/
theorem find_twin (h : Twin ν fn fn') (hν : Renumbers ν) (avail : Option Availability) :
    find fn' (avail.map (Availability.rename ν)) b = (find fn avail b).map (Nest.rename ν) := by
  have hphis : ∀ x y z, ((fn'.block x).phis.any fun p => p.valueFrom y ≠ p.valueFrom z) =
      (fn.block x).phis.any fun p => p.valueFrom y ≠ p.valueFrom z := by
    intro x y z
    rw [h.block, Block.rename, List.any_map]
    simp only [Function.comp_def, Phi.valueFrom_rename, ne_eq,
      (Option.map_injective hν.injective).eq_iff]
  have havail : ∀ v, ((avail.map (Availability.rename ν)).any fun a => !a.knows fn' b (ν v)) =
      avail.any fun a => !a.knows fn b v := by
    intro v
    cases avail with
    | none => rfl
    | some a => simp only [Option.map_some, Option.any_some, knows_twin h hν]
  have hterm : ∀ x, (fn'.block x).term = (fn.block x).term.map (Terminator.rename id ν) :=
    fun x => by rw [h.block]; rfl
  have hsize : ∀ x, (fn'.block x).size = (fn.block x).size :=
    fun x => by rw [h.block, Block.size_rename]
  have hpreds : ∀ x, (fn'.block x).preds = (fn.block x).preds := fun x => by rw [h.block]; rfl
  rw [find, find, hterm]
  rcases (fn.block b).term with - | (t | ⟨outer, middle, onFalse⟩ | ⟨v, d, cases⟩ | vs)
  case some.branch =>
    simp only [Option.map_some, Terminator.rename, id_eq, hsize, hterm, hpreds, h.root]
    split
    · rfl
    · rcases (fn.block middle).term with - | (t | ⟨inner, target, shared⟩ | ⟨v, d, cases⟩ | vs)
      case some.branch =>
        simp only [Option.map_some, Terminator.rename, id_eq, hphis, havail]
        split_ifs <;> rfl
      all_goals rfl
  all_goals rfl

/-- **A fold** of a function is a fold of its twin. -/
theorem fold_twin (h : Twin ν fn fn') (hν : Renumbers ν) {n : Nest} {cond : Value}
    (hfold : fold fn b n = .ok (cond, f)) :
    ν cond = cond ∧ ∃ f', fold fn' b (n.rename ν) = .ok (cond, f') ∧ Twin ν f f' := by
  obtain ⟨hcond, hkept, hfresh⟩ := h.freshValue hν "nested.if.combined"
  rw [fold] at hfold
  rw [fold]
  generalize fn.freshValue "nested.if.combined" = r at hcond hkept hfresh hfold
  generalize fn'.freshValue "nested.if.combined" = r' at hcond hfresh
  obtain ⟨v, f₀⟩ := r
  obtain ⟨v', f₀'⟩ := r'
  obtain rfl : v' = v := hcond
  dsimp only at hkept hfresh hfold ⊢
  -- the steps of the fold, each with its counterpart
  obtain ⟨f₁, h₁, hfold⟩ := ok_of_bind hfold
  obtain ⟨f₂, h₂, hfold⟩ := ok_of_bind hfold
  obtain ⟨f₃, h₃, hfold⟩ := ok_of_bind hfold
  obtain ⟨rfl, rfl⟩ := Prod.mk.inj (Except.ok.inj hfold)
  have houter := hfresh.modify b
    (fun bb => { bb with
      instrs := bb.instrs ++ [.binary v' .land n.outer n.inner]
      term := some (.branch v' n.target n.shared) })
    (fun bb => { bb with
      instrs := bb.instrs ++ [.binary v' .land (ν n.outer) (ν n.inner)]
      term := some (.branch v' n.target n.shared) })
    fun bb => by simp [Block.rename, Instr.rename, Terminator.rename, hkept]
  obtain ⟨f₁', h₁', ht₁⟩ := houter.replacePred h₁
  have htarget := ht₁.modify_phis (g := fun p => p.moveInput n.middle b) n.target
    fun p => p.moveInput_rename ν n.middle b
  obtain ⟨f₂', h₂', ht₂⟩ := htarget.removePred h₂
  have hshared := ht₂.modify_phis (g := fun p => p.dropInput n.middle) n.shared
    fun p => p.dropInput_rename ν n.middle
  have hmiddle := hshared.modify n.middle (fun bb => { bb with preds := [], term := none })
    (fun bb => { bb with preds := [], term := none }) fun bb => rfl
  obtain ⟨f₃', h₃', ht₃⟩ := hmiddle.removeBlock h₃
  refine ⟨hkept, f₃', ?_, ht₃⟩
  simp only [Nest.rename, h₁', h₂', h₃', bind, Except.bind]
  rfl

/-- A run over a function and one over its twin, as far as they have come. -/
structure Progress.Twin (ν : Value → Value) (p p' : Progress) : Prop where
  func : Func.Twin ν p.func p'.func
  avail : p'.avail = p.avail.map (Availability.rename ν)
  counters : p'.counters = p.counters
  journal : p'.journal = p.journal

variable {p p' q : Progress}

theorem accept_twin (h : p.Twin ν p') (hν : Renumbers ν) {counters : Counters} {n : Nest}
    (hok : accept p b counters n = .ok q) :
    ∃ q', accept p' b counters (n.rename ν) = .ok q' ∧ q.Twin ν q' := by
  have htext : ∀ x, (((p'.func.block x).term.map (Terminator.text p'.func.label)).getD "") =
      (((p.func.block x).term.map (Terminator.text p.func.label)).getD "") := by
    intro x
    have hterm : ∀ t : Terminator,
        (t.rename id ν).text p'.func.label = t.text p.func.label := fun t =>
      Terminator.text_rename hν.name fun c _ => by rw [h.func.label, id_eq]
    rw [h.func.block]
    simp only [Block.rename, Option.map_map, Function.comp_def, hterm]
  rw [accept] at hok
  rw [accept]
  dsimp only at hok ⊢
  rw [htext, show (n.rename ν).middle = n.middle from rfl, htext, h.func.name, h.journal]
  cases hfold : fold p.func b n with
  | error e => simp [hfold] at hok
  | ok r =>
    obtain ⟨cond, f⟩ := r
    obtain ⟨hkept, f', hfold', htwin⟩ := fold_twin h.func hν hfold
    rw [hfold] at hok
    rw [hfold']
    obtain rfl := Except.ok.inj hok
    refine ⟨_, rfl, htwin, ?_, rfl, rfl⟩
    -- the conjunction is entered among the definitions of both
    rw [h.avail]
    cases p.avail with
    | none => rfl
    | some a =>
      have hsites : Table.set cond b (a.sites.map (Prod.map ν id)) =
          (Table.set cond b a.sites).map (Prod.map ν id) := by
        nth_rewrite 1 [← hkept]
        exact Table.set_map (g := id) hν.injective a.sites cond b
      exact congrArg (fun sites => some (Availability.mk a.tree sites)) hsites

theorem isStale_twin (h : Twin ν fn fn') (hν : Renumbers ν) (c : Candidate) :
    isStale fn' (c.rename ν) = isStale fn c := by
  have hterm : (fn'.block c.block).term ≠ some (c.branch.rename id ν) ↔
      (fn.block c.block).term ≠ some c.branch := by
    rw [h.block]
    exact ((Option.map_injective (Terminator.rename_injective hν.injective)).ne_iff
      (y := some c.branch))
  rw [isStale, isStale, Bool.eq_iff_iff, Bool.or_eq_true, Bool.or_eq_true, bne_iff_ne, bne_iff_ne,
    h.liveAt?]
  exact or_congr_right hterm

theorem attempt_twin (h : p.Twin ν p') (hν : Renumbers ν) {c : Candidate}
    (hok : attempt p c = .ok q) : ∃ q', attempt p' (c.rename ν) = .ok q' ∧ q.Twin ν q' := by
  rw [attempt] at hok
  rw [attempt, isStale_twin h.func hν, h.counters]
  split_ifs at hok ⊢ with hstale
  · obtain rfl := Except.ok.inj hok
    exact ⟨_, rfl, h.func, h.avail, rfl, h.journal⟩
  · dsimp only at hok ⊢
    rw [h.avail, show (c.rename ν).block = c.block from rfl, find_twin h.func hν]
    cases hfind : find p.func p.avail c.block with
    | error r =>
      rw [hfind] at hok
      obtain rfl := Except.ok.inj hok
      exact ⟨_, rfl, h.func, rfl, rfl, h.journal⟩
    | ok n =>
      rw [hfind] at hok
      exact accept_twin h hν hok

theorem attemptAll_twin (hν : Renumbers ν) : ∀ (cs : List Candidate) {p p' q : Progress},
    p.Twin ν p' → attemptAll p cs = .ok q →
      ∃ q', attemptAll p' (cs.map (Candidate.rename ν)) = .ok q' ∧ q.Twin ν q'
  | [], p, p', q, h, hok => by
    obtain rfl := Except.ok.inj hok
    exact ⟨p', rfl, h⟩
  | c :: cs, p, p', q, h, hok => by
    rw [attemptAll] at hok
    rw [List.map_cons, attemptAll]
    cases hattempt : attempt p c with
    | error e => simp [hattempt] at hok
    | ok r =>
      obtain ⟨r', hr', htwin⟩ := attempt_twin h hν hattempt
      rw [hattempt] at hok
      rw [hr']
      exact attemptAll_twin hν cs htwin hok

theorem candidates_twin (h : Twin ν fn fn') :
    candidates fn' = (candidates fn).map (Candidate.rename ν) := by
  rw [candidates, candidates, h.ids, List.map_filterMap]
  refine List.filterMap_congr fun b _ => ?_
  rw [h.block, Block.rename]
  rcases (fn.block b).term with - | (t | ⟨v, t, f⟩ | ⟨v, d, cases⟩ | vs)
  all_goals rfl

theorem definitions_twin (h : Twin ν fn fn') (hν : Renumbers ν) :
    fn'.definitions = fn.definitions.map (Prod.map ν id) := by
  rw [Func.definitions, Func.definitions, h.ids]
  refine Table.sites_map hν.injective (fun b => ?_) fn.ids []
  rw [h.block, Block.definitions_rename]

/-- **A run of the pass** over a function is a run over its twin. -/
theorem run_twin (h : Twin ν fn fn') (hν : Renumbers ν) {strict : Bool} {q : Progress}
    (hrun : (run strict fn none).1 = .ok q) :
    ∃ q', (run strict fn' none).1 = .ok q' ∧ q.Twin ν q' := by
  have hstart : Progress.Twin ν (start strict fn none).1 (start strict fn' none).1 := by
    cases strict with
    | false => exact ⟨h, rfl, rfl, rfl⟩
    | true =>
      refine ⟨h, ?_, rfl, rfl⟩
      simp only [start, if_true, dominatorsWith, h.dominators, definitions_twin h hν]
      rfl
  have hall := attemptAll_twin hν (candidates fn) hstart hrun
  rwa [← candidates_twin h] at hall

end NestedIf

/-! ### Merging chains of blocks -/

namespace BlockMerge

theorem target?_twin (h : Twin ν fn fn') : target? fn' b = target? fn b := by
  have hphis : ∀ x, ((fn'.block x).phis = []) = ((fn.block x).phis = []) := fun x => by
    rw [h.block, Block.rename, List.map_eq_nil_iff]
  have hpreds : ∀ x, (fn'.block x).preds = (fn.block x).preds := fun x => by rw [h.block]; rfl
  rw [target?, target?, h.block b, Block.rename]
  rcases (fn.block b).term with - | (t | ⟨v, t, f⟩ | ⟨v, d, cases⟩ | vs)
  case some.jump =>
    simp only [Option.map_some, Terminator.rename, id_eq, h.root, hphis, hpreds]
  all_goals rfl

theorem redirect_twin {old new : BlockId} : ∀ (ss : List BlockId) {fn fn' : Func},
    Twin ν fn fn' → Twin ν (redirect old new fn ss) (redirect old new fn' ss)
  | [], _, _, h => h
  | s :: ss, fn, fn', h => by
    refine redirect_twin ss (h.modify s _ _ fun bb => ?_)
    simp only [Block.rename, List.map_map, Function.comp_def, Phi.moveInput_rename]

theorem merge_twin (h : Twin ν fn fn') (hok : merge fn b c = .ok f) :
    ∃ f', merge fn' b c = .ok f' ∧ Twin ν f f' := by
  have hsucc : (fn'.block c).successors = (fn.block c).successors := by
    rw [h.block, Block.successors_rename]
  rw [merge] at hok
  rw [merge, hsucc, h.block c]
  refine Func.Twin.removeBlock (Func.Twin.modify (redirect_twin _ (h.modify b _ _ fun bb => ?_)) c
    _ _ fun bb => ?_) hok
  · simp [Block.rename]
  · simp [Block.rename]

theorem sweep_twin : ∀ (bs : List BlockId) {fn fn' f : Func} {changed c : Bool},
    Twin ν fn fn' → sweep fn changed bs = .ok (f, c) →
      ∃ f', sweep fn' changed bs = .ok (f', c) ∧ Twin ν f f'
  | [], fn, fn', f, changed, c, h, hok => by
    obtain ⟨rfl, rfl⟩ := Prod.mk.inj (Except.ok.inj hok)
    exact ⟨fn', rfl, h⟩
  | b :: bs, fn, fn', f, changed, c, h, hok => by
    rw [sweep] at hok
    rw [sweep, h.liveAt?, target?_twin h]
    split_ifs at hok ⊢
    · exact sweep_twin bs h hok
    · cases htarget : target? fn b with
      | none =>
        rw [htarget] at hok
        exact sweep_twin bs h hok
      | some target =>
        rw [htarget] at hok
        dsimp only at hok ⊢
        cases hmerge : merge fn b target with
        | error e => simp [hmerge] at hok
        | ok g =>
          obtain ⟨g', hg', htwin⟩ := merge_twin h hmerge
          rw [hmerge] at hok
          rw [hg']
          exact sweep_twin bs htwin hok

theorem sweeps_twin : ∀ (fuel : Nat) {fn fn' f : Func} {changed c : Bool},
    Twin ν fn fn' → sweeps fuel fn changed = .ok (f, c) →
      ∃ f', sweeps fuel fn' changed = .ok (f', c) ∧ Twin ν f f'
  | 0, fn, fn', f, changed, c, h, hok => by
    obtain ⟨rfl, rfl⟩ := Prod.mk.inj (Except.ok.inj hok)
    exact ⟨fn', rfl, h⟩
  | fuel + 1, fn, fn', f, changed, c, h, hok => by
    rw [sweeps] at hok
    rw [sweeps, h.ids]
    cases hsweep : sweep fn false fn.ids with
    | error e => simp [hsweep] at hok
    | ok r =>
      obtain ⟨g, again⟩ := r
      obtain ⟨g', hg', htwin⟩ := sweep_twin fn.ids h hsweep
      rw [hsweep] at hok
      rw [hg']
      dsimp only at hok ⊢
      split_ifs at hok ⊢
      · exact sweeps_twin fuel htwin hok
      · obtain ⟨rfl, rfl⟩ := Prod.mk.inj (Except.ok.inj hok)
        exact ⟨g', rfl, htwin⟩

/-- **A run of the pass** over a function is a run over its twin. -/
theorem run_twin (h : Twin ν fn fn') {c : Bool} (hok : run fn = .ok (f, c)) :
    ∃ f', run fn' = .ok (f', c) ∧ Twin ν f f' := by
  rw [run] at hok
  rw [run, h.ids]
  exact sweeps_twin _ h hok

end BlockMerge

/-! ### Removing unused definitions -/

namespace DeadCode

/-- **A block without its unused definitions**, with other values. -/
theorem prune_rename (hν : Renumbers ν) (uses : List (Option Value)) (bb : Block) :
    prune (uses.map (Option.map ν)) (bb.rename ν) = (prune uses bb).rename ν := by
  have hused : ∀ v, (uses.map (Option.map ν)).contains (some (ν v)) = uses.contains (some v) :=
    fun v => contains_map (Option.map_injective hν.injective) uses (some v)
  have hphi : keepsPhi (uses.map (Option.map ν)) ∘ Phi.rename id ν = keepsPhi uses :=
    funext fun p => hused p.result
  have hinstr : keepsInstr (uses.map (Option.map ν)) ∘ Instr.rename ν = keepsInstr uses := by
    funext i
    rw [Function.comp_apply, keepsInstr, keepsInstr, Instr.isPure_rename, Instr.result?_rename]
    cases i.result? with
    | none => rfl
    | some r => simp only [Option.map_some, hused]
  simp only [prune, Block.rename, List.filter_map, hphi, hinstr]

theorem round_twin (h : Twin ν fn fn') (hν : Renumbers ν) : Twin ν (round fn) (round fn') := by
  have hused : used fn' = (used fn).map (Option.map ν) := by
    rw [used, used, h.ids, List.map_flatMap]
    exact List.flatMap_congr fun b _ => by rw [h.block, Block.uses_rename]
  have hblock : ∀ bb : Block,
      (if (bb.rename ν).live then prune (used fn') (bb.rename ν) else bb.rename ν) =
        (if bb.live then prune (used fn) bb else bb).rename ν := by
    intro bb
    rw [hused, prune_rename hν, show (bb.rename ν).live = bb.live from rfl]
    split_ifs <;> rfl
  have hblocks : (fn'.blocks.map fun bb => if bb.live then prune (used fn') bb else bb) =
      (fn.blocks.map fun bb => if bb.live then prune (used fn) bb else bb).map
        (Block.rename ν) := by
    have heq : fn'.blocks = fn.blocks.map (Block.rename ν) := by
      rw [h.eq_rename]
      rfl
    rw [heq, Array.map_map, Array.map_map]
    exact congrArg (fn.blocks.map ·) (funext hblock)
  refine ⟨?_, h.values, h.fresh⟩
  rw [round]
  dsimp only
  rw [hblocks]
  exact congrArg (fun g : Func => { g with
      blocks := (fn.blocks.map fun bb : Block => if bb.live then prune (used fn) bb else bb).map
        (Block.rename ν) }) h.eq_rename

theorem rounds_twin (hν : Renumbers ν) : ∀ (fuel : Nat) {fn fn' : Func} (changed : Bool),
    Twin ν fn fn' → (rounds fuel fn' changed).2 = (rounds fuel fn changed).2 ∧
      Twin ν (rounds fuel fn changed).1 (rounds fuel fn' changed).1
  | 0, _, _, _, h => ⟨rfl, h⟩
  | fuel + 1, fn, fn', changed, h => by
    have hround := round_twin h hν
    rw [rounds, rounds, hround.measure, h.measure]
    split_ifs
    · exact rounds_twin hν fuel true hround
    · exact ⟨rfl, h⟩

end DeadCode

/-! ### Every pass -/

/-- What a pass makes of a function and of its twin. -/
structure PassRun.Twin (ν : Value → Value) (r r' : PassRun) : Prop where
  func : Func.Twin ν r.func r'.func
  changed : r'.changed = r.changed
  counters : r'.counters = r.counters
  journal : r'.journal = r.journal
  fault : r'.fault = r.fault

/-- **What a pass does to a well-built function it does to a twin.** -/
theorem Pass.run_twin (h : Twin ν fn fn') (hν : Renumbers ν) (hfn : fn.WellBuilt) (p : Pass)
    (strict : Bool) : (p.run strict fn none).Twin ν (p.run strict fn' none) := by
  cases p with
  | nestedIf =>
    obtain ⟨q, hq, -⟩ := NestedIf.run_wellBuilt hfn strict none
    obtain ⟨q', hq', htwin⟩ := NestedIf.run_twin h hν hq
    rw [run_nestedIf hq, run_nestedIf hq']
    exact ⟨htwin.func, by simp only [htwin.counters], htwin.counters, htwin.journal, rfl⟩
  | blockMerge =>
    obtain ⟨f, c, hrun, -⟩ := BlockMerge.run_wellBuilt hfn
    obtain ⟨f', hrun', htwin⟩ := BlockMerge.run_twin h hrun
    rw [Pass.run, Pass.run, hrun, hrun']
    exact ⟨htwin, rfl, rfl, rfl, rfl⟩
  | deadCode =>
    obtain ⟨hc, htwin⟩ := DeadCode.rounds_twin hν (fn.measure + 1) false h
    have hrun : DeadCode.run fn' = DeadCode.rounds (fn.measure + 1) fn' false := by
      rw [DeadCode.run, h.measure]
    rw [Pass.run, Pass.run, hrun]
    exact ⟨htwin, hc, rfl, rfl, rfl⟩

end BranchFusion
