import BranchFusion.Proofs.Pass.WellBuilt

/-!
# Strict mode and default mode

Strict mode asks once, before its first fold, which blocks dominate which and where values are
defined. From then on the function changes under its hands, and all it does about this is to note
where each conjunction is defined. That is enough. The middle block of a fold defines nothing and is
entered from one block only, so dominance between the blocks that stay is what it was, although the
old tree still leads through blocks that are gone: at every moment of a run, strict mode knows about
the live blocks what it would learn if it asked again
(`BranchFusion.NestedIf.dominators_stay_valid`).

In a function in strict form the inner condition is always available at the outer branch. So there
strict mode, which knows everything that is true, has no objection to a fold that default mode
makes, and the two modes do the same (`BranchFusion.NestedIf.modes_coincide`).
-/

namespace BranchFusion

namespace NestedIf

variable {fn : Func} {p p' : Progress} {b : BlockId} {c : Candidate}

/-! ### What strict mode knows -/

theorem start_true {cache : Option AnalysisCache}
    (htree : (dominatorsWith fn cache).1 = DominatorTree.build fn) : (start true fn cache).1 =
      { func := fn, avail := some ⟨DominatorTree.build fn, fn.definitions⟩ } := by
  rw [start, if_pos rfl, ← htree]

/-- **What is known before the first fold stays valid.** However far a run in strict mode over a
function that was read has come, with the branches `rest` still in the queue, it has the tree that
was built at the start. About two blocks that are live now this tree says what the tree of the
function as it is now would say, and the definitions that were kept up are those of the function as
it is now. -/
theorem dominators_stay_valid {src : String} {serial : Nat} {m : Module}
    (hread : Module.parse src serial = .ok m) (hfn : fn ∈ m.funcs) (cache : Option AnalysisCache)
    (htree : (dominatorsWith fn cache).1 = DominatorTree.build fn) {done rest : List Candidate}
    (hqueue : candidates fn = done ++ rest) :
    ∃ p a, attemptAll (start true fn cache).1 done = .ok p ∧
      attemptAll p rest = (run true fn cache).1 ∧
      p.avail = some a ∧ a.tree = DominatorTree.build fn ∧
      (∀ x y, p.func.owns x → p.func.owns y →
        a.tree.dominates x y = (DominatorTree.build p.func).dominates x y) ∧
      ∀ v, a.sites.get? v = p.func.definitions.get? v := by
  have hwell := Source.wellBuilt_of_parse hread fn hfn
  have hstart := start_true htree
  obtain ⟨p, hp, hpwell, a, ha, hatree, hsound, hcomplete⟩ := attemptAll_induction
    (I := fun f avail _ => f.WellBuilt ∧ ∃ a, avail = some a ∧
      a.tree = DominatorTree.build fn ∧ a.Sound f ∧ a.Complete f)
    (fun f _ _ hI => hI.1.toWired)
    (by
      rintro f f' avail k b n cond ⟨hf, a, rfl, hatree, hsound, hcomplete⟩ hb hfound - hfolded
      exact ⟨hfolded.wellBuilt hfound hf hb, _, rfl, hatree,
        hsound.fold hfolded hfound hf.toWired hb,
        hcomplete.fold hfolded hfound hf.toWired hf.entered hb⟩)
    done (start true fn cache).1
    (by
      rw [hstart]
      exact ⟨hwell, _, rfl, rfl, sound_start hwell.closed,
        complete_start hwell.closed fun _ _ _ => hwell.unique_site⟩)
    (by
      rw [hstart]
      intro c hc
      exact func_of_mem_candidates (hqueue ▸ List.mem_append_left rest hc))
  have hrun : attemptAll p rest = (run true fn cache).1 := by
    rw [run, hqueue]
    exact (attemptAll_append rest hp).symm
  -- asking again would tell what is true of the function now, and nothing else
  obtain ⟨hsites, hdominates⟩ := hcomplete.agree hsound
    (complete_start hpwell.closed fun _ _ _ => hpwell.unique_site) (sound_start hpwell.closed)
  exact ⟨p, a, hp, hrun, ha, hatree, hdominates, hsites⟩

/-- A program with two pairs of branches to fold. The inner condition of the second pair is defined
at the entry, and the way there leads through the middle block of the first. -/
def ladderText : String :=
  "func @f(%a, %b) \x7b\n" ++
  "i:\n%d = lt %b, %a\nbr %a, j, o\n" ++
  "j:\nbr %b, k, o\n" ++
  "k:\n%c = lt %a, %b\nbr %c, l, o\n" ++
  "l:\nbr %d, m, o\n" ++
  "m:\nret %c\n" ++
  "o:\nret %a\n\x7d\n"

/-- The function of this program. -/
def ladder : Func where
  serial := 0
  name := "f"
  root := some ⟨0, 0⟩
  params := [⟨0, 0, "a"⟩, ⟨0, 1, "b"⟩]
  values := #[⟨0, 0, "a"⟩, ⟨0, 1, "b"⟩, ⟨0, 2, "d"⟩, ⟨0, 3, "c"⟩]
  blocks := #[
    { label := "i", instrs := [.binary ⟨0, 2, "d"⟩ .lt ⟨0, 1, "b"⟩ ⟨0, 0, "a"⟩]
      term := some (.branch ⟨0, 0, "a"⟩ ⟨0, 1⟩ ⟨0, 5⟩) },
    { label := "j", preds := [⟨0, 0⟩], term := some (.branch ⟨0, 1, "b"⟩ ⟨0, 2⟩ ⟨0, 5⟩) },
    { label := "k", instrs := [.binary ⟨0, 3, "c"⟩ .lt ⟨0, 0, "a"⟩ ⟨0, 1, "b"⟩]
      preds := [⟨0, 1⟩], term := some (.branch ⟨0, 3, "c"⟩ ⟨0, 3⟩ ⟨0, 5⟩) },
    { label := "l", preds := [⟨0, 2⟩], term := some (.branch ⟨0, 2, "d"⟩ ⟨0, 4⟩ ⟨0, 5⟩) },
    { label := "m", preds := [⟨0, 3⟩], term := some (.ret [⟨0, 3, "c"⟩]) },
    { label := "o", preds := [⟨0, 0⟩, ⟨0, 1⟩, ⟨0, 2⟩, ⟨0, 3⟩]
      term := some (.ret [⟨0, 0, "a"⟩]) }]

theorem parse_ladderText : Module.parse ladderText = .ok ⟨[ladder]⟩ := by
  decide +kernel

/-- After the first fold the old tree leads to the third block through one that is gone, and what it
says about the entry and the last rung is still right. -/
theorem ladder_dominators_stay_valid :
    ∃ p a, attemptAll (start true ladder none).1 ((candidates ladder).take 2) = .ok p ∧
      p.avail = some a ∧ p.func.ids = [⟨0, 0⟩, ⟨0, 2⟩, ⟨0, 3⟩, ⟨0, 4⟩, ⟨0, 5⟩] ∧
      a.tree.idom? 2 = some ⟨0, 1⟩ ∧ a.tree.dominates ⟨0, 0⟩ ⟨0, 4⟩ = true ∧
      a.sites.get? ⟨0, 4, "nested.if.combined"⟩ = some ⟨0, 0⟩ := by
  obtain ⟨p, a, hp, -, ha, htree, hdominates, hsites⟩ := dominators_stay_valid
    parse_ladderText (by simp) none rfl (List.take_append_drop 2 (candidates ladder)).symm
  have hnow : ((attemptAll (start true ladder none).1 ((candidates ladder).take 2)).toOption.map
      fun p => (p.func.ids, (DominatorTree.build p.func).dominates ⟨0, 0⟩ ⟨0, 4⟩,
        p.func.definitions.get? ⟨0, 4, "nested.if.combined"⟩)) =
      some ([⟨0, 0⟩, ⟨0, 2⟩, ⟨0, 3⟩, ⟨0, 4⟩, ⟨0, 5⟩], true, some ⟨0, 0⟩) := by decide +kernel
  rw [hp] at hnow
  obtain ⟨hids, hdom, hsite⟩ : p.func.ids = _ ∧ _ = true ∧ _ = some _ := by
    simpa only [Except.toOption, Option.map_some, Option.some.injEq, Prod.mk.injEq] using hnow
  have howns : ∀ x ∈ p.func.ids, p.func.owns x := fun x hx => Func.mem_ids.mp hx
  refine ⟨p, a, hp, ha, hids, ?_, ?_, (hsites _).trans hsite⟩
  · rw [htree]
    decide +kernel
  · rw [hdominates _ _ (howns _ (by simp [hids])) (howns _ (by simp [hids]))]
    exact hdom

/-! ### Both modes at once -/

/-- What strict mode asks on top of what default mode asks. -/
theorem find_some (a : Availability) : find fn (some a) b = (find fn none b).bind fun n =>
    if a.knows fn b n.inner then .ok n else .error .predicateUnavailable := by
  rw [find, find]
  split
  · dsimp only
    split
    · rfl
    · split
      · split_ifs <;> simp_all [Except.bind]
      · rfl
  · rfl

/-- Default mode never misses a condition. -/
theorem find_none_ne : find fn none b ≠ .error .predicateUnavailable := by
  rw [find]
  split
  · dsimp only
    split
    · simp
    · split
      · split_ifs <;> simp_all
      · simp
  · simp

/-- A run that knows nothing about definitions. -/
def Progress.forget (p : Progress) : Progress := { p with avail := none }

@[simp] theorem func_forget : p.forget.func = p.func := rfl

@[simp] theorem avail_forget : p.forget.avail = none := rfl

@[simp] theorem counters_forget : p.forget.counters = p.counters := rfl

@[simp] theorem journal_forget : p.forget.journal = p.journal := rfl

/-- Where strict mode has no objection, both modes do the same with a branch. -/
theorem attempt_forget (hfind : isStale p.func c = false →
      find p.func p.avail c.block = find p.func none c.block)
    (h : attempt p c = .ok p') : attempt p.forget c = .ok p'.forget := by
  rw [attempt] at h
  rw [attempt, func_forget, avail_forget, counters_forget]
  split at h
  · next hstale =>
    rw [if_pos hstale]
    obtain rfl := Except.ok.inj h
    rfl
  · next hstale =>
    rw [if_neg hstale, ← hfind (Bool.not_eq_true _ ▸ hstale)]
    cases hn : find p.func p.avail c.block with
    | error r =>
      rw [hn] at h
      obtain rfl := Except.ok.inj h
      rfl
    | ok n =>
      rw [hn] at h
      simp only [accept, func_forget, avail_forget, journal_forget] at h ⊢
      cases hfold : fold p.func c.block n with
      | error e => simp [hfold] at h
      | ok r =>
        rw [hfold] at h
        obtain rfl := Except.ok.inj h
        rfl

/-- **A run over a function in strict form**, which knows all that there is to know about it. -/
structure Progress.Proper (p : Progress) : Prop where
  valid : p.func.Valid
  entered : p.func.Entered
  strict : p.func.Strict
  complete : ∀ a, p.avail = some a → a.Complete p.func

section Proper

variable (hp : p.Proper)

include hp

/-- In such a run every inner condition is known. -/
theorem Progress.Proper.find_eq (hb : p.func.owns b) :
    find p.func p.avail b = find p.func none b := by
  cases ha : p.avail with
  | none => rfl
  | some a =>
    rw [find_some]
    cases hfind : find p.func none b with
    | error r => rfl
    | ok n =>
      have havail := (found_of_find hfind).1.available_of_strict hp.valid hp.strict hb
      exact if_pos ((hp.complete a ha).knows hb havail)

/-- Strict mode, too, never misses a condition. -/
theorem Progress.Proper.unavailable_eq {o : Option Folding}
    (hc : c.block.func = p.func.serial) (h : Tries p c o p') :
    p'.counters.rejected .predicateUnavailable = p.counters.rejected .predicateUnavailable := by
  cases h with
  | stale => rfl
  | @rejected r hstale hfind =>
    rw [hp.find_eq (owns_of_not_stale hc hstale).1] at hfind
    have hne : Rejection.predicateUnavailable ≠ r := by
      rintro rfl
      exact find_none_ne hfind
    exact if_neg hne
  | folded _ _ _ _ hcounters => rw [hcounters]

/-- The run goes on as before. -/
theorem Progress.Proper.tries {o : Option Folding} (hc : c.block.func = p.func.serial)
    (h : Tries p c o p') : p'.Proper ∧ p'.func.serial = p.func.serial := by
  cases h with
  | stale => exact ⟨⟨hp.valid, hp.entered, hp.strict, hp.complete⟩, rfl⟩
  | rejected => exact ⟨⟨hp.valid, hp.entered, hp.strict, hp.complete⟩, rfl⟩
  | @folded n cond _ _ _ hstale hfind hfold havail =>
    have hb := (owns_of_not_stale hc hstale).1
    have hf := (found_of_find hfind).1
    have hfolded := folded_of_fold hf hp.valid.toWired hb hfold
    refine ⟨⟨hfolded.valid hf hp.valid hp.entered hb, hfolded.entered hf hp.entered,
      hfolded.strict hf hp.valid hp.entered hb hp.strict, fun a ha => ?_⟩, hfolded.serial⟩
    rw [havail] at ha
    obtain ⟨a', ha', rfl⟩ := Option.map_eq_some_iff.mp ha
    exact (hp.complete a' ha').fold hfolded hf hp.valid.toWired hp.entered hb

end Proper

/-- **Both modes go through the queue in step**, and no condition is missed. -/
theorem attemptAll_forget : ∀ (cs : List Candidate) (p : Progress), p.Proper →
    (∀ c ∈ cs, c.block.func = p.func.serial) →
    ∃ p', attemptAll p cs = .ok p' ∧ attemptAll p.forget cs = .ok p'.forget ∧
      p'.counters.rejected .predicateUnavailable = p.counters.rejected .predicateUnavailable
  | [], p, _, _ => ⟨p, rfl, rfl, rfl⟩
  | c :: cs, p, hp, hcs => by
    have hc := hcs c (by simp)
    obtain ⟨q, hq, htries⟩ := exists_attempt hp.valid.toWired hc
    obtain ⟨hqp, hserial⟩ := hp.tries hc htries
    have hq' : attempt p.forget c = .ok q.forget :=
      attempt_forget (fun hstale => hp.find_eq (owns_of_not_stale hc hstale).1) hq
    obtain ⟨p', hp', hforget, hrejected⟩ := attemptAll_forget cs q hqp fun d hd => by
      rw [hserial]
      exact hcs d (List.mem_cons_of_mem c hd)
    refine ⟨p', ?_, ?_, hrejected.trans (hp.unavailable_eq hc htries)⟩
    · rw [attemptAll, hq]
      exact hp'
    · rw [attemptAll, hq']
      exact hforget

/-- **Strict mode and default mode coincide on functions in strict form**, if strict mode is given
the dominators of the function: they leave the same function, report the same change, count the same
and keep the same journal. In particular strict mode never misses a condition.

That values are entered says no more than that a new value is new; it holds of every function that
was read (`BranchFusion.Source.entered_of_parse`), and passes keep it. -/
theorem modes_coincide (hv : fn.defects = []) (hentered : fn.Entered) (hs : fn.Strict)
    (cache cache' : Option AnalysisCache)
    (htree : (dominatorsWith fn cache).1 = DominatorTree.build fn) :
    (Pass.nestedIf.run true fn cache).fault = none ∧
      (Pass.nestedIf.run false fn cache').fault = none ∧
      (Pass.nestedIf.run true fn cache).func = (Pass.nestedIf.run false fn cache').func ∧
      (Pass.nestedIf.run true fn cache).changed = (Pass.nestedIf.run false fn cache').changed ∧
      (Pass.nestedIf.run true fn cache).counters = (Pass.nestedIf.run false fn cache').counters ∧
      (Pass.nestedIf.run true fn cache).journal = (Pass.nestedIf.run false fn cache').journal ∧
      (Pass.nestedIf.run true fn cache).counters.rejected .predicateUnavailable = 0 := by
  have hvalid := Func.defects_eq_nil_iff.mp hv
  have hstart := start_true htree
  have hproper : (start true fn cache).1.Proper := by
    rw [hstart]
    refine ⟨hvalid, hentered, hs, fun a ha => ?_⟩
    obtain rfl := Option.some.inj ha
    exact complete_start hvalid.closed hvalid.unique_site
  obtain ⟨p, hp, hforget, hrejected⟩ := attemptAll_forget (candidates fn) _ hproper fun c hc => by
    rw [hstart]
    exact func_of_mem_candidates hc
  have hdefault : (start true fn cache).1.forget = (start false fn cache').1 := by
    rw [hstart]
    rfl
  rw [hdefault] at hforget
  have hrun : (run true fn cache).1 = .ok p := hp
  have hrun' : (run false fn cache').1 = .ok p.forget := hforget
  rw [Pass.run_nestedIf hrun, Pass.run_nestedIf hrun']
  refine ⟨rfl, rfl, rfl, rfl, rfl, rfl, hrejected.trans ?_⟩
  rw [hstart]

/-- The function of two pairs of branches has no defects and is in strict form, and both modes fold
both pairs. -/
theorem ladder_modes_coincide :
    (Pass.nestedIf.run true ladder none).func = (Pass.nestedIf.run false ladder none).func ∧
      (Pass.nestedIf.run true ladder none).counters.combined = 2 ∧
      (Pass.nestedIf.run true ladder none).counters.rejected .predicateUnavailable = 0 := by
  have hdefects : ladder.defects = [] := by decide +kernel
  have hstrict : ladder.Strict :=
    (Func.defects_eq_nil_iff.mp hdefects).strict_of_places (by decide +kernel)
      (by decide +kernel) (by decide +kernel)
  obtain ⟨-, -, hfunc, -, -, -, hnever⟩ := modes_coincide hdefects
    (Source.entered_of_parse parse_ladderText ladder (by simp)) hstrict none none rfl
  exact ⟨hfunc, by decide +kernel, hnever⟩

end NestedIf

end BranchFusion
