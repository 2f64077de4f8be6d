import BranchFusion.Proofs.Pass.Modes
import BranchFusion.Proofs.Pass.Levels
import BranchFusion.Proofs.Pipeline.Rounds

/-!
# Nothing is missed

A run of the pass tries each branch once, and the function changes while it does. What is said here
about what it leaves undone is therefore not about a run that folds something, which may well leave
branches that can be folded now (`BranchFusion.NestedIf.two_levels_at_most`), but about one that
folds nothing: there every branch is tried against the function as it was on entry, none is stale,
and each is rejected (`BranchFusion.NestedIf.Examined`). So a run reports no change just when no
live block matches (`BranchFusion.NestedIf.changed_iff`).

That a block matches is said without the search for it (`BranchFusion.NestedIf.Matches`): there are
the two branches, and in strict mode the inner condition is known. The search finds what there is
(`BranchFusion.NestedIf.matches_iff`).

A group that runs the pass until nothing changes, and is not given up, ends with a run that folds
nothing. So nothing that it leaves matches, and `BranchFusion.NestedIf.run_misses_nothing` puts this
together.
-/

namespace BranchFusion

namespace NestedIf

variable {fn : Func} {p p' : Progress} {b : BlockId} {n : Nest} {c : Candidate}
  {cs : List Candidate} {fs : List Folding} {avail : Option Availability} {strict : Bool}

/-! ### Blocks that match -/

/-- A value **is known at the end of a block**: it is a parameter, or is defined in the block itself
or in a live block that dominates it. -/
def Known (fn : Func) (b : BlockId) (v : Value) : Prop :=
  v ∈ fn.params ∨ ∃ d, fn.owns d ∧ v ∈ (fn.block d).definitions ∧ (d = b ∨ fn.Dominates d b)

/-- **A block matches** if two branches can be folded there. Strict mode asks in addition that the
inner condition is known. -/
def Matches (strict : Bool) (fn : Func) (b : BlockId) : Prop :=
  ∃ n, Found fn b n ∧ (strict = true → Known fn b n.inner)

/-- What a run knows about the definitions of a function before its first fold. -/
def availability (strict : Bool) (fn : Func) : Option Availability :=
  if strict then some ⟨DominatorTree.build fn, fn.definitions⟩ else none

/-- **What can be folded is found.** -/
theorem find_eq_ok_iff : find fn avail b = .ok n ↔
    Found fn b n ∧ ∀ a, avail = some a → a.knows fn b n.inner = true := by
  refine ⟨found_of_find, ?_⟩
  rintro ⟨h, hknown⟩
  have hsize : (fn.block n.middle).size = 1 := by
    simp [Block.size, h.no_phis, h.no_instrs, h.inner_term]
  have hself : ¬(n.middle = b ∨ n.target = n.middle ∨ n.shared = n.middle) := by
    simp [h.middle_ne, h.target_ne, h.shared_ne]
  have hphis : ¬(fn.block n.shared).phis.any
      (fun p => p.valueFrom b ≠ p.valueFrom n.middle) = true := by
    simpa using h.phis
  have havail : ¬(avail.any fun a => !a.knows fn b n.inner) = true := by
    cases avail with
    | none => simp
    | some a => simp [hknown a rfl]
  rw [find, h.outer_term]
  dsimp only
  rw [if_neg (not_not.mpr hsize), h.inner_term]
  dsimp only
  rw [if_neg (not_not.mpr rfl), if_neg hself, if_neg h.not_entry, if_neg (not_not.mpr h.preds),
    if_neg hphis, if_neg havail]

/-- Strict mode knows what is known. -/
theorem knows_start_iff (hfn : fn.WellBuilt) (hb : fn.owns b) {v : Value} :
    Availability.knows ⟨DominatorTree.build fn, fn.definitions⟩ fn b v = true ↔ Known fn b v := by
  have hsound := sound_start hfn.closed
  have hcomplete := complete_start hfn.closed fun _ _ _ => hfn.unique_site
  rw [Availability.knows, Bool.or_eq_true, Known]
  refine or_congr List.contains_iff_mem ⟨fun h => ?_, ?_⟩
  · split at h
    · next d hd =>
      obtain ⟨hown, hvd⟩ := hsound.site v d hd
      rw [Bool.or_eq_true, decide_eq_true_eq] at h
      exact ⟨d, hown, hvd, h.imp_right (hsound.tree d b hown hb)⟩
    · exact absurd h (by simp)
  · rintro ⟨d, hown, hvd, h⟩
    rw [hcomplete.site v d hown hvd]
    dsimp only
    rw [Bool.or_eq_true, decide_eq_true_eq]
    exact h.imp_right (hcomplete.tree d b hown hb)

/-- **The search finds exactly the blocks that match.** -/
theorem matches_iff (hfn : fn.WellBuilt) (hb : fn.owns b) :
    Matches strict fn b ↔ ∃ n, find fn (availability strict fn) b = .ok n := by
  refine exists_congr fun n => ?_
  rw [find_eq_ok_iff, availability]
  refine and_congr_right fun _ => ?_
  cases strict with
  | false => simp
  | true => simp [knows_start_iff hfn hb]

/-! ### What a run has examined -/

/-- **What a run has examined**, while the branches `cs` are still in the queue. As long as there
are no folds, everything is as it was on entry, and every branch that had its turn was rejected; and
if there are folds, some block was found on entry. -/
inductive Examined (fn : Func) (avail : Option Availability) :
    List Folding → Progress → List Candidate → Prop
  | nothing {p : Progress} {cs : List Candidate} (hfunc : p.func = fn) (havail : p.avail = avail)
      (hrejected : ∀ c ∈ candidates fn, c ∈ cs ∨ ∃ r, find fn avail c.block = .error r) :
      Examined fn avail [] p cs
  | found {g : Folding} {fs : List Folding} {p : Progress} {cs : List Candidate} {b : BlockId}
      {n : Nest} (hb : fn.owns b) (hfind : find fn avail b = .ok n) :
      Examined fn avail (g :: fs) p cs

/-- **One branch more**: the first fold of a run is found on entry. -/
theorem Examined.tries (hw : fn.Wired) (hunder : Underway fn fs p.func (c :: cs))
    (h : Examined fn avail fs p (c :: cs)) {o : Option Folding} (ht : Tries p c o p') :
    Examined fn avail (fs ++ o.toList) p' cs := by
  cases h with
  | found hb hfind => exact .found hb hfind
  | nothing hfunc havail hrejected =>
    cases ht with
    | stale hstale =>
      obtain ⟨g, hg, -⟩ := hunder.exists_of_stale hw hstale
      exact absurd hg List.not_mem_nil
    | rejected hstale hfind =>
      refine .nothing hfunc havail fun d hd => ?_
      rcases hrejected d hd with hmem | hr
      · rcases List.mem_cons.mp hmem with rfl | hmem
        · rw [hfunc, havail] at hfind
          exact Or.inr ⟨_, hfind⟩
        · exact Or.inl hmem
      · exact Or.inr hr
    | folded hstale hfind =>
      have hb := (owns_of_not_stale (hunder.ready hw).2 hstale).1
      rw [hfunc, havail] at hfind
      rw [hfunc] at hb
      exact .found hb hfind

/-- A block where something is found has a branch that is tried. -/
theorem exists_candidate (hb : fn.owns b) (hfind : find fn avail b = .ok n) :
    ∃ c ∈ candidates fn, c.block = b :=
  ⟨⟨b, .branch n.outer n.middle n.shared⟩,
    mem_candidates_iff.mpr ⟨hb, (found_of_find hfind).1.outer_term, rfl⟩, rfl⟩

/-- **A run folds something just when something is found on entry.** -/
theorem changed_iff_exists_find (hw : fn.Wired) (strict : Bool) (cache : Option AnalysisCache) :
    (Pass.nestedIf.run strict fn cache).changed = true ↔
      ∃ b n, fn.owns b ∧ find fn (start strict fn cache).1.avail b = .ok n := by
  have hhistory := attemptAll_history
    (I := fun fs p cs => Underway fn fs p.func cs ∧ p.counters.combined = fs.length ∧
      Examined fn (start strict fn cache).1.avail fs p cs)
    (fun fs p c cs hI => hI.1.ready hw) ?step (candidates fn) [] (start strict fn cache).1 ?start
  case step =>
    rintro fs p c cs o p' ⟨hunder, hcombined, hexamined⟩ ht
    refine ⟨hunder.tries hw ht, ?_, hexamined.tries hw hunder ht⟩
    rw [combined_of_tries ht, hcombined, List.length_append, Nat.cast_add]
  case start =>
    rw [start_eq]
    exact ⟨underway_start, rfl, .nothing rfl rfl fun c hc => Or.inl hc⟩
  obtain ⟨p, hp, -, hcombined, hexamined⟩ := hhistory
  have hrun : (run strict fn cache).1 = .ok p := hp
  rw [Pass.run_nestedIf hrun, decide_eq_true_eq, hcombined]
  generalize [] ++ foldings (start strict fn cache).1 (candidates fn) = fs at hexamined
  cases hexamined with
  | nothing _ _ hrejected =>
    refine iff_of_false (by simp) ?_
    rintro ⟨b, n, hb, hfind⟩
    obtain ⟨c, hc, rfl⟩ := exists_candidate hb hfind
    obtain hmem | ⟨r, hr⟩ := hrejected c hc
    · exact absurd hmem List.not_mem_nil
    · exact absurd (hfind.symm.trans hr) (by simp)
  | found hb hfind =>
    refine iff_of_true ?_ ⟨_, _, hb, hfind⟩
    rw [List.length_cons]
    omega

/-- With the dominators of the function, a run starts with what there is to know. -/
theorem avail_start {cache : Option AnalysisCache}
    (htree : (dominatorsWith fn cache).1 = DominatorTree.build fn) :
    (start strict fn cache).1.avail = availability strict fn := by
  cases strict with
  | false => rfl
  | true => rw [start_true htree, availability, if_pos rfl]

/-- **A run reports a change just when a live block matches on entry.** -/
theorem changed_iff (hfn : fn.WellBuilt) (strict : Bool) {cache : Option AnalysisCache}
    (htree : (dominatorsWith fn cache).1 = DominatorTree.build fn) :
    (Pass.nestedIf.run strict fn cache).changed = true ↔
      ∃ b, fn.owns b ∧ Matches strict fn b := by
  rw [changed_iff_exists_find hfn.toWired, avail_start htree]
  refine exists_congr fun b => ?_
  rw [exists_and_left]
  exact and_congr_right fun hb => (matches_iff hfn hb).symm

end NestedIf

/-! ### Groups of the pass -/

/-- Whether the last thing that happened in a run is that a group was given up. -/
def RunState.GaveUp (s : RunState) : Prop :=
  ∃ func rounds, s.journal.back? = some (.roundLimit func rounds)

namespace Step

open NestedIf (Matches)

variable {o : Options} {s s' : RunState} {c : Bool}

theorem gaveUp_giveUp (s : RunState) (done : Nat) : (giveUp s done).GaveUp :=
  ⟨_, _, Array.back?_push⟩

/-- A run of the pass in a pipeline. -/
theorem exists_run_nestedIf (hs : Sound s) (o : Options) (name : String) :
    ∃ c t, run o (.pass name .nestedIf) s = .ok (c, t) ∧ Sound t ∧
      (c = true ↔ ∃ b, s.func.owns b ∧ Matches o.strict s.func b) ∧
      (c = false → t.func = s.func) := by
  rw [run, runPass_of_wellBuilt hs.wellBuilt]
  refine ⟨_, _, rfl, hs.afterPass name .nestedIf o.strict, ?_, ?_⟩
  · exact NestedIf.changed_iff hs.wellBuilt o.strict hs.coherent.dominators_eq
  · exact (Pass.improves_run hs.wellBuilt .nestedIf o.strict (some s.cache)).unchanged

/-- A run of the pass that changes nothing is repeated without a change. -/
theorem run_nestedIf_again (hs : Sound s) (o : Options) (name : String)
    (hnone : ∀ b, s.func.owns b → ¬Matches o.strict s.func b) :
    ∃ t, run o (.pass name .nestedIf) s = .ok (false, t) ∧ t.func = s.func := by
  obtain ⟨c, t, hrun, -, hc, hfunc⟩ := exists_run_nestedIf hs o name
  have hfalse : c = false := by
    rw [← Bool.not_eq_true, hc]
    rintro ⟨b, hb, hmatches⟩
    exact hnone b hb hmatches
  exact ⟨t, hfalse ▸ hrun, hfunc hfalse⟩

/-- **What a group of the pass leaves does not match**, if the group was not given up. -/
theorem not_matches_of_run_fixpoint {name : String} (hs : Sound s)
    (h : run o (.fixpoint [.pass name .nestedIf]) s = .ok (c, s'))
    (hend : o.maxRounds = 0 ∨ ¬s'.GaveUp) :
    ∀ b, s'.func.owns b → ¬Matches o.strict s'.func b := by
  rcases run_fixpoint_cases hs h with ⟨s₀, k, hlimit, rfl⟩ | ⟨s₀, hs₀, hround⟩
  · -- without a limit, no group is given up
    rcases hend with hzero | hnot
    · simp [Options.canRepeat, hzero] at hlimit
    · exact absurd (gaveUp_giveUp s₀ k) hnot
  · rw [runAll_singleton] at hround
    obtain ⟨c', t, hrun, -, hc, hfunc⟩ := exists_run_nestedIf hs₀ o name
    rw [hround] at hrun
    obtain ⟨rfl, rfl⟩ := Prod.mk.inj (Except.ok.inj hrun)
    rw [hfunc rfl]
    exact fun b hb hmatches => absurd (hc.mpr ⟨b, hb, hmatches⟩) (by simp)

/-- A group of the pass succeeds. -/
theorem exists_run_fixpoint (hs : Sound s) (o : Options) (name : String) :
    ∃ c t, run o (.fixpoint [.pass name .nestedIf]) s = .ok (c, t) ∧ Sound t := by
  rw [run]
  refine exists_runUntilStable (fun s hs => ?_) _ 0 false s hs
  obtain ⟨c, t, hrun, ht, -⟩ := exists_run_nestedIf hs o name
  exact ⟨c, t, (runAll_singleton o _ s).trans hrun, ht⟩

end Step

namespace NestedIf

/-- **The pass misses nothing, and what a group of it leaves is clean.** Let a function be one that
was read.

* A run of the pass over it reports a change if and only if a live block matches on entry. The cache
  may be any cache that is coherent with the function, or none. Whether a block matches is what the
  search finds out.
* The same holds in a pipeline, in the state that any steps have led to, and there a group that runs
  the pass until nothing changes ends without an error. If there is no limit on the rounds, or the
  group is not given up, no live block of the function that it leaves matches, and another run of
  the pass reports no change and makes none. -/
theorem run_misses_nothing {src : String} {serial : Nat} {m : Module} {fn : Func}
    (hread : Module.parse src serial = .ok m) (hfn : fn ∈ m.funcs) :
    (∀ strict cache, (∀ c, cache = some c → AnalysisCache.Coherent c fn) →
      ((Pass.nestedIf.run strict fn cache).changed = true ↔
        ∃ b, fn.owns b ∧ Matches strict fn b) ∧
      ∀ b, fn.owns b → (Matches strict fn b ↔
        ∃ n, find fn (start strict fn cache).1.avail b = .ok n)) ∧
    ∀ (o : Options) (cache : AnalysisCache) (ts : List Step) (c : Bool) (s : RunState)
      (name : String), cache.Coherent fn →
      Step.runAll o ts false { func := fn, cache } = .ok (c, s) →
        (∃ c t, Step.run o (.pass name .nestedIf) s = .ok (c, t) ∧
          (c = true ↔ ∃ b, s.func.owns b ∧ Matches o.strict s.func b)) ∧
        ∃ c s', Step.run o (.fixpoint [.pass name .nestedIf]) s = .ok (c, s') ∧
          (o.maxRounds = 0 ∨ ¬s'.GaveUp →
            (∀ b, s'.func.owns b → ¬Matches o.strict s'.func b) ∧
            ∃ t, Step.run o (.pass name .nestedIf) s' = .ok (false, t) ∧ t.func = s'.func) := by
  have hwell := Source.wellBuilt_of_parse hread fn hfn
  refine ⟨fun strict cache hcache => ?_, fun o cache ts c s name hcache hrun => ?_⟩
  · have htree : (dominatorsWith fn cache).1 = DominatorTree.build fn := by
      cases cache with
      | none => rfl
      | some c => exact (hcache c rfl).dominators_eq
    refine ⟨changed_iff hwell strict htree, fun b hb => ?_⟩
    rw [avail_start htree]
    exact matches_iff hwell hb
  · have hstart : Step.Sound { func := fn, cache } := ⟨hwell, hcache⟩
    obtain ⟨tr, hexec⟩ := Step.executes_runAll o ts false { func := fn, cache } hwell
    rw [hrun] at hexec
    have hs : Step.Sound s := (hexec.coherent hstart).2
    obtain ⟨c₁, t, hpass, -, hchanged, -⟩ := Step.exists_run_nestedIf hs o name
    obtain ⟨c₂, s', hgroup, hs'⟩ := Step.exists_run_fixpoint hs o name
    refine ⟨⟨c₁, t, hpass, hchanged⟩, c₂, s', hgroup, fun hend => ?_⟩
    have hnone := Step.not_matches_of_run_fixpoint hs hgroup hend
    exact ⟨hnone, Step.run_nestedIf_again hs' o name hnone⟩

/-- A nest of three branches. -/
def threeLevelsText : String :=
  "func @f(%a, %b, %c) \x7b\n" ++
  "i:\nbr %a, j, o\n" ++
  "j:\nbr %b, k, o\n" ++
  "k:\nbr %c, m, o\n" ++
  "m:\nret %a\n" ++
  "o:\nret %b\n\x7d\n"

/-- The function of this program. -/
def threeLevels : Func where
  serial := 0
  name := "f"
  root := some ⟨0, 0⟩
  params := [⟨0, 0, "a"⟩, ⟨0, 1, "b"⟩, ⟨0, 2, "c"⟩]
  values := #[⟨0, 0, "a"⟩, ⟨0, 1, "b"⟩, ⟨0, 2, "c"⟩]
  blocks := #[
    { label := "i", term := some (.branch ⟨0, 0, "a"⟩ ⟨0, 1⟩ ⟨0, 4⟩) },
    { label := "j", preds := [⟨0, 0⟩], term := some (.branch ⟨0, 1, "b"⟩ ⟨0, 2⟩ ⟨0, 4⟩) },
    { label := "k", preds := [⟨0, 1⟩], term := some (.branch ⟨0, 2, "c"⟩ ⟨0, 3⟩ ⟨0, 4⟩) },
    { label := "m", preds := [⟨0, 2⟩], term := some (.ret [⟨0, 0, "a"⟩]) },
    { label := "o", preds := [⟨0, 0⟩, ⟨0, 1⟩, ⟨0, 2⟩], term := some (.ret [⟨0, 1, "b"⟩]) }]

theorem parse_threeLevelsText : Module.parse threeLevelsText = .ok ⟨[threeLevels]⟩ := by
  decide +kernel

/-- The blocks and the journal that a group of the pass leaves. -/
def leftBy (o : Options) (fn : Func) : Option (List BlockId × Option JournalEntry) :=
  match Step.run o (.fixpoint [.pass "nested-if-combine" .nestedIf]) { func := fn } with
  | .ok (_, s) => some (s.func.ids, s.journal.back?)
  | .error _ => none

/-- A block matches on entry. A group of the pass makes one block of the three levels, which takes
it two rounds, stops before its limit, and leaves nothing that matches. -/
theorem threeLevels_left_clean :
    (∃ b, threeLevels.owns b ∧ Matches true threeLevels b) ∧
      ∃ c s', Step.run { strict := true } (.fixpoint [.pass "nested-if-combine" .nestedIf])
          { func := threeLevels } = .ok (c, s') ∧
        s'.func.ids = [⟨0, 0⟩, ⟨0, 3⟩, ⟨0, 4⟩] ∧
        ∀ b, s'.func.owns b → ¬Matches true s'.func b := by
  obtain ⟨hruns, hsteps⟩ :=
    run_misses_nothing parse_threeLevelsText (List.mem_singleton_self threeLevels)
  refine ⟨(hruns true none (by simp)).1.mp (by decide +kernel), ?_⟩
  obtain ⟨-, c, s', hgroup, hclean⟩ := hsteps { strict := true } {} [] false
    { func := threeLevels } "nested-if-combine" (AnalysisCache.coherent_empty threeLevels) rfl
  have hleft : leftBy { strict := true } threeLevels = some ([⟨0, 0⟩, ⟨0, 3⟩, ⟨0, 4⟩],
      some (.passFinished "nested-if-combine" "f" false)) := by decide +kernel
  rw [leftBy, hgroup] at hleft
  obtain ⟨hids, hlast⟩ := Prod.mk.inj (Option.some.inj hleft)
  have hnot : ¬s'.GaveUp := by
    rintro ⟨func, rounds, hgave⟩
    exact absurd (hlast.symm.trans hgave) (by simp)
  exact ⟨c, s', hgroup, hids, (hclean (Or.inr hnot)).1⟩

end NestedIf

end BranchFusion
