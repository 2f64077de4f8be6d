import BranchFusion.Proofs.Pipeline.Change
import BranchFusion.Proofs.Pipeline.Coherence

/-!
# Rounds that change nothing

A group that runs until nothing changes leaves off after a round that reports no change. This saves
rounds, and is right only if the rounds that are saved would not have changed anything either. They
would have started from another state than the last round: counters are counted up, the journal is
longer, and the cache may hold dominators that had to be computed before. What steps do with the
function, and what they report, depends on none of these as long as the cache is coherent
(`BranchFusion.Step.runAll_alike`). So a round that reports no change and leaves the function as it
is (`BranchFusion.Step.Executes.untouched`) is followed by rounds that do the same, and to leave off
or to go on makes no difference (`BranchFusion.Step.Steady.runUntilStable_alike`). Without leaving
off, rounds are nothing but the steps of the body written down once for each round
(`BranchFusion.Step.runTimes_eq_runAll`).

How a group ended can be told afterwards: it was given up, or its last round changed nothing
(`BranchFusion.Step.run_fixpoint_cases`).
-/

namespace BranchFusion.Step

variable {o : Options} {s s' t : RunState} {c c' : Bool} {act : Action} {ts ts' body : List Step}
  {r r' r'' : Except RunStop (Bool × RunState)}

/-! ### What the rest of the state is for -/

/-- Two states **with the same function**, and with caches that are coherent with it. -/
structure SameFunc (s s' : RunState) : Prop where
  left : Sound s
  right : Sound s'
  func : s'.func = s.func

theorem SameFunc.refl (hs : Sound s) : SameFunc s s := ⟨hs, hs, rfl⟩

theorem SameFunc.symm (h : SameFunc s s') : SameFunc s' s := ⟨h.right, h.left, h.func.symm⟩

theorem SameFunc.trans (h : SameFunc s s') (h' : SameFunc s' t) : SameFunc s t :=
  ⟨h.left, h'.right, h'.func.trans h.func⟩

/-- **Two runs come to the same end**, as far as the function and the report are concerned. -/
def Alike : Except RunStop (Bool × RunState) → Except RunStop (Bool × RunState) → Prop :=
  Corresponds SameFunc (· = ·)

theorem Alike.symm (h : Alike r r') : Alike r' r := by
  cases h with
  | ok c h => exact .ok c h.symm
  | error hfailure h => exact .error hfailure.symm h.symm

theorem Alike.trans (h : Alike r r') (h' : Alike r' r'') : Alike r r'' := by
  cases h with
  | ok c h => cases h' with | ok _ h' => exact .ok c (h.trans h')
  | error hfailure h =>
    cases h' with | error hfailure' h' => exact .error (hfailure.trans hfailure') (h.trans h')

/-- They leave the same function, and tell the same. -/
theorem Alike.same_end (h : Alike r r') :
    (endState r').func = (endState r).func ∧ verdict r' = verdict r := by
  cases h with
  | ok c h => exact ⟨h.func, rfl⟩
  | error hfailure h => exact ⟨h.func, congrArg Except.error hfailure.symm⟩

theorem runPass_alike (h : SameFunc s s') (strict : Bool) (name : String) (p : Pass) :
    Alike (runPass strict name p s) (runPass strict name p s') := by
  obtain ⟨hchanged, hfunc⟩ :
      (p.run strict s'.func (some s'.cache)).changed = (p.run strict s.func (some s.cache)).changed ∧
        (p.run strict s'.func (some s'.cache)).func = (p.run strict s.func (some s.cache)).func := by
    rw [Pass.run_of_coherent h.left.coherent, Pass.run_of_coherent h.right.coherent, h.func]
    exact ⟨rfl, rfl⟩
  rw [runPass_of_wellBuilt h.left.wellBuilt, runPass_of_wellBuilt h.right.wellBuilt, hchanged]
  exact .ok _ ⟨h.left.afterPass name p strict, h.right.afterPass name p strict, hfunc⟩

theorem runVerify_alike (h : SameFunc s s') : Alike (runVerify s) (runVerify s') := by
  rw [runVerify, runVerify, h.func]
  cases s.func.defects with
  | nil => exact .ok false h
  | cons d ds => exact .error rfl h

/-- **What steps do with a function depends on the function alone.** -/
theorem runAll_alike (o : Options) (ts : List Step) (c : Bool) (h : SameFunc s s') :
    Alike (runAll o ts c s) (runAll o ts c s') := by
  obtain ⟨tr, hexec⟩ := executes_runAll o ts c s h.left.wellBuilt
  obtain ⟨tr', hexec'⟩ := executes_runAll o ts c s' h.right.wellBuilt
  obtain ⟨tr'', r, hfollow, hr⟩ := hexec.follow
    (fun name p _ _ hs => runPass_alike hs o.strict name p) (fun _ _ => runVerify_alike)
    (fun _ _ done hs => ⟨hs.left.giveUp done, hs.right.giveUp done, hs.func⟩) s' h
  rwa [(hexec'.unique hfollow).2]

/-! ### Leaving off and going on -/

/-- **A steady action** depends on the function alone, and leaves it as it is when it reports no
change. -/
structure Steady (act : Action) : Prop where
  alike : ∀ s s', SameFunc s s' → Alike (act s) (act s')
  idle : ∀ s t, Sound s → act s = .ok (false, t) → SameFunc s t

theorem steady_runAll (o : Options) (ts : List Step) : Steady fun s => runAll o ts false s where
  alike _ _ := runAll_alike o ts false
  idle s t hs h := by
    obtain ⟨tr, hexec⟩ := executes_runAll o ts false s hs.wellBuilt
    rw [show runAll o ts false s = .ok (false, t) from h] at hexec
    exact ⟨hs, (hexec.coherent hs).2, (hexec.untouched hs.wellBuilt t rfl).2⟩

/-- After a round that changes nothing, no round changes anything. -/
theorem Steady.runTimes_of_idle (h : Steady act) (c : Bool) : ∀ (n : Nat) (s t : RunState),
    Sound s → act s = .ok (false, t) → Alike (runTimes act n c t) (.ok (c, t))
  | 0, s, t, hs, hact => .ok c (.refl (h.idle s t hs hact).right)
  | n + 1, s, t, hs, hact => by
    have hidle := h.idle s t hs hact
    -- the next round is like the one before, so it changes nothing
    have hnext := h.alike s t hidle
    rw [hact] at hnext
    generalize hround : act t = round at hnext
    cases hnext with
    | ok _ ht =>
      rw [runTimes, hround]
      simp only [Bool.or_false]
      have hrest := h.runTimes_of_idle c n t _ hidle.right hround
      exact hrest.trans (.ok c ht.symm)

/-- **To leave off after a round that changes nothing makes no difference.** -/
theorem Steady.runUntilStable_alike (h : Steady act) : ∀ (left done : Nat) (c : Bool)
    (s : RunState), Sound s → Alike (runUntilStable act left done c s) (runTimes act left c s)
  | 0, done, c, s, hs => .ok c ⟨hs.giveUp done, hs, rfl⟩
  | left + 1, done, c, s, hs => by
    have hself := h.alike s s (.refl hs)
    rw [runUntilStable, runTimes]
    cases hact : act s with
    | error e =>
      rw [hact] at hself
      exact hself
    | ok round =>
      obtain ⟨c', t⟩ := round
      rw [hact] at hself
      cases c' with
      | false => simpa only [Bool.or_false] using (h.runTimes_of_idle c left s t hs hact).symm
      | true =>
        simp only [Bool.or_true]
        cases hself with | ok _ ht => exact h.runUntilStable_alike left (done + 1) true t ht.left

/-- A group that runs until nothing changes succeeds if its rounds do. -/
theorem exists_runUntilStable (hact : ∀ s, Sound s → ∃ c t, act s = .ok (c, t) ∧ Sound t) :
    ∀ (left done : Nat) (c : Bool) (s : RunState), Sound s →
      ∃ c' t, runUntilStable act left done c s = .ok (c', t) ∧ Sound t
  | 0, done, c, s, hs => ⟨c, giveUp s done, rfl, hs.giveUp done⟩
  | left + 1, done, c, s, hs => by
    obtain ⟨c', t, hround, ht⟩ := hact s hs
    rw [runUntilStable, hround]
    cases c' with
    | false => exact ⟨c, t, rfl, ht⟩
    | true => exact exists_runUntilStable hact left (done + 1) true t ht

/-! ### Rounds written down -/

theorem runAll_append (o : Options) (us : List Step) : ∀ (ts : List Step) (c : Bool) (s : RunState),
    runAll o (ts ++ us) c s = (runAll o ts c s).bind fun r => runAll o us r.1 r.2
  | [], c, s => by
    rw [List.nil_append, runAll]
    rfl
  | t :: ts, c, s => by
    rw [List.cons_append, runAll, runAll]
    cases run o t s with
    | error e => rfl
    | ok r => exact runAll_append o us ts (c || r.1) r.2

/-- The flag says what was changed before, and nothing else comes of it. -/
theorem runAll_eq_map (o : Options) : ∀ (ts : List Step) (c : Bool) (s : RunState),
    runAll o ts c s = (runAll o ts false s).map fun r => (c || r.1, r.2)
  | [], c, s => by simp [runAll, Except.map]
  | t :: ts, c, s => by
    rw [runAll, runAll]
    cases run o t s with
    | error e => rfl
    | ok r =>
      obtain ⟨c', s'⟩ := r
      dsimp only
      rw [runAll_eq_map o ts (c || c') s', runAll_eq_map o ts (false || c') s']
      cases runAll o ts false s' with
      | error e => rfl
      | ok r => simp [Except.map, Bool.or_assoc]

theorem runAll_singleton (o : Options) (t : Step) (s : RunState) :
    runAll o [t] false s = run o t s := by
  rw [runAll]
  cases run o t s with
  | error e => rfl
  | ok r => simp [runAll]

/-- **Rounds are the steps of the body, once for each round.** -/
theorem runTimes_eq_runAll (o : Options) (body : List Step) : ∀ (n : Nat) (c : Bool) (s : RunState),
    runTimes (fun s => runAll o body false s) n c s =
      runAll o (List.replicate n body).flatten c s
  | 0, c, s => by
    rw [runTimes, List.replicate_zero, List.flatten_nil, runAll]
  | n + 1, c, s => by
    rw [runTimes, List.replicate_succ, List.flatten_cons, runAll_append, runAll_eq_map o body c]
    cases runAll o body false s with
    | error e => rfl
    | ok r => exact runTimes_eq_runAll o body n (c || r.1) r.2

/-- What comes to the same end goes on in the same way. -/
theorem Alike.append (h : Alike (runAll o ts c s) (runAll o ts' c' s')) (us : List Step) :
    Alike (runAll o (ts ++ us) c s) (runAll o (ts' ++ us) c' s') := by
  rw [runAll_append, runAll_append]
  generalize runAll o ts c s = r, runAll o ts' c' s' = r' at h
  cases h with
  | ok c h => exact runAll_alike o us c h
  | error hfailure h => exact .error hfailure h

/-- **Three ways to run a body**: until nothing changes, a number of times that is the limit, and
written down as often. -/
theorem groups_alike {n : Nat} (hlimit : o.maxRounds = n) (hn : 1 ≤ n) (body : List Step)
    (hs : Sound s) :
    Alike (runAll o [.fixpoint body] false s) (runAll o [.times n body] false s) ∧
      runAll o [.times n body] false s = runAll o (List.replicate n body).flatten false s := by
  have hrounds : roundsFor o.maxRounds s.func = n := by
    rw [roundsFor, hlimit, if_neg (by omega), Int.toNat_natCast]
  rw [runAll_singleton, runAll_singleton, run, run]
  dsimp only
  rw [hrounds]
  exact ⟨(steady_runAll o body).runUntilStable_alike n 0 false s hs,
    runTimes_eq_runAll o body n false s⟩

/-! ### How a group ended -/

/-- A group that was not given up ended with a round that changed nothing. -/
theorem Executes.stable_end {body : List Step} {done : Nat} {tr : List RunState}
    (h : Executes (runPass o.strict) o (.stable body done c) s tr (.ok (c', s'))) (hs : Sound s) :
    (∃ s₀, ∃ k : Nat, o.canRepeat k = false ∧ s' = giveUp s₀ k) ∨
      ∃ s₀ tr', Sound s₀ ∧
        Executes (runPass o.strict) o (.all body false) s₀ tr' (.ok (false, s')) := by
  generalize htask : Task.stable body done c = task, hr : Except.ok (c', s') = r at h
  induction h generalizing done c with
  | stableLimit hlimit =>
    cases hr
    exact Or.inl ⟨_, _, hlimit, rfl⟩
  | stableDone _ h =>
    cases htask
    cases hr
    exact Or.inr ⟨_, _, hs, h⟩
  | stableNext _ h _ _ ih =>
    cases htask
    exact ih (h.coherent hs).2 rfl hr
  | stableStop => exact absurd hr (by simp)
  | _ => exact absurd htask (by simp)

/-- **How a group ended** that runs until nothing changes: it was given up since the options allowed
no more rounds, or its last round changed nothing. -/
theorem run_fixpoint_cases (hs : Sound s) (h : run o (.fixpoint body) s = .ok (c, s')) :
    (∃ s₀, ∃ k : Nat, o.canRepeat k = false ∧ s' = giveUp s₀ k) ∨
      ∃ s₀, Sound s₀ ∧ runAll o body false s₀ = .ok (false, s') := by
  obtain ⟨tr, hexec⟩ := executes_run o (.fixpoint body) s hs.wellBuilt
  rw [h] at hexec
  cases hexec with
  | fixpoint hexec =>
    refine (hexec.stable_end hs).imp_right ?_
    rintro ⟨s₀, tr', hs₀, hround⟩
    obtain ⟨tr'', hrun⟩ := executes_runAll o body false s₀ hs₀.wellBuilt
    exact ⟨s₀, hs₀, (hrun.unique hround).2⟩

end BranchFusion.Step
