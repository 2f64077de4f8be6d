import BranchFusion.Pipeline.Manager
import BranchFusion.Proofs.Pass.WellBuilt

/-!
# Executions of a pipeline

A pipeline is run by functions that bound the rounds of every group beforehand. Here is what an
execution is without such bounds (`BranchFusion.Step.Executes`): a group that runs until nothing
changes goes on as long as the options allow another round, which without a limit is forever, unless
a round changes nothing. An execution is a finite derivation, so to have one is to come to an end.
It lists the states at the boundaries between steps, inside of groups too.

The passes are a parameter of the relation; executions with and without a cache differ in it. There
is at most one execution (`BranchFusion.Step.Executes.unique`), and over a well-built function there
is one, with the result that the bounded functions give (`BranchFusion.Step.executes_runAll`): a
round that changes the function makes it smaller, so the bound on the rounds is never met.

What all passes keep, an execution keeps (`BranchFusion.Step.Executes.invariant`), and if passes do
corresponding things from related states, so do executions (`BranchFusion.Step.Executes.follow`).
-/

namespace BranchFusion

namespace Step

/-- **What there is to do** in a run. -/
inductive Task
  /-- One step. -/
  | one (t : Step)
  /-- The steps that are left; the flag tells whether an earlier one changed the function. -/
  | all (ts : List Step) (changed : Bool)
  /-- The rounds that are left of a group with a number. -/
  | rounds (body : List Step) (left : Nat) (changed : Bool)
  /-- A group that runs until nothing changes, after some rounds. -/
  | stable (body : List Step) (done : Nat) (changed : Bool)

/-- Whether the function has been changed before. -/
def Task.changed : Task → Bool
  | .one _ => false
  | .all _ c => c
  | .rounds _ _ c => c
  | .stable _ _ c => c

/-- The state that a run ends in, early or not. -/
def endState : Except RunStop (Bool × RunState) → RunState
  | .ok (_, s) => s
  | .error e => e.state

/-- What a run tells: whether it changed the function, or why it ended early. -/
def verdict : Except RunStop (Bool × RunState) → Except RunFailure Bool
  | .ok (c, _) => .ok c
  | .error e => .error e.failure

/-- The state of a run that gives up a group after some rounds. -/
def giveUp (s : RunState) (done : Nat) : RunState :=
  { s with journal := s.journal.push (.roundLimit s.func.name done) }

/-- **An execution**, with the states after each step and what comes of it. -/
inductive Executes (pass : String → Pass → Action) (o : Options) :
    Task → RunState → List RunState → Except RunStop (Bool × RunState) → Prop
  | pass (name : String) (p : Pass) (s : RunState) :
    Executes pass o (.one (.pass name p)) s [endState (pass name p s)] (pass name p s)
  | verify (s : RunState) :
    Executes pass o (.one .verify) s [endState (runVerify s)] (runVerify s)
  | times {n body s tr r} (h : Executes pass o (.rounds body n false) s tr r) :
    Executes pass o (.one (.times n body)) s tr r
  | fixpoint {body s tr r} (h : Executes pass o (.stable body 0 false) s tr r) :
    Executes pass o (.one (.fixpoint body)) s tr r
  | allDone (c : Bool) (s : RunState) : Executes pass o (.all [] c) s [] (.ok (c, s))
  | allNext {t ts c c' s s' tr tr' r} (h : Executes pass o (.one t) s tr (.ok (c', s')))
    (h' : Executes pass o (.all ts (c || c')) s' tr' r) :
    Executes pass o (.all (t :: ts) c) s (tr ++ tr') r
  | allStop {t ts c s tr e} (h : Executes pass o (.one t) s tr (.error e)) :
    Executes pass o (.all (t :: ts) c) s tr (.error e)
  | roundsDone (body : List Step) (c : Bool) (s : RunState) :
    Executes pass o (.rounds body 0 c) s [] (.ok (c, s))
  | roundsNext {body n c c' s s' tr tr' r}
    (h : Executes pass o (.all body false) s tr (.ok (c', s')))
    (h' : Executes pass o (.rounds body n (c || c')) s' tr' r) :
    Executes pass o (.rounds body (n + 1) c) s (tr ++ tr') r
  | roundsStop {body n c s tr e} (h : Executes pass o (.all body false) s tr (.error e)) :
    Executes pass o (.rounds body (n + 1) c) s tr (.error e)
  | stableLimit {body} {done : Nat} {c s} (hlimit : o.canRepeat done = false) :
    Executes pass o (.stable body done c) s [] (.ok (c, giveUp s done))
  | stableDone {body} {done : Nat} {c s s' tr} (hagain : o.canRepeat done = true)
    (h : Executes pass o (.all body false) s tr (.ok (false, s'))) :
    Executes pass o (.stable body done c) s tr (.ok (c, s'))
  | stableNext {body} {done : Nat} {c s s' tr tr' r} (hagain : o.canRepeat done = true)
    (h : Executes pass o (.all body false) s tr (.ok (true, s')))
    (h' : Executes pass o (.stable body (done + 1) true) s' tr' r) :
    Executes pass o (.stable body done c) s (tr ++ tr') r
  | stableStop {body} {done : Nat} {c s tr e} (hagain : o.canRepeat done = true)
    (h : Executes pass o (.all body false) s tr (.error e)) :
    Executes pass o (.stable body done c) s tr (.error e)

/-- **Two executions come to ends that correspond**: they report the same in states that are related,
or both end early, with failures that are related as well. -/
inductive Corresponds (R : RunState → RunState → Prop) (F : RunFailure → RunFailure → Prop) :
    Except RunStop (Bool × RunState) → Except RunStop (Bool × RunState) → Prop
  | ok {s s' : RunState} (c : Bool) (h : R s s') : Corresponds R F (.ok (c, s)) (.ok (c, s'))
  | error {e e' : RunStop} (hfailure : F e.failure e'.failure) (h : R e.state e'.state) :
    Corresponds R F (.error e) (.error e')

namespace Executes

variable {pass : String → Pass → Action} {o : Options} {task : Task} {s : RunState}
  {tr tr' : List RunState} {r r' : Except RunStop (Bool × RunState)}

/-- **There is at most one execution.** -/
theorem unique (h : Executes pass o task s tr r) (h' : Executes pass o task s tr' r') :
    tr = tr' ∧ r = r' := by
  induction h generalizing tr' r' with
  | pass => cases h'; exact ⟨rfl, rfl⟩
  | verify => cases h'; exact ⟨rfl, rfl⟩
  | times _ ih => cases h' with | times h' => exact ih h'
  | fixpoint _ ih => cases h' with | fixpoint h' => exact ih h'
  | allDone => cases h'; exact ⟨rfl, rfl⟩
  | allNext _ _ ih ih' =>
    cases h' with
    | allNext h h' =>
      obtain ⟨rfl, hr⟩ := ih h
      cases hr
      obtain ⟨rfl, rfl⟩ := ih' h'
      exact ⟨rfl, rfl⟩
    | allStop h => exact absurd (ih h).2 (by simp)
  | allStop _ ih =>
    cases h' with
    | allNext h _ => exact absurd (ih h).2 (by simp)
    | allStop h => exact ih h
  | roundsDone => cases h'; exact ⟨rfl, rfl⟩
  | roundsNext _ _ ih ih' =>
    cases h' with
    | roundsNext h h' =>
      obtain ⟨rfl, hr⟩ := ih h
      cases hr
      obtain ⟨rfl, rfl⟩ := ih' h'
      exact ⟨rfl, rfl⟩
    | roundsStop h => exact absurd (ih h).2 (by simp)
  | roundsStop _ ih =>
    cases h' with
    | roundsNext h _ => exact absurd (ih h).2 (by simp)
    | roundsStop h => exact ih h
  | stableLimit hlimit =>
    cases h' with
    | stableLimit => exact ⟨rfl, rfl⟩
    | stableDone hagain _ => exact absurd hagain (by simp [hlimit])
    | stableNext hagain _ _ => exact absurd hagain (by simp [hlimit])
    | stableStop hagain _ => exact absurd hagain (by simp [hlimit])
  | stableDone hagain _ ih =>
    cases h' with
    | stableLimit hlimit => exact absurd hagain (by simp [hlimit])
    | stableDone _ h =>
      obtain ⟨rfl, hr⟩ := ih h
      cases hr
      exact ⟨rfl, rfl⟩
    | stableNext _ h _ => exact absurd (ih h).2 (by simp)
    | stableStop _ h => exact absurd (ih h).2 (by simp)
  | stableNext hagain _ _ ih ih' =>
    cases h' with
    | stableLimit hlimit => exact absurd hagain (by simp [hlimit])
    | stableDone _ h => exact absurd (ih h).2 (by simp)
    | stableNext _ h h' =>
      obtain ⟨rfl, hr⟩ := ih h
      cases hr
      obtain ⟨rfl, rfl⟩ := ih' h'
      exact ⟨rfl, rfl⟩
    | stableStop _ h => exact absurd (ih h).2 (by simp)
  | stableStop hagain _ ih =>
    cases h' with
    | stableLimit hlimit => exact absurd hagain (by simp [hlimit])
    | stableDone _ h => exact absurd (ih h).2 (by simp)
    | stableNext _ h _ => exact absurd (ih h).2 (by simp)
    | stableStop _ h => exact ih h

theorem endState_verify (s : RunState) : endState (runVerify s) = s := by
  rw [runVerify]
  split <;> rfl

/-- **What all passes keep holds at every boundary** of an execution, and at its end. -/
theorem invariant {J : RunState → Prop} (h : Executes pass o task s tr r)
    (hpass : ∀ name p s, J s → J (endState (pass name p s)))
    (hgiveUp : ∀ s done, J s → J (giveUp s done)) (hs : J s) :
    (∀ s' ∈ tr, J s') ∧ J (endState r) := by
  have hsingle : ∀ {s' : RunState}, J s' → ∀ s'' ∈ [s'], J s'' := by
    rintro s' hs' s'' hs''
    rwa [List.mem_singleton.mp hs'']
  have happend : ∀ {tr tr' : List RunState}, (∀ s' ∈ tr, J s') → (∀ s' ∈ tr', J s') →
      ∀ s' ∈ tr ++ tr', J s' := fun htr htr' s' hs' =>
    (List.mem_append.mp hs').elim (htr s') (htr' s')
  induction h with
  | pass name p s => exact ⟨hsingle (hpass name p s hs), hpass name p s hs⟩
  | verify s =>
    rw [endState_verify]
    exact ⟨hsingle hs, hs⟩
  | times _ ih => exact ih hs
  | fixpoint _ ih => exact ih hs
  | allDone => exact ⟨by simp, hs⟩
  | allNext _ _ ih ih' => exact ⟨happend (ih hs).1 (ih' (ih hs).2).1, (ih' (ih hs).2).2⟩
  | allStop _ ih => exact ih hs
  | roundsDone => exact ⟨by simp, hs⟩
  | roundsNext _ _ ih ih' => exact ⟨happend (ih hs).1 (ih' (ih hs).2).1, (ih' (ih hs).2).2⟩
  | roundsStop _ ih => exact ih hs
  | stableLimit => exact ⟨by simp, hgiveUp _ _ hs⟩
  | stableDone _ _ ih => exact ih hs
  | stableNext _ _ _ ih ih' => exact ⟨happend (ih hs).1 (ih' (ih hs).2).1, (ih' (ih hs).2).2⟩
  | stableStop _ _ ih => exact ih hs

/-- **An execution can be followed from a related state**, if all passes and the verifier can be. -/
theorem follow {pass' : String → Pass → Action} {R : RunState → RunState → Prop}
    {F : RunFailure → RunFailure → Prop} (h : Executes pass o task s tr r)
    (hpass : ∀ name p s s', R s s' → Corresponds R F (pass name p s) (pass' name p s'))
    (hverify : ∀ s s', R s s' → Corresponds R F (runVerify s) (runVerify s'))
    (hgiveUp : ∀ s s' done, R s s' → R (giveUp s done) (giveUp s' done)) (s' : RunState)
    (hs : R s s') : ∃ tr' r', Executes pass' o task s' tr' r' ∧ Corresponds R F r r' := by
  induction h generalizing s' with
  | pass name p s => exact ⟨_, _, .pass name p s', hpass name p s s' hs⟩
  | verify s => exact ⟨_, _, .verify s', hverify s s' hs⟩
  | times _ ih =>
    obtain ⟨tr', r', h', hr⟩ := ih _ hs
    exact ⟨tr', r', .times h', hr⟩
  | fixpoint _ ih =>
    obtain ⟨tr', r', h', hr⟩ := ih _ hs
    exact ⟨tr', r', .fixpoint h', hr⟩
  | allDone c s => exact ⟨_, _, .allDone c s', .ok c hs⟩
  | allNext _ _ ih ih' =>
    obtain ⟨tr₁, _, h₁, ⟨_, hs₁⟩⟩ := ih _ hs
    obtain ⟨tr₂, r₂, h₂, hr⟩ := ih' _ hs₁
    exact ⟨_, r₂, .allNext h₁ h₂, hr⟩
  | allStop _ ih =>
    obtain ⟨tr', _, h', - | ⟨hfailure, hs'⟩⟩ := ih _ hs
    exact ⟨tr', _, .allStop h', .error hfailure hs'⟩
  | roundsDone body c s => exact ⟨_, _, .roundsDone body c s', .ok c hs⟩
  | roundsNext _ _ ih ih' =>
    obtain ⟨tr₁, _, h₁, ⟨_, hs₁⟩⟩ := ih _ hs
    obtain ⟨tr₂, r₂, h₂, hr⟩ := ih' _ hs₁
    exact ⟨_, r₂, .roundsNext h₁ h₂, hr⟩
  | roundsStop _ ih =>
    obtain ⟨tr', _, h', - | ⟨hfailure, hs'⟩⟩ := ih _ hs
    exact ⟨tr', _, .roundsStop h', .error hfailure hs'⟩
  | stableLimit hlimit => exact ⟨_, _, .stableLimit hlimit, .ok _ (hgiveUp _ _ _ hs)⟩
  | stableDone hagain _ ih =>
    obtain ⟨tr', _, h', ⟨_, hs'⟩⟩ := ih _ hs
    exact ⟨tr', _, .stableDone hagain h', .ok _ hs'⟩
  | stableNext hagain _ _ ih ih' =>
    obtain ⟨tr₁, _, h₁, ⟨_, hs₁⟩⟩ := ih _ hs
    obtain ⟨tr₂, r₂, h₂, hr⟩ := ih' _ hs₁
    exact ⟨_, r₂, .stableNext hagain h₁ h₂, hr⟩
  | stableStop hagain _ ih =>
    obtain ⟨tr', _, h', - | ⟨hfailure, hs'⟩⟩ := ih _ hs
    exact ⟨tr', _, .stableStop hagain h', .error hfailure hs'⟩

end Executes

/-! ### Passes with a cache -/

section Passes

variable {o : Options} {s s' : RunState} {c : Bool}

/-- What a pass leaves, as a state of the run. -/
def afterPass (name : String) (r : PassRun) (s : RunState) : RunState where
  func := r.func
  cache := (r.cache.getD {}).invalidate r.func r.changed
  counters := s.counters.add r.counters
  journal := (s.journal ++ r.journal.toArray).push (.passFinished name r.func.name r.changed)

theorem runPass_eq {strict : Bool} {p : Pass} (name : String)
    (h : (p.run strict s.func (some s.cache)).fault = none) :
    runPass strict name p s = .ok ((p.run strict s.func (some s.cache)).changed,
      afterPass name (p.run strict s.func (some s.cache)) s) := by
  rw [runPass, h]
  rfl

/-- A pass over a well-built function runs to its end. -/
theorem runPass_of_wellBuilt (hs : s.func.WellBuilt) (strict : Bool) (name : String) (p : Pass) :
    runPass strict name p s = .ok ((p.run strict s.func (some s.cache)).changed,
      afterPass name (p.run strict s.func (some s.cache)) s) :=
  runPass_eq name (Pass.improves_run hs p strict (some s.cache)).fault

/-- **An execution keeps a function well built**, at every boundary. -/
theorem Executes.wellBuilt {task : Task} {tr : List RunState}
    {r : Except RunStop (Bool × RunState)} (h : Executes (runPass o.strict) o task s tr r)
    (hs : s.func.WellBuilt) :
    (∀ s' ∈ tr, s'.func.WellBuilt ∧ s'.func.serial = s.func.serial) ∧
      (endState r).func.WellBuilt ∧ (endState r).func.serial = s.func.serial := by
  refine h.invariant (J := fun s' => s'.func.WellBuilt ∧ s'.func.serial = s.func.serial)
    (fun name p s' hs' => ?_) (fun _ _ hs' => hs') ⟨hs, rfl⟩
  have himproves := Pass.improves_run hs'.1 p o.strict (some s'.cache)
  rw [runPass_of_wellBuilt hs'.1]
  exact ⟨himproves.wellBuilt, himproves.serial.trans hs'.2⟩

/-- Two parts of an execution, one after the other. -/
theorem smaller_of_parts {a b d : Nat} {c₀ c c' : Bool} (hle : b ≤ a) (hlt : c = true → b < a)
    (h : d ≤ b ∧ (c' = true → (c₀ || c) = true ∨ d < b)) :
    d ≤ a ∧ (c' = true → c₀ = true ∨ d < a) := by
  refine ⟨h.1.trans hle, fun hc => ?_⟩
  rcases h.2 hc with hchanged | hless
  · exact ((Bool.or_eq_true _ _).mp hchanged).imp_right fun hc => h.1.trans_lt (hlt hc)
  · exact Or.inr (hless.trans_le hle)

/-- **An execution that reports a change has made the function smaller**, unless the change was
reported before. -/
theorem Executes.measure {task : Task} {tr : List RunState}
    {r : Except RunStop (Bool × RunState)} (h : Executes (runPass o.strict) o task s tr r)
    (hs : s.func.WellBuilt) : ∀ c s', r = .ok (c, s') → s'.func.measure ≤ s.func.measure ∧
      (c = true → task.changed = true ∨ s'.func.measure < s.func.measure) := by
  induction h with
  | pass name p s =>
    have himproves := Pass.improves_run hs p o.strict (some s.cache)
    rintro c s' hr
    rw [runPass_of_wellBuilt hs] at hr
    obtain ⟨rfl, rfl⟩ := Prod.mk.inj (Except.ok.inj hr)
    cases hc : (p.run o.strict s.func (some s.cache)).changed with
    | true => exact ⟨(himproves.smaller hc).le, fun _ => Or.inr (himproves.smaller hc)⟩
    | false =>
      refine ⟨?_, fun h => absurd h (by simp)⟩
      rw [afterPass, himproves.unchanged hc]
  | verify s =>
    rintro c s' hr
    rw [runVerify] at hr
    split at hr
    · obtain ⟨rfl, rfl⟩ := Prod.mk.inj (Except.ok.inj hr)
      exact ⟨le_rfl, fun h => absurd h (by simp)⟩
    · exact absurd hr (by simp)
  | times _ ih => exact ih hs
  | fixpoint _ ih => exact ih hs
  | allDone c s =>
    rintro c' s' hr
    obtain ⟨rfl, rfl⟩ := Prod.mk.inj (Except.ok.inj hr)
    exact ⟨le_rfl, Or.inl⟩
  | allNext h _ ih ih' =>
    intro c' s' hr
    obtain ⟨hle, hlt⟩ := ih hs _ _ rfl
    refine smaller_of_parts hle (fun hc => (hlt hc).resolve_left ?_)
      (ih' (h.wellBuilt hs).2.1 c' s' hr)
    simp [Task.changed]
  | allStop => exact fun _ _ hr => absurd hr (by simp)
  | roundsDone body c s =>
    rintro c' s' hr
    obtain ⟨rfl, rfl⟩ := Prod.mk.inj (Except.ok.inj hr)
    exact ⟨le_rfl, Or.inl⟩
  | roundsNext h _ ih ih' =>
    intro c' s' hr
    obtain ⟨hle, hlt⟩ := ih hs _ _ rfl
    refine smaller_of_parts hle (fun hc => (hlt hc).resolve_left ?_)
      (ih' (h.wellBuilt hs).2.1 c' s' hr)
    simp [Task.changed]
  | roundsStop => exact fun _ _ hr => absurd hr (by simp)
  | stableLimit =>
    rintro c' s' hr
    obtain ⟨rfl, rfl⟩ := Prod.mk.inj (Except.ok.inj hr)
    exact ⟨le_rfl, Or.inl⟩
  | stableDone _ _ ih =>
    rintro c' s' hr
    obtain ⟨rfl, rfl⟩ := Prod.mk.inj (Except.ok.inj hr)
    exact ⟨(ih hs _ _ rfl).1, Or.inl⟩
  | stableNext _ h _ ih ih' =>
    rintro c' s' hr
    obtain ⟨-, hlt⟩ := ih hs _ _ rfl
    obtain ⟨hle', -⟩ := ih' (h.wellBuilt hs).2.1 c' s' hr
    have hless := (hlt rfl).resolve_left (by simp [Task.changed])
    exact ⟨hle'.trans hless.le, fun _ => Or.inr (hle'.trans_lt hless)⟩
  | stableStop => exact fun _ _ hr => absurd hr (by simp)

/-! ### The bounded functions give executions -/

section Groups

variable {body : List Step} {act : Action}
  (hact : ∀ s, s.func.WellBuilt →
    ∃ tr, Executes (runPass o.strict) o (.all body false) s tr (act s))

include hact

theorem executes_runTimes : ∀ (n : Nat) (c : Bool) (s : RunState), s.func.WellBuilt →
    ∃ tr, Executes (runPass o.strict) o (.rounds body n c) s tr (runTimes act n c s)
  | 0, c, s, _ => ⟨[], .roundsDone body c s⟩
  | n + 1, c, s, hs => by
    obtain ⟨tr, h⟩ := hact s hs
    rw [runTimes]
    cases hr : act s with
    | error e => exact ⟨tr, .roundsStop (hr ▸ h)⟩
    | ok r =>
      obtain ⟨c', s'⟩ := r
      rw [hr] at h
      obtain ⟨tr', h'⟩ := executes_runTimes n (c || c') s' (h.wellBuilt hs).2.1
      exact ⟨tr ++ tr', .roundsNext h h'⟩

/-- The rounds that are left are enough: with a limit they are what the limit leaves, and without
one they are more than the function can need. -/
theorem executes_runUntilStable : ∀ (left done : Nat) (c : Bool) (s : RunState),
    s.func.WellBuilt → (o.maxRounds = 0 → s.func.measure < left) →
    (o.maxRounds ≠ 0 → left + done = o.maxRounds.toNat) →
    ∃ tr, Executes (runPass o.strict) o (.stable body done c) s tr
      (runUntilStable act left done c s)
  | 0, done, c, s, _, hnone, hlimit => by
    have hne : o.maxRounds ≠ 0 := fun h => absurd (hnone h) (by simp)
    have hdone := hlimit hne
    refine ⟨[], .stableLimit ?_⟩
    simp only [Options.canRepeat, Bool.or_eq_false_iff, decide_eq_false_iff_not,
      beq_eq_false_iff_ne]
    omega
  | left + 1, done, c, s, hs, hnone, hlimit => by
    have hagain : o.canRepeat done = true := by
      simp only [Options.canRepeat, Bool.or_eq_true, decide_eq_true_eq, beq_iff_eq]
      by_cases hzero : o.maxRounds = 0
      · exact Or.inr hzero
      · have := hlimit hzero
        omega
    obtain ⟨tr, h⟩ := hact s hs
    rw [runUntilStable]
    cases hr : act s with
    | error e => exact ⟨tr, .stableStop hagain (hr ▸ h)⟩
    | ok r =>
      obtain ⟨c', s'⟩ := r
      rw [hr] at h
      cases c' with
      | false => exact ⟨tr, .stableDone hagain h⟩
      | true =>
        -- the round has changed the function, so what is left is enough for a smaller one
        have hless := ((h.measure hs true s' rfl).2 rfl).resolve_left (by simp [Task.changed])
        obtain ⟨tr', h'⟩ := executes_runUntilStable left (done + 1) true s' (h.wellBuilt hs).2.1
          (fun hzero => by have := hnone hzero; omega)
          (fun hne => by have := hlimit hne; omega)
        exact ⟨tr ++ tr', .stableNext hagain h h'⟩

end Groups

mutual

/-- **A step over a well-built function has an execution.** The induction is on the nesting of
groups. -/
theorem executes_run (o : Options) : ∀ (t : Step) (s : RunState), s.func.WellBuilt →
    ∃ tr, Executes (runPass o.strict) o (.one t) s tr (run o t s)
  | .pass name p, s, _ => by
    rw [run]
    exact ⟨_, .pass name p s⟩
  | .verify, s, _ => by
    rw [run]
    exact ⟨_, .verify s⟩
  | .times n body, s, hs => by
    rw [run]
    obtain ⟨tr, h⟩ := executes_runTimes (executes_runAll o body false) n false s hs
    exact ⟨tr, .times h⟩
  | .fixpoint body, s, hs => by
    rw [run]
    obtain ⟨tr, h⟩ := executes_runUntilStable (executes_runAll o body false)
      (roundsFor o.maxRounds s.func) 0 false s hs
      (fun hzero => by rw [roundsFor, if_pos hzero]; omega)
      (fun hne => by rw [roundsFor, if_neg hne]; omega)
    exact ⟨tr, .fixpoint h⟩

/-- **Steps over a well-built function have an execution**, with the result that the bounded
functions give. -/
theorem executes_runAll (o : Options) : ∀ (ts : List Step) (c : Bool) (s : RunState),
    s.func.WellBuilt → ∃ tr, Executes (runPass o.strict) o (.all ts c) s tr (runAll o ts c s)
  | [], c, s, _ => by
    rw [runAll]
    exact ⟨[], .allDone c s⟩
  | t :: ts, c, s, hs => by
    obtain ⟨tr, h⟩ := executes_run o t s hs
    rw [runAll]
    cases hr : run o t s with
    | error e => exact ⟨tr, .allStop (hr ▸ h)⟩
    | ok r =>
      obtain ⟨c', s'⟩ := r
      rw [hr] at h
      obtain ⟨tr', h'⟩ := executes_runAll o ts (c || c') s' (h.wellBuilt hs).2.1
      exact ⟨tr ++ tr', .allNext h h'⟩

end

end Passes

end Step

/-! ### Managers -/

namespace Manager

/-- The state in which a manager starts over a function. -/
def startOn (m : Manager) (fn : Func) : RunState := { func := fn, cache := m.cache }

/-- What a manager makes of a function is in the state that the steps end in. -/
theorem runFunc_eq (m : Manager) (fn : Func) : m.runFunc fn =
    { funcs := (Step.endState (Step.runAll m.options m.steps false (m.startOn fn))).func
      manager := { m with
        cache := (Step.endState (Step.runAll m.options m.steps false (m.startOn fn))).cache }
      counters := (Step.endState (Step.runAll m.options m.steps false (m.startOn fn))).counters
      journal := (Step.endState (Step.runAll m.options m.steps false (m.startOn fn))).journal
      outcome := Step.verdict (Step.runAll m.options m.steps false (m.startOn fn)) } := by
  rw [runFunc, startOn]
  cases Step.runAll m.options m.steps false { func := fn, cache := m.cache } with
  | error e => rfl
  | ok r => rfl

end Manager

end BranchFusion
