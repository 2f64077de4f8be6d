import BranchFusion.Environment
import BranchFusion.Proofs.Pipeline.Execution
import BranchFusion.Proofs.Pipeline.Registration

/-!
# The options of a run

The options of a run have a history. They start as the defaults that are built in; calls change the
defaults, one after the other, and settings that a caller gives override them
(`BranchFusion.Options.effective`). On all of these ways a pipeline is checked before it is taken,
so the pipeline of a run can always be read (`BranchFusion.Options.Readable`). Numbers of rounds are
checked when they are given as settings, and are not when they are set as a default: the last number
on the way counts, and it is negative just when it is a negative default that no setting overrides.

This decides about groups that run until nothing changes. If the number is not negative, such a
group starts with a round of its body, whatever it is run on (`BranchFusion.Step.Starts`); if it is
negative, the group is given up before its first round (`BranchFusion.Step.Skipped`).
-/

namespace BranchFusion

/-! ### Folds that may fail -/

section Fold

variable {α β γ ε : Type} {f : β → α → Except ε β}

/-- What every step keeps is kept. -/
theorem foldlM_induction {P : β → Prop} (hstep : ∀ b a b', P b → f b a = .ok b' → P b') :
    ∀ {l : List α} {b b' : β}, P b → l.foldlM f b = .ok b' → P b'
  | [], b, b', hb, h => by
    obtain rfl := Except.ok.inj h
    exact hb
  | a :: l, b, b', hb, h => by
    rw [List.foldlM_cons] at h
    obtain ⟨b₁, hfirst, h⟩ := ok_of_bind h
    exact foldlM_induction hstep (hstep b a b₁ hb hfirst) h

/-- If every step sets what it is given, then the last that is given counts. -/
theorem foldlM_last (get : β → γ) {given : α → Option γ}
    (hstep : ∀ b a b', f b a = .ok b' → get b' = (given a).getD (get b)) :
    ∀ {l : List α} {b b' : β}, l.foldlM f b = .ok b' →
      get b' = (l.filterMap given).getLast?.getD (get b)
  | [], b, b', h => by
    obtain rfl := Except.ok.inj h
    rfl
  | a :: l, b, b', h => by
    rw [List.foldlM_cons] at h
    obtain ⟨b₁, hfirst, h⟩ := ok_of_bind h
    rw [foldlM_last get hstep h, hstep b a b₁ hfirst]
    cases hgiven : given a with
    | none => rw [List.filterMap_cons_none hgiven, Option.getD_none]
    | some c => rw [List.filterMap_cons_some hgiven, List.getLast?_cons, Option.getD_some,
        Option.getD_some]

end Fold

/-! ### Histories -/

/-- **A call that changes a default.** -/
inductive DefaultsCall
  | maxRounds (rounds : Int)
  | strict (strict : Bool)
  | pipeline (text : Text.Bytes)

namespace DefaultsCall

/-- The defaults after a call. -/
def run (reg : Registry) (o : Options) : DefaultsCall → Except SettingError Options
  | .maxRounds n => .ok (o.setMaxRounds n)
  | .strict b => .ok (o.setStrict b)
  | .pipeline p => o.setPipeline reg p

/-- The number of rounds that a call sets. -/
def rounds? : DefaultsCall → Option Int
  | .maxRounds n => some n
  | _ => none

end DefaultsCall

namespace Options

/-- **The options of a run**: the built-in defaults after some calls, overridden by settings in
order. -/
def effective (reg : Registry) (calls : List DefaultsCall) (given : List Settings) :
    Except SettingError Options := do
  let defaults ← calls.foldlM (DefaultsCall.run reg) {}
  given.foldlM (Settings.options reg) defaults

/-- Without variables in the environment the defaults are those that are built in. -/
example : Environment.options (fun _ => none) = .ok {} := rfl

/-- Options whose pipeline can be read. -/
def Readable (reg : Registry) (o : Options) : Prop :=
  ∃ nodes, Pipeline.parse reg o.pipeline = .ok nodes

variable {reg : Registry} {o o' : Options} {calls : List DefaultsCall} {given : List Settings}

theorem readable_of_checkPipeline {p : Text.Bytes} {u : Unit}
    (h : Settings.checkPipeline reg p = .ok u) (hp : o.pipeline = p) : o.Readable reg := by
  subst hp
  rw [Settings.checkPipeline] at h
  split at h
  · next nodes hparse => exact ⟨nodes, hparse⟩
  · exact absurd h (by simp)

/-- A call leaves the pipeline alone, or checks it. -/
theorem Readable.run (ho : o.Readable reg) {call : DefaultsCall} (h : call.run reg o = .ok o') :
    o'.Readable reg := by
  cases call with
  | maxRounds n =>
    obtain rfl := Except.ok.inj h
    exact ho
  | strict b =>
    obtain rfl := Except.ok.inj h
    exact ho
  | pipeline p =>
    obtain ⟨u, hcheck, hset⟩ := ok_of_bind h
    obtain rfl := Except.ok.inj hset
    exact readable_of_checkPipeline hcheck rfl

/-- Settings that are not refused: their pipeline, if any, can be read, and their number of rounds,
if any, is not negative. -/
theorem check_eq_ok {s : Settings} {u : Unit} (h : s.check reg = .ok u) :
    (∀ p ∈ s.pipeline, Settings.checkPipeline reg p = .ok ()) ∧ ∀ n ∈ s.maxRounds, 0 ≤ n := by
  obtain ⟨p, b, n, v⟩ := s
  have hrounds : ∀ {m : Int}, (if m < 0 then throw (.invalidMaxRounds m) else pure ()) =
      (.ok u : Except SettingError Unit) → 0 ≤ m := by
    intro m hm
    by_contra hneg
    rw [if_pos (not_le.mp hneg)] at hm
    exact absurd hm (by simp [throw, throwThe, MonadExceptOf.throw])
  have hrest : ∀ m ∈ n, 0 ≤ m := by
    rintro m rfl
    cases p with
    | none => exact hrounds h
    | some p =>
      obtain ⟨u', -, h⟩ := ok_of_bind h
      exact hrounds h
  refine ⟨?_, hrest⟩
  rintro p rfl
  obtain ⟨u', hpipeline, -⟩ := ok_of_bind h
  exact hpipeline

/-- When settings override options. -/
theorem options_eq_ok {s : Settings} (h : s.options reg o = .ok o') :
    (∀ p ∈ s.pipeline, Settings.checkPipeline reg p = .ok ()) ∧ (∀ n ∈ s.maxRounds, 0 ≤ n) ∧
      o' = s.apply o := by
  obtain ⟨u, hcheck, hset⟩ := ok_of_bind h
  obtain ⟨hpipeline, hrounds⟩ := check_eq_ok hcheck
  exact ⟨hpipeline, hrounds, (Except.ok.inj hset).symm⟩

theorem Readable.override (ho : o.Readable reg) {s : Settings} (h : s.options reg o = .ok o') :
    o'.Readable reg := by
  obtain ⟨hpipeline, -, rfl⟩ := options_eq_ok h
  cases hp : s.pipeline with
  | none =>
    have hsame : (s.apply o).pipeline = o.pipeline := by rw [Settings.apply, hp, Option.getD_none]
    rwa [Readable, hsame]
  | some p =>
    exact readable_of_checkPipeline (hpipeline p hp) (by rw [Settings.apply, hp, Option.getD_some])

/-- Whatever is registered besides, the built-in pipeline can be read. -/
theorem readable_default (passes : List (String × Pass)) :
    Readable (Registry.builtin.afterCalls passes) {} := by
  have hfound : (Registry.builtin.afterCalls passes).find? "nested-if-combine" = some .nestedIf :=
    Registry.keeps_afterCalls _ passes _ _ (by decide +kernel)
  exact ⟨_, (Registry.denotes_of_isPassName (by decide +kernel)
    ⟨.inl ⟨_, hfound⟩, by decide, by decide⟩).parse⟩

/-- The pipeline of a run can be read if that of the defaults can. -/
theorem readable_effective (hdefault : Readable reg {}) (h : effective reg calls given = .ok o) :
    o.Readable reg := by
  obtain ⟨defaults, hcalls, hgiven⟩ := ok_of_bind h
  have hdefaults : defaults.Readable reg :=
    foldlM_induction (fun _ _ _ ho hrun => ho.run hrun) hdefault hcalls
  exact foldlM_induction (fun _ _ _ ho hoptions => ho.override hoptions) hdefaults hgiven

/-- **The last number of rounds counts.** -/
theorem maxRounds_effective (h : effective reg calls given = .ok o) :
    o.maxRounds = ((calls.filterMap DefaultsCall.rounds? ++
      given.filterMap Settings.maxRounds).getLast?).getD 16 := by
  obtain ⟨defaults, hcalls, hgiven⟩ := ok_of_bind h
  have hdefaults : defaults.maxRounds = (calls.filterMap DefaultsCall.rounds?).getLast?.getD 16 := by
    refine foldlM_last Options.maxRounds (fun o call o' hrun => ?_) hcalls
    cases call with
    | maxRounds n =>
      obtain rfl := Except.ok.inj hrun
      rfl
    | strict b =>
      obtain rfl := Except.ok.inj hrun
      rfl
    | pipeline p =>
      obtain ⟨u, -, hset⟩ := ok_of_bind hrun
      obtain rfl := Except.ok.inj hset
      rfl
  have hlast : o.maxRounds =
      (given.filterMap Settings.maxRounds).getLast?.getD defaults.maxRounds := by
    refine foldlM_last Options.maxRounds (fun o s o' hoptions => ?_) hgiven
    obtain ⟨-, -, rfl⟩ := options_eq_ok hoptions
    rfl
  rw [hlast, hdefaults, List.getLast?_append]
  cases (given.filterMap Settings.maxRounds).getLast? <;> rfl

/-- Numbers of rounds that are given as settings are not negative. -/
theorem nonneg_of_given (h : effective reg calls given = .ok o) :
    ∀ n ∈ given.filterMap Settings.maxRounds, 0 ≤ n := by
  obtain ⟨defaults, -, hgiven⟩ := ok_of_bind h
  clear h
  induction given generalizing defaults with
  | nil => simp
  | cons s given ih =>
    rw [List.foldlM_cons] at hgiven
    obtain ⟨o₁, hfirst, hrest⟩ := ok_of_bind hgiven
    obtain ⟨-, hnonneg, -⟩ := options_eq_ok hfirst
    intro n hn
    rw [List.mem_filterMap] at hn
    obtain ⟨s', hs', hn⟩ := hn
    rcases List.mem_cons.mp hs' with rfl | hs'
    · exact hnonneg n hn
    · exact ih o₁ hrest n (List.mem_filterMap.mpr ⟨s', hs', hn⟩)

/-- When the number of rounds of a run is not negative. -/
theorem maxRounds_nonneg_iff (h : effective reg calls given = .ok o) :
    0 ≤ o.maxRounds ↔ given.filterMap Settings.maxRounds ≠ [] ∨
      ∀ n ∈ (calls.filterMap DefaultsCall.rounds?).getLast?, 0 ≤ n := by
  rw [maxRounds_effective h]
  by_cases hgiven : given.filterMap Settings.maxRounds = []
  · rw [hgiven, List.append_nil]
    cases (calls.filterMap DefaultsCall.rounds?).getLast? <;> simp
  · refine iff_of_true ?_ (.inl hgiven)
    rw [List.getLast?_append_of_ne_nil _ hgiven, List.getLast?_eq_some_getLast hgiven]
    exact nonneg_of_given h _ (List.getLast_mem hgiven)

end Options

/-! ### Groups that run until nothing changes -/

namespace Step

variable {o : Options}

/-- **A group starts with its body**: it first runs the body as it stands; if this changes
something, further rounds follow, and otherwise the group has come to its end. -/
def Starts (o : Options) (body : List Step) (s : RunState) : Prop :=
  ∃ left, run o (.fixpoint body) s = (runAll o body false s).bind fun r =>
    if r.1 then runUntilStable (fun s => runAll o body false s) left 1 true r.2 else .ok r

/-- **A group is skipped**: it is given up before its first round, and reports no change. -/
def Skipped (o : Options) (body : List Step) (s : RunState) : Prop :=
  run o (.fixpoint body) s = .ok (false, giveUp s 0)

theorem starts_of_nonneg (h : 0 ≤ o.maxRounds) (body : List Step) (s : RunState) :
    Starts o body s := by
  have hrounds : ∃ left, roundsFor o.maxRounds s.func = left + 1 := by
    rw [roundsFor]
    split
    · exact ⟨_, rfl⟩
    · exact ⟨o.maxRounds.toNat - 1, by omega⟩
  obtain ⟨left, hleft⟩ := hrounds
  refine ⟨left, ?_⟩
  rw [run]
  dsimp only
  rw [hleft, runUntilStable]
  cases hround : runAll o body false s with
  | error e => rfl
  | ok r =>
    obtain ⟨c, s'⟩ := r
    cases c <;> rfl

theorem skipped_of_neg (h : o.maxRounds < 0) (body : List Step) (s : RunState) :
    Skipped o body s := by
  have hrounds : roundsFor o.maxRounds s.func = 0 := by
    rw [roundsFor, if_neg h.ne]
    exact Int.toNat_of_nonpos h.le
  rw [Skipped, run]
  dsimp only
  rw [hrounds, runUntilStable, giveUp]

end Step

/-- **What the options of a run can be relied on for.** After whatever calls have changed the
defaults, and whatever settings override them, if none of them was refused: the pipeline can be
read, so there is a manager for it. The last number of rounds that was set or given counts, and it
is not negative just when some setting gives one or the last default that was set is not negative.
If it is not negative, every group that runs until nothing changes starts with its body, on every
function that it is run on; if it is negative, every such group is skipped. -/
theorem Options.effective_options_rely_on_defaults (passes : List (String × Pass))
    {calls : List DefaultsCall} {given : List Settings} {o : Options}
    (h : effective (Registry.builtin.afterCalls passes) calls given = .ok o) :
    (∃ nodes mgr, Pipeline.parse (Registry.builtin.afterCalls passes) o.pipeline = .ok nodes ∧
        Manager.create (Registry.builtin.afterCalls passes) o = .ok mgr ∧ mgr.options = o) ∧
      o.maxRounds = ((calls.filterMap DefaultsCall.rounds? ++
        given.filterMap Settings.maxRounds).getLast?).getD 16 ∧
      (0 ≤ o.maxRounds ↔ given.filterMap Settings.maxRounds ≠ [] ∨
        ∀ n ∈ (calls.filterMap DefaultsCall.rounds?).getLast?, 0 ≤ n) ∧
      (0 ≤ o.maxRounds → ∀ body s, Step.Starts o body s) ∧
      (o.maxRounds < 0 → ∀ body s, Step.Skipped o body s) := by
  obtain ⟨nodes, hparse⟩ := readable_effective (readable_default passes) h
  obtain ⟨mgr, hmgr, hoptions, -, -⟩ := Manager.exists_create hparse
  exact ⟨⟨nodes, mgr, hparse, hmgr, hoptions⟩, maxRounds_effective h, maxRounds_nonneg_iff h,
    Step.starts_of_nonneg, Step.skipped_of_neg⟩

/-- Options of a run with a negative default that a setting overrides. -/
def overriddenOptions : Options :=
  { pipeline := "fixpoint(tdce)", strict := true, maxRounds := 2, verify := true }

/-- Its groups start with their bodies. -/
theorem overriddenOptions_starts :
    Options.effective Registry.builtin
        [.maxRounds (-1), .strict true, .pipeline "fixpoint(tdce)"]
        [{ maxRounds := some 2 }, { verify := some true }] = .ok overriddenOptions ∧
      (∃ mgr, Manager.create Registry.builtin overriddenOptions = .ok mgr) ∧
      ∀ body s, Step.Starts overriddenOptions body s := by
  have h : Options.effective (Registry.builtin.afterCalls [])
      [.maxRounds (-1), .strict true, .pipeline "fixpoint(tdce)"]
      [{ maxRounds := some 2 }, { verify := some true }] = .ok overriddenOptions := by
    decide +kernel
  obtain ⟨⟨nodes, mgr, -, hmgr, -⟩, -, -, hstarts, -⟩ :=
    Options.effective_options_rely_on_defaults [] h
  exact ⟨h, ⟨mgr, hmgr⟩, hstarts (by decide)⟩

/-- A function with an instruction that can be removed. -/
def idleConst : Func :=
  { serial := 0, name := "f", root := some ⟨0, 0⟩
    blocks := #[{ label := "a", instrs := [.const ⟨0, 0, "x"⟩ 1], term := some (.ret []) }]
    values := #[⟨0, 0, "x"⟩] }

/-- No call is refused that sets a negative number of rounds, and then a group does nothing, though
its body would remove an instruction. -/
theorem negative_rounds_skip_groups :
    Options.effective Registry.builtin [.maxRounds (-1)] [{ pipeline := some "fixpoint(tdce)" }] =
        .ok { pipeline := "fixpoint(tdce)", maxRounds := -1 } ∧
      (Step.run { maxRounds := -1 } (.fixpoint [.pass "tdce" .deadCode])
        { func := idleConst }).toOption.map (fun r => (r.1, r.2.func)) = some (false, idleConst) ∧
      (Step.runAll { maxRounds := -1 } [.pass "tdce" .deadCode] false
        { func := idleConst }).toOption.map (fun r => (r.1, r.2.func.measure)) = some (true, 2) ∧
      idleConst.measure = 3 :=
  ⟨by decide +kernel, by decide +kernel, by decide +kernel, by decide⟩

end BranchFusion
