import BranchFusion.Proofs.Pipeline.Renaming
import BranchFusion.Proofs.Source.PairOrder

/-!
# Optimisation does not depend on the order of pairs

In which order the pairs of a phi or of a switch are written makes no difference to what an
optimisation does: not to whether the text is accepted, and not to the new text, the report of a
change, the counters, the journal or the failure
(`BranchFusion.Optimizer.optimize_ignores_pair_order`).

The functions that are read from the two texts need not be equal, since their values may be numbered
in another way; but they are twins, and a run over functions can be followed over their twins.
-/

namespace BranchFusion

namespace Optimizer

/-- **The same outcome** of two optimisations of texts that were read: the same text, report of a
change and counters, or the same error in the pipeline, or a failure in the same function with the
same messages. -/
inductive SameOutcome : Except OptimizeError (String × Bool × Counters) →
    Except OptimizeError (String × Bool × Counters) → Prop
  | ok (text : String) (changed : Bool) (counters : Counters) :
    SameOutcome (.ok (text, changed, counters)) (.ok (text, changed, counters))
  | pipeline (e : Pipeline.Error) : SameOutcome (.error (.pipeline e)) (.error (.pipeline e))
  | run {f f' : RunFailure} (h : f.Same f') : SameOutcome (.error (.run f)) (.error (.run f'))

variable {src src' : String} {m m' : Module}

theorem text_of_similar {fns fns' : List Func} (h : List.Forall₂ Func.Similar fns fns') :
    Module.text ⟨fns'⟩ = Module.text ⟨fns⟩ := by
  have htexts : fns'.map Func.text = fns.map Func.text := by
    induction h with
    | nil => rfl
    | cons hfn _ ih => rw [List.map_cons, List.map_cons, hfn.text_eq, ih]
  rw [Module.text, Module.text, htexts]

/-- **Modules of twins** are optimised with the same outcome, and the same journal. -/
theorem optimizeModule_similar {serial serial' : Nat} (hread : Module.parse src serial = .ok m)
    (hread' : Module.parse src' serial' = .ok m')
    (hsimilar : List.Forall₂ Func.Similar m.funcs m'.funcs) (reg : Registry) (o : Options) :
    let r := optimizeModule reg o m
    let r' := optimizeModule reg o m'
    r'.journal = r.journal ∧
      SameOutcome (r.outcome.map fun c => (r.module.text, c, r.counters))
        (r'.outcome.map fun c => (r'.module.text, c, r'.counters)) := by
  intro r r'
  cases hcreate : Manager.create reg o with
  | error e =>
    have hr : r = { module := m, outcome := .error (.pipeline e) } := by
      simp only [r, optimizeModule, hcreate]
    have hr' : r' = { module := m', outcome := .error (.pipeline e) } := by
      simp only [r', optimizeModule, hcreate]
    rw [hr, hr']
    exact ⟨rfl, .pipeline e⟩
  | ok mgr =>
    have hfresh := Manager.cache_of_create hcreate
    have hreport := Manager.runFuncs_similar (Manager.trusted_of_parse hread hfresh)
      (Manager.trusted_of_parse hread' hfresh) rfl rfl hsimilar false
    simp only [r, r', optimizeModule, hcreate]
    obtain ⟨hfuncs, hcounters, hjournal, houtcome⟩ := hreport
    refine ⟨hjournal, ?_⟩
    simp only [Manager.Result.report] at hfuncs hcounters houtcome
    rw [text_of_similar hfuncs, hcounters]
    generalize (mgr.runFuncs false m.funcs).outcome = x at houtcome
    generalize (mgr.runFuncs false m'.funcs).outcome = x' at houtcome
    cases houtcome with
    | ok c => exact .ok _ c _
    | error h => exact .run h

/-- **Optimisation does not depend on the order of pairs.** Of two texts that differ in the order of
the pairs in phis and switches, either both can be read or none; and if they can, then with every
pipeline and all options they are optimised with the same outcome, and the same journal. -/
theorem optimize_ignores_pair_order (h : Source.Reordered src src') :
    (∀ serial, (∃ m, Module.parse src serial = .ok m) ↔ ∃ m, Module.parse src' serial = .ok m) ∧
      ((∃ m, Module.parse src = .ok m) → ∀ reg o,
        (optimize reg o src').journal = (optimize reg o src).journal ∧
          SameOutcome (optimize reg o src).outcome (optimize reg o src').outcome) := by
  refine ⟨fun serial => ⟨?_, ?_⟩, ?_⟩
  · rintro ⟨m, hread⟩
    exact (Module.parse_reordered h hread).imp fun _ hm => hm.1
  · rintro ⟨m, hread⟩
    exact (Module.parse_reordered h.symm hread).imp fun _ hm => hm.1
  · rintro ⟨m, hread⟩ reg o
    obtain ⟨m', hread', hsimilar⟩ := Module.parse_reordered h hread
    simp only [optimize, hread, hread']
    exact optimizeModule_similar hread hread' hsimilar reg o

/-! ### A program with values in another order -/

/-- A program with a switch and a phi, and their pairs in any order. The values in the phi are
mentioned there first. -/
def crossroads (cases inputs : String) : String :=
  "func @f(%a) \x7b\n" ++
  "entry:\n  switch %a, x, " ++ cases ++ "\n" ++
  "join:\n  %r = phi " ++ inputs ++ "\n  ret %r\n" ++
  "x:\n  %u = const 1\n  jmp join\n" ++
  "y:\n  %v = const 2\n  jmp join\n\x7d\n"

/-- Its lines, -/
def crossroadsLines (cases inputs : String) : List Source.Line :=
  [⟨1, "func @f(%a) \x7b"⟩, ⟨2, "entry:"⟩, ⟨3, "switch %a, x, " ++ cases⟩, ⟨4, "join:"⟩,
    ⟨5, "%r = phi " ++ inputs⟩, ⟨6, "ret %r"⟩, ⟨7, "x:"⟩, ⟨8, "%u = const 1"⟩, ⟨9, "jmp join"⟩,
    ⟨10, "y:"⟩, ⟨11, "%v = const 2"⟩, ⟨12, "jmp join"⟩, ⟨13, "\x7d"⟩]

/-- and its function, for the values in the phi, and with these in the order of their numbers. -/
def crossroadsFunc (u v : Value) (late : Array Value) : Func where
  serial := 0
  name := "f"
  root := some ⟨0, 0⟩
  params := [⟨0, 0, "a"⟩]
  values := #[⟨0, 0, "a"⟩, ⟨0, 1, "r"⟩] ++ late
  blocks := #[
    { label := "entry", term := some (.switch ⟨0, 0, "a"⟩ ⟨0, 2⟩ [(1, ⟨0, 2⟩), (2, ⟨0, 3⟩)]) },
    { label := "join"
      preds := [⟨0, 2⟩, ⟨0, 3⟩]
      phis := [⟨⟨0, 1, "r"⟩, [(⟨0, 2⟩, some u), (⟨0, 3⟩, some v)]⟩]
      term := some (.ret [⟨0, 1, "r"⟩]) },
    { label := "x"
      preds := [⟨0, 0⟩, ⟨0, 0⟩]
      instrs := [.const u 1]
      term := some (.jump ⟨0, 1⟩) },
    { label := "y"
      preds := [⟨0, 0⟩]
      instrs := [.const v 2]
      term := some (.jump ⟨0, 1⟩) }]

/-- The program in one order, -/
def straightText : String := crossroads "[1, x], [2, y]" "[%u, x], [%v, y]"

/-- and in the other. -/
def swappedText : String := crossroads "[2, y], [1, x]" "[%v, y], [%u, x]"

theorem readLines_straightText : Source.readLines straightText =
    crossroadsLines "[1, x], [2, y]" "[%u, x], [%v, y]" := by
  decide +kernel

theorem readLines_swappedText : Source.readLines swappedText =
    crossroadsLines "[2, y], [1, x]" "[%v, y], [%u, x]" := by
  decide +kernel

theorem parse_straightText : Module.parse straightText =
    .ok ⟨[crossroadsFunc ⟨0, 2, "u"⟩ ⟨0, 3, "v"⟩ #[⟨0, 2, "u"⟩, ⟨0, 3, "v"⟩]]⟩ := by
  rw [Module.parse, readLines_straightText]
  decide +kernel

theorem parse_swappedText : Module.parse swappedText =
    .ok ⟨[crossroadsFunc ⟨0, 3, "u"⟩ ⟨0, 2, "v"⟩ #[⟨0, 2, "v"⟩, ⟨0, 3, "u"⟩]]⟩ := by
  rw [Module.parse, readLines_swappedText]
  decide +kernel

theorem reordered_swappedText : Source.Reordered straightText swappedText := by
  have hswitch : Source.PairsMoved (Source.words ("switch %a, x, " ++ "[1, x], [2, y]"))
      (Source.words ("switch %a, x, " ++ "[2, y], [1, x]")) := by
    have hwords : Source.words ("switch %a, x, " ++ "[1, x], [2, y]") =
        ["switch", "%a", "x", "1", "x", "2", "y"] := by decide +kernel
    have hwords' : Source.words ("switch %a, x, " ++ "[2, y], [1, x]") =
        ["switch", "%a", "x", "2", "y", "1", "x"] := by decide +kernel
    rw [hwords, hwords']
    exact .switch (.swap ("2", "y") ("1", "x") []) none
  have hphi : Source.PairsMoved (Source.words ("%r = phi " ++ "[%u, x], [%v, y]"))
      (Source.words ("%r = phi " ++ "[%v, y], [%u, x]")) := by
    have hwords : Source.words ("%r = phi " ++ "[%u, x], [%v, y]") =
        ["%r", "=", "phi", "%u", "x", "%v", "y"] := by decide +kernel
    have hwords' : Source.words ("%r = phi " ++ "[%v, y], [%u, x]") =
        ["%r", "=", "phi", "%v", "y", "%u", "x"] := by decide +kernel
    rw [hwords, hwords']
    exact .phi (by decide) (.swap ("%v", "y") ("%u", "x") []) none
  rw [Source.Reordered, readLines_straightText, readLines_swappedText]
  refine .cons (.inl rfl) <| .cons (.inl rfl) <| .cons (.inr hswitch) <| .cons (.inl rfl) <|
    .cons (.inr hphi) ?_
  exact List.forall₂_same.mpr fun _ _ => .inl rfl

/-- The two orders number the values in different ways, so the modules that are read differ; but
they are optimised with the same outcome. -/
theorem swappedText_same_outcome : Module.parse straightText ≠ Module.parse swappedText ∧
    ∀ reg o, SameOutcome (optimize reg o straightText).outcome
      (optimize reg o swappedText).outcome := by
  refine ⟨?_, fun reg o => ?_⟩
  · rw [parse_straightText, parse_swappedText]
    decide
  · exact ((optimize_ignores_pair_order reordered_swappedText).2
      ⟨_, parse_straightText⟩ reg o).2

end Optimizer

end BranchFusion
