import BranchFusion.Proofs.Pass.Levels
import BranchFusion.Proofs.Pipeline.Composition
import BranchFusion.Proofs.Pipeline.Rounds

/-!
# Leaving off saves rounds and nothing else

Under a limit of `n` rounds, a body can be run in three ways that come to the same: until nothing
changes, `n` times, or written down `n` times in the text of the pipeline
(`BranchFusion.Manager.leaving_off_makes_no_difference`). The texts are read as the group and the
steps they stand for, the steps come to the same end
(`BranchFusion.Step.groups_alike`), and a verifier behind them finds the same function. The options
of the three managers differ in nothing but the pipeline, which no step looks at.
-/

namespace BranchFusion

namespace Step

variable {o o' : Options}

mutual

theorem run_congr (hstrict : o'.strict = o.strict) (hrounds : o'.maxRounds = o.maxRounds) :
    ∀ t : Step, run o' t = run o t
  | .pass name p => by rw [run, run, hstrict]
  | .verify => by rw [run, run]
  | .times n body => by rw [run, run, runAll_congr hstrict hrounds body]
  | .fixpoint body => by rw [run, run, runAll_congr hstrict hrounds body, hrounds]

/-- **Steps look at two of the options**: whether to be strict, and the limit on rounds. -/
theorem runAll_congr (hstrict : o'.strict = o.strict) (hrounds : o'.maxRounds = o.maxRounds) :
    ∀ (ts : List Step) (c : Bool), runAll o' ts c = runAll o ts c
  | [], c => by
    funext s
    rw [runAll, runAll]
  | t :: ts, c => by
    funext s
    rw [runAll, runAll, run_congr hstrict hrounds t]
    cases run o t s with
    | error e => rfl
    | ok r => exact congrFun (runAll_congr hstrict hrounds ts (c || r.1)) r.2

end

/-- **Three pipelines that come to the same end**, whatever steps follow. -/
theorem pipelines_alike {reg : Registry} {s : RunState} {n : Nat} (hlimit : o.maxRounds = n)
    (hn : 1 ≤ n) (nodes : List Pipeline.Node) (us : List Step) (hs : Sound s) :
    Alike (runAll o ([.fixpoint nodes].map (ofNode reg) ++ us) false s)
        (runAll o ([.times n nodes].map (ofNode reg) ++ us) false s) ∧
      Alike (runAll o ([.fixpoint nodes].map (ofNode reg) ++ us) false s)
        (runAll o ((List.replicate n nodes).flatten.map (ofNode reg) ++ us) false s) := by
  obtain ⟨hstable, htimes⟩ := groups_alike hlimit hn (nodes.map (ofNode reg)) hs
  rw [List.map_flatten, List.map_replicate, List.map_singleton, List.map_singleton, ofNode, ofNode,
    ofNodes_eq_map]
  exact ⟨hstable.append us, Alike.append (htimes ▸ hstable) us⟩

end Step

namespace Manager

variable {reg : Registry} {o : Options} {text body : Text.Bytes} {nodes : List Pipeline.Node}

/-- What a manager makes of a function for the text of a pipeline, said with its steps. -/
theorem exists_runFunc (h : Pipeline.parse reg text = .ok nodes) (o : Options) (fn : Func) :
    ∃ m, Manager.create reg { o with pipeline := text } = .ok m ∧
      (m.runFunc fn).funcs = (Step.endState (Step.runAll o
        (nodes.map (Step.ofNode reg) ++ lastSteps reg o) false { func := fn })).func ∧
      (m.runFunc fn).outcome = Step.verdict (Step.runAll o
        (nodes.map (Step.ofNode reg) ++ lastSteps reg o) false { func := fn }) := by
  obtain ⟨m, hm, hoptions, hcache, hsteps⟩ := exists_create (o := { o with pipeline := text }) h
  have hrun : Step.runAll m.options m.steps false (m.startOn fn) = Step.runAll o
      (nodes.map (Step.ofNode reg) ++ lastSteps reg o) false { func := fn } := by
    rw [hsteps, startOn, hcache, Step.runAll_congr (o := o) (by rw [hoptions]) (by rw [hoptions])]
    rfl
  refine ⟨m, hm, ?_⟩
  rw [m.runFunc_eq, hrun]
  exact ⟨rfl, rfl⟩

/-- **To leave off early makes no difference.** Let a text be read as a pipeline, with groups in it
or without, and let `n` be a limit on the rounds, from one to the greatest number that can be
written as a count. Then managers can be created, with all other options alike, for the text as the
body of a group that runs until nothing changes, as the body of a group that runs `n` times, and
written down `n` times. All of them make the same of a function that was read and report the same
change, or they fail in the same way, with the function in the same state. -/
theorem leaving_off_makes_no_difference {src : String} {serial : Nat} {mod : Module} {fn : Func}
    (hread : Module.parse src serial = .ok mod) (hfn : fn ∈ mod.funcs)
    (hbody : Pipeline.parse reg body = .ok nodes) {n : Nat} (hn : 1 ≤ n) (hmax : n ≤ 2 ^ 63 - 1)
    (o : Options) :
    ∃ stable times copies,
      Manager.create reg { o with pipeline := Pipeline.fixpointText body, maxRounds := n } =
        .ok stable ∧
      Manager.create reg { o with pipeline := Pipeline.timesText n body, maxRounds := n } =
        .ok times ∧
      Manager.create reg { o with pipeline := Pipeline.copiesText n body, maxRounds := n } =
        .ok copies ∧
      (times.runFunc fn).funcs = (stable.runFunc fn).funcs ∧
      (times.runFunc fn).outcome = (stable.runFunc fn).outcome ∧
      (copies.runFunc fn).funcs = (stable.runFunc fn).funcs ∧
      (copies.runFunc fn).outcome = (stable.runFunc fn).outcome := by
  let limited : Options := { o with maxRounds := n }
  have hsound : Step.Sound { func := fn } :=
    ⟨Source.wellBuilt_of_parse hread fn hfn, AnalysisCache.coherent_empty fn⟩
  obtain ⟨htimes, hcopies⟩ := Step.pipelines_alike (o := limited) rfl hn nodes
    (lastSteps reg limited) hsound
  obtain ⟨k, rfl⟩ : ∃ k, n = k + 1 := ⟨n - 1, by omega⟩
  obtain ⟨m₁, hm₁, hfunc₁, hout₁⟩ := exists_runFunc (Pipeline.parse_fixpointText hbody) limited fn
  obtain ⟨m₂, hm₂, hfunc₂, hout₂⟩ :=
    exists_runFunc (Pipeline.parse_timesText hbody hn hmax) limited fn
  obtain ⟨m₃, hm₃, hfunc₃, hout₃⟩ := exists_runFunc (Pipeline.parse_copiesText hbody k) limited fn
  refine ⟨m₁, m₂, m₃, hm₁, hm₂, hm₃, ?_⟩
  rw [hfunc₁, hout₁, hfunc₂, hout₂, hfunc₃, hout₃]
  exact ⟨htimes.same_end.1, htimes.same_end.2, hcopies.same_end⟩

/-- A body with a group in it, and gaps at its ends. -/
def foldAndCleanText : Text.Bytes := " nested-if-combine, fixpoint(block-merge,tdce)\n"

/-- A limit of four rounds, and the verifier at the end. -/
def fourRounds : Options := { maxRounds := 4, verify := true }

/-- Over a nest of branches the second of four rounds changes nothing any more. To leave off after
it makes the journal shorter, and the function and the report are what they are after four. -/
theorem staircase_leaves_off :
    ∃ stable copies : Manager,
      Manager.create .builtin
        { fourRounds with pipeline := Pipeline.fixpointText foldAndCleanText } = .ok stable ∧
      Manager.create .builtin
        { fourRounds with pipeline := Pipeline.copiesText 4 foldAndCleanText } = .ok copies ∧
      (stable.runFunc NestedIf.staircase).journal.size = 8 ∧
      (copies.runFunc NestedIf.staircase).journal.size = 14 ∧
      (copies.runFunc NestedIf.staircase).funcs = (stable.runFunc NestedIf.staircase).funcs ∧
      (copies.runFunc NestedIf.staircase).outcome =
        (stable.runFunc NestedIf.staircase).outcome := by
  have hbody : Pipeline.parse .builtin foldAndCleanText = .ok
      [.pass "nested-if-combine", .fixpoint [.pass "block-merge", .pass "tdce"]] := rfl
  obtain ⟨stable, times, copies, hstable, -, hcopies, -, -, hfuncs, houtcome⟩ :=
    leaving_off_makes_no_difference NestedIf.parse_staircaseText
      (List.mem_singleton_self NestedIf.staircase) hbody (n := 4) (by decide) (by decide) fourRounds
  have hsizes :
      (Manager.create .builtin
        { fourRounds with pipeline := Pipeline.fixpointText foldAndCleanText }).toOption.map
          (fun m => (m.runFunc NestedIf.staircase).journal.size) = some 8 ∧
        (Manager.create .builtin
          { fourRounds with pipeline := Pipeline.copiesText 4 foldAndCleanText }).toOption.map
          (fun m => (m.runFunc NestedIf.staircase).journal.size) = some 14 := by
    decide +kernel
  change Manager.create .builtin { fourRounds with pipeline := _ } = _ at hstable hcopies
  rw [hstable, hcopies] at hsizes
  exact ⟨stable, copies, hstable, hcopies, Option.some.inj hsizes.1, Option.some.inj hsizes.2,
    hfuncs, houtcome⟩

end Manager

end BranchFusion
