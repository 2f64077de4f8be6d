import BranchFusion.Proofs.Pipeline.Composition
import BranchFusion.Proofs.Tables

/-!
# What registered names mean

A registry grows by calls that register passes, and every registry is made by such calls
(`BranchFusion.Registry.afterCalls`); a call that is refused leaves it as it was. Two facts are kept
by every call: registered names are made of the characters of names and are not the verifier's
(`BranchFusion.Registry.WellNamed`), and a name keeps the pass that it was registered for
(`BranchFusion.Registry.Keeps`).

Nearly every name that is in a registry can be used: its text is a pipeline of one part, and a
manager makes one step of it (`BranchFusion.Registry.Denotes`). The words of groups are the
exception. They can be registered like any other name, but the reader of pipelines always takes them
for groups, and misses the bracket that has to follow
(`BranchFusion.Registry.names_denote_passes_iff`).
-/

namespace BranchFusion

namespace Registry

variable {r r' : Registry} {name w : String} {p q : Pass}

/-! ### One call -/

theorem register_eq_ok_iff : r.register name p = .ok r' ↔
    r.knows name = false ∧ isName name ∧ r' = ⟨r.passes.set name p⟩ := by
  rw [register]
  split
  · next hknown => simp [hknown]
  · next hknown =>
    split
    · next hname => simp [hknown, hname, eq_comm]
    · next hname => simp [hname]

theorem find?_register (h : r.register name p = .ok r') :
    r'.find? w = if name = w then some p else r.find? w := by
  obtain ⟨-, -, rfl⟩ := register_eq_ok_iff.mp h
  exact Table.get?_set

theorem knows_eq_false_iff :
    r.knows name = false ↔ r.find? name = none ∧ name ≠ verifierName := by
  simp [knows]

/-- A registry has all passes of another one, under the same names. -/
def Keeps (r r' : Registry) : Prop := ∀ w p, r.find? w = some p → r'.find? w = some p

theorem Keeps.trans {r'' : Registry} (h : r.Keeps r') (h' : r'.Keeps r'') : r.Keeps r'' :=
  fun w p hp => h' w p (h w p hp)

/-- Whoever registers a pass takes no name away from another. -/
theorem keeps_register (h : r.register name p = .ok r') : r.Keeps r' := by
  intro w q hq
  obtain ⟨hknown, -, -⟩ := register_eq_ok_iff.mp h
  rw [find?_register h, if_neg]
  · exact hq
  · rintro rfl
    rw [(knows_eq_false_iff.mp hknown).1] at hq
    exact absurd hq (by simp)

/-- What stands in a registry are names, and the verifier's is not among them. -/
def WellNamed (r : Registry) : Prop :=
  ∀ w p, r.find? w = some p → isName w ∧ w ≠ verifierName

theorem WellNamed.register (hr : r.WellNamed) (h : r.register name p = .ok r') :
    r'.WellNamed := by
  intro w q hq
  obtain ⟨hknown, hname, -⟩ := register_eq_ok_iff.mp h
  rw [find?_register h] at hq
  split at hq
  · next heq =>
    subst heq
    exact ⟨hname, (knows_eq_false_iff.mp hknown).2⟩
  · exact hr w q hq

theorem WellNamed.find?_verifier (hr : r.WellNamed) : r.find? verifierName = none := by
  cases h : r.find? verifierName with
  | none => rfl
  | some p => exact absurd rfl (hr _ p h).2

/-! ### Many calls -/

/-- The registry before anything is registered. -/
def empty : Registry := ⟨[]⟩

/-- The registry after a call that registers a pass. A refusal leaves it as it was. -/
def afterCall (r : Registry) (call : String × Pass) : Registry :=
  match r.register call.1 call.2 with
  | .ok r' => r'
  | .error _ => r

/-- **The registry after calls that register passes**, one after the other. -/
def afterCalls (r : Registry) (calls : List (String × Pass)) : Registry := calls.foldl afterCall r

theorem afterCall_of_ok (h : r.register name p = .ok r') : r.afterCall (name, p) = r' := by
  rw [afterCall, h]

/-- What every call that succeeds keeps, all calls keep. -/
theorem afterCalls_induction {P : Registry → Prop}
    (hstep : ∀ r name p r', P r → r.register name p = .ok r' → P r') :
    ∀ (calls : List (String × Pass)) {r : Registry}, P r → P (r.afterCalls calls)
  | [], _, h => h
  | (name, p) :: calls, r, h => by
    refine afterCalls_induction hstep calls (r := r.afterCall (name, p)) ?_
    cases hcall : r.register name p with
    | ok r' =>
      rw [afterCall_of_ok hcall]
      exact hstep r name p r' h hcall
    | error e => simpa only [afterCall, hcall] using h

theorem keeps_afterCalls (r : Registry) (calls : List (String × Pass)) :
    r.Keeps (r.afterCalls calls) :=
  afterCalls_induction (fun _ _ _ _ h hcall => h.trans (keeps_register hcall)) calls
    fun _ _ h => h

theorem wellNamed_empty : empty.WellNamed :=
  fun _ _ h => absurd h (by simp [find?, empty, Table.get?])

theorem WellNamed.afterCalls (h : r.WellNamed) (calls : List (String × Pass)) :
    (r.afterCalls calls).WellNamed :=
  afterCalls_induction (fun _ _ _ _ h hcall => h.register hcall) calls h

/-- The registry at the start is made by calls, too. -/
theorem builtin_eq_afterCalls : builtin =
    empty.afterCalls [("nested-if-combine", .nestedIf), ("block-merge", .blockMerge),
      ("tdce", .deadCode)] := by
  decide +kernel

theorem wellNamed_builtin : builtin.WellNamed := by
  rw [builtin_eq_afterCalls]
  exact wellNamed_empty.afterCalls _

/-- The names of a registry are those of its passes and the verifier's. -/
theorem mem_names_iff : w ∈ r.names ↔ (∃ p, r.find? w = some p) ∨ w = verifierName := by
  rw [names, List.mem_mergeSort, List.mem_append, List.mem_singleton, ← Table.isSome_get?_iff,
    Option.isSome_iff_exists]
  rfl

/-! ### Names as pipelines -/

/-- **A name denotes a pass**: its text is a pipeline of this one part, and a manager makes the step
of it that the name stands for. -/
structure Denotes (r : Registry) (w : String) : Prop where
  parse : Pipeline.parse r w = .ok [.pass w]
  create : ∀ o : Options, o.pipeline = w → ∃ m, Manager.create r o = .ok m ∧
    m.steps = Step.ofNode r (.pass w) :: Manager.lastSteps r o

/-- The text of a name is a pipeline if it is not the word of a group. -/
theorem denotes_of_isPassName (hw : isName w) (h : Pipeline.IsPassName r w) : r.Denotes w := by
  have hspells := Pipeline.Spells.of_isName hw
  have hparse : Pipeline.parse r w = .ok [.pass w] := by
    refine Pipeline.parse_eq_ok_iff.mpr ⟨[.word w], ?_, .one (.pass h)⟩
    rwa [hspells.chars_ofString]
  refine ⟨hparse, fun o ho => ?_⟩
  obtain ⟨m, hm, -, -, hsteps⟩ := Manager.exists_create (o := o) (ho ▸ hparse)
  exact ⟨m, hm, hsteps⟩

/-- Behind the words of groups a bracket is missed, whatever the registry holds. -/
theorem parse_repeat (r : Registry) :
    Pipeline.parse r "repeat" = .error ⟨6, "repeat", .expected '<' none⟩ := by
  rfl

theorem parse_fixpoint (r : Registry) :
    Pipeline.parse r "fixpoint" = .error ⟨8, "fixpoint", .expected '(' none⟩ := by
  rfl

/-- **Every name of a registry denotes a pass, but for the words of groups.** After whatever calls
that register passes, a name that was registered is among the names and stands for the pass of its
registration, and the verifier's name stands for the verifier. A name among them denotes a pass just
when it is not the word of a group; if it is, its text is no pipeline. -/
theorem names_denote_passes_iff (calls : List (String × Pass)) :
    (∀ before name p after r, calls = before ++ (name, p) :: after →
      (builtin.afterCalls before).register name p = .ok r →
        name ∈ (builtin.afterCalls calls).names ∧
          Step.ofNode (builtin.afterCalls calls) (.pass name) = .pass name p) ∧
      Step.ofNode (builtin.afterCalls calls) (.pass verifierName) = .verify ∧
      ∀ w ∈ (builtin.afterCalls calls).names,
        ((builtin.afterCalls calls).Denotes w ↔ w ≠ "repeat" ∧ w ≠ "fixpoint") ∧
        (w = "repeat" ∨ w = "fixpoint" →
          ∃ e, Pipeline.parse (builtin.afterCalls calls) w = .error e) := by
  have hnamed := wellNamed_builtin.afterCalls calls
  refine ⟨fun before name p after r hcalls hr => ?_, ?_,
    fun w hw => ⟨⟨fun h => ?_, fun h => ?_⟩, ?_⟩⟩
  · have hfound : (builtin.afterCalls calls).find? name = some p := by
      have hcall := find?_register (w := name) hr
      rw [if_pos rfl, ← afterCall_of_ok hr] at hcall
      rw [hcalls, afterCalls, List.foldl_append]
      exact keeps_afterCalls _ after name p hcall
    refine ⟨mem_names_iff.mpr (.inl ⟨p, hfound⟩), ?_⟩
    simp only [Step.ofNode, hfound]
  · simp only [Step.ofNode, hnamed.find?_verifier]
  · constructor <;> rintro rfl
    · exact absurd (h.parse.symm.trans (parse_repeat _)) (by simp)
    · exact absurd (h.parse.symm.trans (parse_fixpoint _)) (by simp)
  · have hknown := mem_names_iff.mp hw
    refine denotes_of_isPassName ?_ ⟨hknown, h.1, h.2⟩
    rcases hknown with ⟨p, hp⟩ | rfl
    · exact (hnamed w p hp).1
    · rfl
  · rintro (rfl | rfl)
    · exact ⟨_, parse_repeat _⟩
    · exact ⟨_, parse_fixpoint _⟩

/-- The word of a group can be registered like any other name, and is then among the names; but it
denotes no pass. -/
theorem repeat_registered_unreadable :
    builtin.register "repeat" .deadCode = .ok (builtin.afterCalls [("repeat", .deadCode)]) ∧
      "repeat" ∈ (builtin.afterCalls [("repeat", .deadCode)]).names ∧
      Pipeline.parse (builtin.afterCalls [("repeat", .deadCode)]) "repeat" =
        .error ⟨6, "repeat", .expected '<' none⟩ :=
  ⟨by decide +kernel, mem_names_iff.mpr (.inl ⟨.deadCode, by decide +kernel⟩), by rfl⟩

/-- Calls that register a name, a name that is taken, and the word of a group. -/
def mixedCalls : List (String × Pass) :=
  [("sweep", .deadCode), ("tdce", .blockMerge), ("fixpoint", .nestedIf)]

/-- The name denotes its pass, and the word of the group denotes none. -/
theorem mixedCalls_names :
    "sweep" ∈ (builtin.afterCalls mixedCalls).names ∧
      Step.ofNode (builtin.afterCalls mixedCalls) (.pass "sweep") = .pass "sweep" .deadCode ∧
      (builtin.afterCalls mixedCalls).Denotes "sweep" ∧
      "fixpoint" ∈ (builtin.afterCalls mixedCalls).names ∧
      ¬(builtin.afterCalls mixedCalls).Denotes "fixpoint" := by
  obtain ⟨hcalls, -, hnames⟩ := names_denote_passes_iff mixedCalls
  obtain ⟨hsweep, hstep⟩ := hcalls [] "sweep" .deadCode _ _ rfl rfl
  obtain ⟨hfixpoint, -⟩ := hcalls [("sweep", .deadCode), ("tdce", .blockMerge)] "fixpoint" .nestedIf
    [] _ rfl rfl
  refine ⟨hsweep, hstep, (hnames _ hsweep).1.mpr ⟨by decide, by decide⟩, hfixpoint, fun h => ?_⟩
  exact ((hnames _ hfixpoint).1.mp h).2 rfl

end Registry

end BranchFusion
