import BranchFusion.Emulator
import BranchFusion.Proofs.ControlFlow
import BranchFusion.Proofs.Outcome
import BranchFusion.Proofs.Tables
import Mathlib.Data.List.Forall2

/-!
# What a run depends on

A run reads words from its environment, and nothing else of the environment matters. Two states
*agree* on some values (`BranchFusion.Emulator.State.Agrees`) when they hold the same words for them
and the same calls; a piece of code that only reads such values then ends *alike* from both
(`BranchFusion.Emulator.Alike`): with the same error, or in states that agree again. The functions
that the code stands in may differ, as long as they have the same name, which is all of a function
that an error shows.

The other half is what a run leaves behind. Words are never taken out of an environment, and a block
that was run has set everything it defines (`BranchFusion.Emulator.holds_of_block`). A block may go
wrong, but it does not use up the blocks of a run (`BranchFusion.Emulator.failsWith_block`).
-/

namespace BranchFusion

namespace Emulator

variable {fn fn' : Func} {handler : CallHandler} {env env' : Env} {s s' t : State}
  {P : Value → Prop} {prev prev' : Option BlockId} {b b' c : BlockId} {v : Value}

/-! ### Outcomes that are alike -/

/-- Two outcomes are alike: both are the same error, or both are results that are related. -/
inductive Alike {ε α β : Type} (R : α → β → Prop) : Except ε α → Except ε β → Prop
  | ok {x : α} {y : β} : R x y → Alike R (.ok x) (.ok y)
  | error (e : ε) : Alike R (.error e) (.error e)

theorem Alike.bind {ε α β γ δ : Type} {R : α → β → Prop} {S : γ → δ → Prop} {x : Except ε α}
    {y : Except ε β} {f : α → Except ε γ} {g : β → Except ε δ} (h : Alike R x y)
    (hfg : ∀ a b, R a b → Alike S (f a) (g b)) : Alike S (x >>= f) (y >>= g) := by
  cases h with
  | ok h => exact hfg _ _ h
  | error e => exact .error e

theorem Alike.eq_error {ε α β : Type} {R : α → β → Prop} {y : Except ε β} {e : ε}
    (h : Alike R (.error e) y) : y = .error e := by
  cases h with
  | error e => rfl

/-- **Agreement** of two states on some values: the same calls, and the same words for those
values. -/
structure State.Agrees (P : Value → Prop) (s s' : State) : Prop where
  trace : s.trace = s'.trace
  env : ∀ v, P v → s.env.get? v = s'.env.get? v

theorem State.Agrees.refl (s : State) : s.Agrees P s := ⟨rfl, fun _ _ => rfl⟩

theorem State.Agrees.set (h : s.Agrees P s') (v : Value) (w : Int64) :
    State.Agrees P { s with env := s.env.set v w } { s' with env := s'.env.set v w } := by
  refine ⟨h.trace, fun x hx => ?_⟩
  simp only [Table.get?_set]
  split
  · rfl
  · exact h.env x hx

/-- A word for a value outside makes no difference. -/
theorem State.Agrees.set_right (h : s.Agrees P s') (hv : ¬P v) (w : Int64) :
    State.Agrees P s { s' with env := s'.env.set v w } := by
  refine ⟨h.trace, fun x hx => ?_⟩
  have hne : v ≠ x := fun he => hv (he ▸ hx)
  simp only [Table.get?_set, if_neg hne]
  exact h.env x hx

theorem State.Agrees.set_left (h : s.Agrees P s') (hv : ¬P v) (w : Int64) :
    State.Agrees P { s with env := s.env.set v w } s' := by
  refine ⟨h.trace, fun x hx => ?_⟩
  have hne : v ≠ x := fun he => hv (he ▸ hx)
  simp only [Table.get?_set, if_neg hne]
  exact h.env x hx

/-! ### Reading -/

theorem read_eq (hname : fn'.name = fn.name) {o : Option Value}
    (h : o.bind env.get? = o.bind env'.get?) : read fn env o = read fn' env' o := by
  simp only [read, ← h, hname]

theorem read_of_some {w : Int64} (h : env.get? v = some w) : read fn env (some v) = .ok w := by
  rw [read, Option.bind_some, h]

theorem read_of_none (h : env.get? v = none) :
    read fn env (some v) = .error (.undefinedRead fn.name (some v)) := by
  rw [read, Option.bind_some, h]

@[simp] theorem State.lift_ok {α : Type} (s : State) (a : α) : s.lift (.ok a) = .ok a := rfl

theorem readAll_eq (hname : fn'.name = fn.name) : ∀ {vs : List Value},
    (∀ v ∈ vs, env.get? v = env'.get? v) → readAll fn env vs = readAll fn' env' vs
  | [], _ => rfl
  | v :: vs, h => by
    have hv : read fn env (some v) = read fn' env' (some v) := read_eq hname (h v (by simp))
    have hvs := readAll_eq hname fun w hw => h w (List.mem_cons_of_mem v hw)
    simp only [readAll, hv, hvs]

/-- Phis read alike if their inputs are the same. Where a phi has no input, the error tells where
control came from, so this is only allowed at the entry. -/
theorem readPhis_eq (hname : fn'.name = fn.name) {ps ps' : List Phi}
    (h : List.Forall₂ (fun p p' : Phi => p'.result = p.result ∧
      prev'.bind p'.input? = prev.bind p.input?) ps ps')
    (hpred : prev = none ∧ prev' = none ∨ ∀ p ∈ ps, (prev.bind p.input?).isSome)
    (hread : ∀ p ∈ ps, ∀ v, prev.bind p.input? = some (some v) → env.get? v = env'.get? v) :
    readPhis fn env prev ps = readPhis fn' env' prev' ps' := by
  induction h with
  | nil => rfl
  | @cons p p' ps ps' hp _ ih =>
    obtain ⟨hres, hin⟩ := hp
    have ih := ih (hpred.imp_right fun h q hq => h q (List.mem_cons_of_mem p hq))
      fun q hq => hread q (List.mem_cons_of_mem p hq)
    rw [readPhis, readPhis, hin, hres, hname, ← ih]
    cases hp : prev.bind p.input? with
    | none =>
      rcases hpred with ⟨rfl, rfl⟩ | hpred
      · rfl
      · exact absurd (hpred p (by simp)) (by simp [hp])
    | some o =>
      have ho : read fn env o = read fn' env' o := by
        refine read_eq hname ?_
        cases o with
        | none => rfl
        | some v => exact hread p (by simp) v hp
      simp only [ho]

theorem agrees_assign : ∀ (ws : List (Value × Int64)) {s s' : State}, s.Agrees P s' →
    State.Agrees P { s with env := assign s.env ws } { s' with env := assign s'.env ws }
  | [], _, _, h => h
  | (v, w) :: ws, _, _, h => agrees_assign ws (h.set v w)

/-- Errors are raised alike in states with the same calls. -/
theorem lift_alike {α : Type} (h : s.trace = s'.trace) (x : Except EmulationError α) :
    Alike (· = ·) (s.lift x) (s'.lift x) := by
  cases x with
  | ok a => exact .ok rfl
  | error e => simpa only [State.lift, h] using Alike.error _

/-! ### Running instructions -/

theorem exec_alike (hname : fn'.name = fn.name) (h : s.Agrees P s') {i : Instr}
    (hP : ∀ v ∈ i.operands, P v) :
    Alike (State.Agrees P) (exec fn handler s i) (exec fn' handler s' i) := by
  cases i with
  | const r w => exact .ok (h.set r w)
  | binary r op x y =>
    have hx : read fn s.env (some x) = read fn' s'.env (some x) :=
      read_eq hname (h.env x (hP x (by simp [Instr.operands])))
    have hy : read fn s.env (some y) = read fn' s'.env (some y) :=
      read_eq hname (h.env y (hP y (by simp [Instr.operands])))
    simp only [exec, hx, hy]
    refine (lift_alike h.trace _).bind fun a _ ha =>
      (lift_alike h.trace _).bind fun b _ hb => ?_
    subst ha hb
    exact .ok (h.set r _)
  | call r callee args =>
    have hargs : readAll fn s.env args = readAll fn' s'.env args :=
      readAll_eq hname fun v hv => h.env v (hP v hv)
    simp only [exec, hargs]
    refine (lift_alike h.trace _).bind fun ws _ hws => ?_
    subst hws
    refine .ok ⟨by simp [h.trace], ?_⟩
    cases r with
    | none => exact h.env
    | some r => exact (h.set r _).env

theorem execAll_alike (hname : fn'.name = fn.name) : ∀ {is : List Instr} {s s' : State},
    s.Agrees P s' → (∀ i ∈ is, ∀ v ∈ i.operands, P v) →
    Alike (State.Agrees P) (execAll fn handler s is) (execAll fn' handler s' is)
  | [], _, _, h, _ => .ok h
  | i :: is, _, _, h, hP =>
    (exec_alike hname h (hP i (by simp))).bind fun _ _ ht =>
      execAll_alike hname ht fun j hj => hP j (List.mem_cons_of_mem i hj)

theorem execAll_append (is js : List Instr) : ∀ s : State,
    execAll fn handler s (is ++ js) =
      execAll fn handler s is >>= fun t => execAll fn handler t js := by
  induction is with
  | nil => exact fun _ => rfl
  | cons i is ih =>
    intro s
    simp only [List.cons_append, execAll, bind_assoc, ih]

/-- A terminator decides alike; the block it stands in does not matter. -/
theorem leave_eq (hname : fn'.name = fn.name) {t : Terminator}
    (h : ∀ v ∈ t.operands, env.get? v = env'.get? v) :
    leave fn b env (some t) = leave fn' b' env' (some t) := by
  cases t with
  | jump target => rfl
  | branch v x y =>
    have hv : read fn env (some v) = read fn' env' (some v) :=
      read_eq hname (h v (by simp [Terminator.operands]))
    simp only [leave, hv]
  | switch v d cases =>
    have hv : read fn env (some v) = read fn' env' (some v) :=
      read_eq hname (h v (by simp [Terminator.operands]))
    simp only [leave, hv]
  | ret vs =>
    have hvs : readAll fn env vs = readAll fn' env' vs := readAll_eq hname h
    simp only [leave, hvs]

/-! ### The code of a block after its phis -/

/-- Runs instructions and a terminator: what is left of a block after its phis. -/
def finish (fn : Func) (handler : CallHandler) (b : BlockId) (is : List Instr)
    (term : Option Terminator) (s : State) : Except Stop (Next × State) := do
  let s ← execAll fn handler s is
  let next ← s.lift (leave fn b s.env term)
  return (next, s)

theorem block_eq_finish : block fn handler prev b s =
    s.lift (readPhis fn s.env prev (fn.block b).phis) >>= fun ins =>
      finish fn handler b (fn.block b).instrs (fn.block b).term
        { s with env := assign s.env ins } := rfl

theorem finish_append (is js : List Instr) (term : Option Terminator) (s : State) :
    finish fn handler b (is ++ js) term s =
      execAll fn handler s is >>= fun t => finish fn handler b js term t := by
  simp only [finish, execAll_append, bind_assoc]

theorem finish_nil (t : Terminator) (s : State) : finish fn handler b [] (some t) s =
    s.lift (leave fn b s.env (some t)) >>= fun next => .ok (next, s) := rfl

theorem finish_branch {x y : BlockId} {w : Int64} (h : s.env.get? v = some w) :
    finish fn handler b [] (some (.branch v x y)) s = .ok (.goto (if w != 0 then x else y), s) := by
  rw [finish_nil, leave, read_of_some h]
  rfl

theorem finish_branch_of_none {x y : BlockId} (h : s.env.get? v = none) :
    finish fn handler b [] (some (.branch v x y)) s =
      .error ⟨.undefinedRead fn.name (some v), s.trace⟩ := by
  rw [finish_nil, leave, read_of_none h]
  rfl

/-- Two ends of a block agree: the same decision, in states that agree. -/
def EndsAgree (P : Value → Prop) (x y : Next × State) : Prop :=
  x.1 = y.1 ∧ x.2.Agrees P y.2

theorem Alike.exists_of_ok {next : Next} {y : Except Stop (Next × State)}
    (h : Alike (EndsAgree P) (.ok (next, s)) y) : ∃ s', y = .ok (next, s') ∧ s.Agrees P s' := by
  cases h with
  | @ok _ r hr =>
    obtain ⟨n, s'⟩ := r
    obtain ⟨rfl, hs⟩ := hr
    exact ⟨s', rfl, hs⟩

theorem finish_alike (hname : fn'.name = fn.name) (h : s.Agrees P s') {is : List Instr}
    {t : Terminator} (his : ∀ i ∈ is, ∀ v ∈ i.operands, P v) (ht : ∀ v ∈ t.operands, P v) :
    Alike (EndsAgree P) (finish fn handler b is (some t) s)
      (finish fn' handler b' is (some t) s') := by
  refine (execAll_alike hname h his).bind fun u u' hu => ?_
  have hleave : leave fn b u.env (some t) = leave fn' b' u'.env (some t) :=
    leave_eq hname fun v hv => hu.env v (ht v hv)
  rw [hleave]
  exact (lift_alike hu.trace _).bind fun next _ hnext => .ok ⟨hnext, hu⟩

/-! ### What a block can fail with -/

/-- An outcome is no error, or an error of some kind. -/
def FailsWith {ε α : Type} (P : ε → Prop) (x : Except ε α) : Prop :=
  ∀ e, x = .error e → P e

theorem FailsWith.ok {ε α : Type} {P : ε → Prop} (a : α) : FailsWith P (.ok a) :=
  fun _ h => absurd h (by simp)

theorem FailsWith.bind {ε α β : Type} {P : ε → Prop} {x : Except ε α} {f : α → Except ε β}
    (h : FailsWith P x) (hf : ∀ a, FailsWith P (f a)) : FailsWith P (x >>= f) := by
  cases x with
  | ok a => exact hf a
  | error e =>
    intro e' he'
    exact h e' (by simpa [Bind.bind, Except.bind] using he')

theorem FailsWith.lift {α : Type} {P : EmulationError → Prop} {x : Except EmulationError α}
    (h : FailsWith P x) (s : State) : FailsWith (fun e => P e.error) (s.lift x) := by
  cases x with
  | ok a => exact .ok a
  | error e =>
    rintro _ ⟨⟩
    exact h e rfl

section Failures

variable {E : EmulationError → Prop}

theorem failsWith_read {o : Option Value} (h : E (.undefinedRead fn.name o)) :
    FailsWith E (read fn env o) := by
  rw [read]
  split
  · exact .ok _
  · rintro _ ⟨⟩
    exact h

variable (hread : ∀ v, E (.undefinedRead fn.name (some v)))

include hread

theorem failsWith_readAll : ∀ vs : List Value, FailsWith E (readAll fn env vs)
  | [] => .ok []
  | v :: vs =>
    (failsWith_read (hread v)).bind fun _ => (failsWith_readAll vs).bind fun _ => .ok _

omit hread in
/-- A phi fails if it has no input, or if what it reads is not set. -/
theorem failsWith_readPhis : ∀ ps : List Phi,
    (∀ p ∈ ps, prev.bind p.input? = none → E (.noInput fn.name p.result (prev.map fn.label))) →
    (∀ p ∈ ps, ∀ o, prev.bind p.input? = some o → E (.undefinedRead fn.name o)) →
      FailsWith E (readPhis fn env prev ps)
  | [], _, _ => .ok []
  | p :: ps, hnone, hsome => by
    obtain ⟨hnone, hnones⟩ := List.forall_mem_cons.mp hnone
    obtain ⟨hsome, hsomes⟩ := List.forall_mem_cons.mp hsome
    rw [readPhis]
    split
    · next hin =>
      rintro _ ⟨⟩
      exact hnone hin
    · next o hin =>
      exact (failsWith_read (hsome o hin)).bind fun _ =>
        (failsWith_readPhis ps hnones hsomes).bind fun _ => .ok _

theorem failsWith_leave {term : Option Terminator}
    (hterm : term = none → E (.notTerminated fn.name (fn.label b))) :
    FailsWith E (leave fn b env term) := by
  cases term with
  | none =>
    rintro _ ⟨⟩
    exact hterm rfl
  | some t =>
    cases t with
    | jump target => exact .ok _
    | branch v x y => exact (failsWith_read (hread v)).bind fun _ => .ok _
    | switch v d cases => exact (failsWith_read (hread v)).bind fun _ => .ok _
    | ret vs => exact (failsWith_readAll hread vs).bind fun _ => .ok _

theorem failsWith_exec (i : Instr) : FailsWith (fun e => E e.error) (exec fn handler s i) := by
  cases i with
  | const r w => exact .ok _
  | binary r op x y =>
    exact ((failsWith_read (hread x)).lift s).bind fun _ =>
      ((failsWith_read (hread y)).lift s).bind fun _ => .ok _
  | call r callee args => exact ((failsWith_readAll hread args).lift s).bind fun _ => .ok _

theorem failsWith_execAll : ∀ (is : List Instr) (s : State),
    FailsWith (fun e => E e.error) (execAll fn handler s is)
  | [], s => .ok s
  | i :: is, _ => (failsWith_exec hread i).bind fun t => failsWith_execAll is t

/-- **What a block can fail with**: a phi without an input, the end of a block without a terminator,
and the reading of what is not set. -/
theorem failsWith_block_of
    (hnone : ∀ p ∈ (fn.block b).phis, prev.bind p.input? = none →
      E (.noInput fn.name p.result (prev.map fn.label)))
    (hsome : ∀ p ∈ (fn.block b).phis, ∀ o, prev.bind p.input? = some o →
      E (.undefinedRead fn.name o))
    (hterm : (fn.block b).term = none → E (.notTerminated fn.name (fn.label b))) :
    FailsWith (fun e => E e.error) (block fn handler prev b s) :=
  ((failsWith_readPhis _ hnone hsome).lift s).bind fun _ =>
    (failsWith_execAll hread _ _).bind fun t =>
      ((failsWith_leave hread hterm).lift t).bind fun _ => .ok _

end Failures

/-- **A block does not fail for want of blocks**: only a run counts them. -/
theorem failsWith_block :
    FailsWith (fun e => e.error ≠ .stepLimit) (block fn handler prev b s) :=
  failsWith_block_of (E := (· ≠ .stepLimit)) (fun _ => nofun) (fun _ _ _ => nofun)
    (fun _ _ _ _ => nofun) fun _ => nofun

/-! ### What a run leaves behind -/

/-- A state holds a word for a value. -/
def State.Holds (s : State) (v : Value) : Prop := (s.env.get? v).isSome

theorem State.Holds.set (h : s.Holds v) (x : Value) (w : Int64) :
    State.Holds { s with env := s.env.set x w } v := by
  simp only [State.Holds, Table.get?_set]
  split
  · rfl
  · exact h

theorem State.holds_set (s : State) (v : Value) (w : Int64) :
    State.Holds { s with env := s.env.set v w } v := by
  simp [State.Holds, Table.get?_set]

theorem holds_assign : ∀ (ws : List (Value × Int64)) {s : State},
    s.Holds v ∨ v ∈ ws.map Prod.fst → State.Holds { s with env := assign s.env ws } v
  | [], _, h => h.resolve_right (by simp)
  | (x, w) :: ws, s, h => by
    have hset : State.Holds { s with env := s.env.set x w } v ∨ v ∈ ws.map Prod.fst := by
      rcases h with h | h
      · exact Or.inl (h.set x w)
      · rcases List.mem_cons.mp h with rfl | h
        · exact Or.inl (s.holds_set v w)
        · exact Or.inr h
    exact holds_assign ws hset

theorem ok_of_lift {α : Type} {x : Except EmulationError α} {a : α} (h : s.lift x = .ok a) :
    x = .ok a := by
  cases x with
  | ok b => simpa [State.lift] using h
  | error e => exact absurd h (by simp [State.lift])

theorem map_fst_of_readPhis : ∀ {ps : List Phi} {ws : List (Value × Int64)},
    readPhis fn env prev ps = .ok ws → ws.map Prod.fst = ps.map Phi.result
  | [], ws, h => by
    obtain rfl : [] = ws := by simpa [readPhis] using h
    rfl
  | p :: ps, ws, h => by
    rw [readPhis] at h
    cases hp : prev.bind p.input? with
    | none => simp [hp] at h
    | some o =>
      simp only [hp] at h
      obtain ⟨w, -, h⟩ := ok_of_bind h
      obtain ⟨us, hus, h⟩ := ok_of_bind h
      obtain rfl : (p.result, w) :: us = ws := Except.ok.inj h
      rw [List.map_cons, List.map_cons, map_fst_of_readPhis hus]

theorem holds_of_exec {i : Instr} (h : exec fn handler s i = .ok t)
    (hv : s.Holds v ∨ i.result? = some v) : t.Holds v := by
  -- every instruction ends by setting its result, if it has one
  have key : ∀ (r : Value) (w : Int64) (u : State), s.Holds v ∨ some r = some v → u.env = s.env →
      State.Holds { u with env := u.env.set r w } v := by
    intro r w u hv hu
    rcases hv with hv | hv
    · exact State.Holds.set (s := u) (by rw [State.Holds, hu]; exact hv) r w
    · obtain rfl : r = v := by simpa using hv
      exact u.holds_set r w
  cases i with
  | const r w =>
    obtain rfl : _ = t := by simpa [exec] using h
    exact key r w s hv rfl
  | binary r op x y =>
    obtain ⟨a, -, h⟩ := ok_of_bind h
    obtain ⟨b, -, h⟩ := ok_of_bind h
    obtain rfl : _ = t := by simpa [pure, Except.pure] using h
    exact key r _ s hv rfl
  | call r callee args =>
    obtain ⟨ws, -, h⟩ := ok_of_bind h
    obtain rfl : _ = t := by simpa [pure, Except.pure] using h
    cases r with
    | none => exact hv.resolve_right (by simp [Instr.result?])
    | some r => exact key r _ ⟨s.env, _⟩ hv rfl

theorem holds_of_execAll : ∀ {is : List Instr} {s : State}, execAll fn handler s is = .ok t →
    s.Holds v ∨ v ∈ is.filterMap Instr.result? → t.Holds v
  | [], _, h, hv => by
    obtain rfl : _ = t := by simpa [execAll] using h
    exact hv.resolve_right (by simp)
  | i :: is, _, h, hv => by
    obtain ⟨u, hu, h⟩ := ok_of_bind h
    refine holds_of_execAll h ?_
    rcases hv with hv | hv
    · exact Or.inl (holds_of_exec hu (Or.inl hv))
    · obtain ⟨j, hj, hjv⟩ := List.mem_filterMap.mp hv
      rcases List.mem_cons.mp hj with rfl | hj
      · exact Or.inl (holds_of_exec hu (Or.inr hjv))
      · exact Or.inr (List.mem_filterMap.mpr ⟨j, hj, hjv⟩)

/-- **A block that was run has set what it defines**, and what was set before is still set. -/
theorem holds_of_block {next : Next} (h : block fn handler prev b s = .ok (next, t))
    (hv : s.Holds v ∨ v ∈ (fn.block b).definitions) : t.Holds v := by
  obtain ⟨ws, hws, h⟩ := ok_of_bind h
  obtain ⟨u, hu, h⟩ := ok_of_bind h
  obtain ⟨n, -, h⟩ := ok_of_bind h
  obtain ⟨-, rfl⟩ : n = next ∧ u = t := by simpa [pure, Except.pure] using h
  have hfst := map_fst_of_readPhis (ok_of_lift hws)
  refine holds_of_execAll hu ?_
  rcases hv with hv | hv
  · exact Or.inl (holds_assign ws (Or.inl hv))
  · rcases List.mem_append.mp hv with hv | hv
    · exact Or.inl (holds_assign ws (Or.inr (hfst ▸ hv)))
    · exact Or.inr hv

theorem mem_successors_of_leave {term : Option Terminator}
    (h : leave fn b env term = .ok (.goto c)) : ∃ t, term = some t ∧ c ∈ t.successors := by
  cases term with
  | none => exact absurd h (by simp [leave])
  | some t =>
    refine ⟨t, rfl, ?_⟩
    cases t with
    | jump target =>
      obtain rfl : target = c := by simpa [leave] using h
      simp [Terminator.successors, Terminator.edges]
    | branch v x y =>
      obtain ⟨w, -, h⟩ := ok_of_bind h
      obtain rfl : (if w != 0 then x else y) = c := by simpa [pure, Except.pure] using h
      split <;> simp [Terminator.successors, Terminator.edges]
    | switch v d cases =>
      obtain ⟨w, -, h⟩ := ok_of_bind h
      obtain rfl : (Table.get? cases w).getD d = c := by simpa [pure, Except.pure] using h
      cases hw : Table.get? cases w with
      | none => simp [Terminator.successors, Terminator.edges]
      | some x =>
        have hmem := Table.mem_of_get? hw
        simp only [Terminator.successors, Terminator.edges, List.map_append, List.map_map,
          Option.getD_some]
        exact List.mem_append_left _ (List.mem_map.mpr ⟨_, hmem, rfl⟩)
    | ret vs =>
      obtain ⟨ws, -, h⟩ := ok_of_bind h
      exact absurd h (by simp [pure, Except.pure])

/-- Control goes on along an edge. -/
theorem edge_of_block (h : block fn handler prev b s = .ok (.goto c, t)) : fn.Edge b c := by
  obtain ⟨ws, -, h⟩ := ok_of_bind h
  obtain ⟨u, -, h⟩ := ok_of_bind h
  obtain ⟨n, hn, h⟩ := ok_of_bind h
  obtain ⟨rfl, -⟩ : n = .goto c ∧ u = t := by simpa [pure, Except.pure] using h
  obtain ⟨term, hterm, hc⟩ := mem_successors_of_leave (ok_of_lift hn)
  rw [Func.Edge, Func.successors, Block.successors, Block.edges, hterm]
  exact hc

end Emulator

end BranchFusion
