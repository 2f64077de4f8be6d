import BranchFusion.Proofs.Source.Spelling
import BranchFusion.Proofs.Tables
import Mathlib.Data.List.TakeWhile

/-!
# What a line of program text does

A reader changes a draft step by step. `BranchFusion.Source.Reads` says that from every draft with
one property, if reading succeeds, it ends in a draft with another; the rules below follow the
readers clause by clause.

They are used once, to say what a line can do (`BranchFusion.Source.Effect`): it may mention new
values, it may mark one value as defined, and then it adds an instruction or a phi to its block, or
terminates it (`BranchFusion.Source.reads_instr`). Whoever wants to know more about the functions
that are read starts from there and opens no reader again.

The names in a line come from the words of the line. These are words in the sense of
`BranchFusion.Source.IsWord`, since a line is read without its comment, and so there is no semicolon
in it (`BranchFusion.Source.Line.Plain`).
-/

namespace BranchFusion

namespace Source

/-! ### Rules for readers -/

/-- **From a draft with the property `P`, a reader that succeeds ends in one with `Q`.** -/
def Reads {α : Type} (P : Draft → Prop) (x : Read α) (Q : α → Draft → Prop) : Prop :=
  ∀ d, P d → ∀ a d', x.run d = .ok (a, d') → Q a d'

namespace Reads

variable {α β : Type} {P P' : Draft → Prop} {Q Q' : α → Draft → Prop} {R : β → Draft → Prop}
  {x : Read α}

theorem bind {f : α → Read β} (hx : Reads P x Q) (hf : ∀ a, Reads (Q a) (f a) R) :
    Reads P (x >>= f) R := by
  intro d hd b d' h
  rw [StateT.run_bind] at h
  cases hrun : x.run d with
  | error e =>
    rw [hrun] at h
    exact absurd h (by simp [Bind.bind, Except.bind])
  | ok r =>
    rw [hrun] at h
    exact hf r.1 r.2 (hx d hd r.1 r.2 hrun) b d' h

theorem pure {a : α} (h : ∀ d, P d → Q a d) : Reads P (pure a : Read α) Q := by
  intro d hd a' d' hrun
  obtain ⟨rfl, rfl⟩ : a = a' ∧ d = d' := Prod.mk.inj (Except.ok.inj hrun)
  exact h d hd

theorem refuse (line : Line) (reason : Refusal) : Reads P (refuse line reason : Read α) Q := by
  intro d _ a d' hrun
  have herror : (.error ⟨line, reason⟩ : Except Error (α × Draft)) = .ok (a, d') := hrun
  exact absurd herror (by simp)

theorem get : Reads P (MonadState.get : Read Draft) fun a d => a = d ∧ P d := by
  intro d hd a d' hrun
  obtain ⟨rfl, rfl⟩ : d = a ∧ d = d' := Prod.mk.inj (Except.ok.inj hrun)
  exact ⟨rfl, hd⟩

/-- Looking at the draft changes nothing. -/
theorem look : Reads P (MonadState.get : Read Draft) fun _ d => P d :=
  fun d hd a d' hrun => (get d hd a d' hrun).2

theorem set {d₀ : Draft} {R : PUnit → Draft → Prop} (h : ∀ d, P d → R ⟨⟩ d₀) :
    Reads P (MonadState.set d₀ : Read PUnit) R := by
  intro d hd a d' hrun
  obtain ⟨-, rfl⟩ : _ = a ∧ d₀ = d' := Prod.mk.inj (Except.ok.inj hrun)
  exact h d hd

theorem edit {f : Func → Func} {R : Unit → Draft → Prop}
    (h : ∀ d, P d → R () { d with func := f d.func }) : Reads P (edit f) R := by
  intro d hd a d' hrun
  obtain ⟨-, rfl⟩ : _ = a ∧ _ = d' := Prod.mk.inj (Except.ok.inj hrun)
  exact h d hd

theorem weaken (h : Reads P' x Q') (hP : ∀ d, P d → P' d) (hQ : ∀ a d, Q' a d → Q a d) :
    Reads P x Q :=
  fun d hd a d' hrun => hQ a d' (h d (hP d hd) a d' hrun)

end Reads

/-! ### Plain lines -/

/-- **A plain line**: it has no semicolon, where a comment would start. -/
def Line.Plain (l : Line) : Prop := ';' ∉ l.text.toList

theorem Line.Plain.isWord {l : Line} (h : l.Plain) : ∀ w ∈ words l.text, IsWord w :=
  fun _ hw => isWord_of_mem_words h hw

theorem plain_of_mem_numbered {l : Line} : ∀ {ls : List (List Char)} {n : Nat},
    l ∈ numbered n ls → l.Plain
  | [], _, h => by simp [numbered] at h
  | cs :: ls, n, h => by
    rw [numbered] at h
    split at h
    · exact plain_of_mem_numbered h
    rcases List.mem_cons.mp h with rfl | h
    · intro hmem
      rw [String.toList_ofList] at hmem
      simpa using List.mem_takeWhile_imp (Text.mem_of_mem_trim hmem)
    · exact plain_of_mem_numbered h

/-- **A reader sees plain lines only.** -/
theorem plain_of_mem_readLines {src : String} {l : Line} (h : l ∈ readLines src) : l.Plain :=
  plain_of_mem_numbered h

/-! ### What a line can do -/

variable {d d' d₀ d₁ : Draft} {line : Line} {name word : String} {b c : BlockId} {v r : Value}

/-- The draft after a value was mentioned for the first time. -/
def Draft.enter (d : Draft) (line : Line) (name : String) : Draft :=
  { d with
    func := (d.func.define name).2, mentions := d.mentions ++ [((d.func.define name).1, line)] }

/-- A name that no value of the draft has. -/
def Draft.Unknown (d : Draft) (name : String) : Prop := ∀ v ∈ d.func.values, v.name ≠ name

/-- `d'` arises from `d` when values are **mentioned** that were not known. -/
inductive Mentions (d : Draft) : Draft → Prop
  | refl : Mentions d d
  | enter {d' : Draft} {name : String} (h : Mentions d d') (hname : IsWord name)
    (hnew : d'.Unknown name) (line : Line) : Mentions d (d'.enter line name)

/-- `d'` arises from `d` when values are mentioned, and one of them, if any, is **marked** as
defined, which it was not. -/
inductive Marks (d : Draft) : Option Value → Draft → Prop
  | nothing {d' : Draft} (h : Mentions d d') : Marks d none d'
  | value {d₁ d' : Draft} {r : Value} (h : Mentions d d₁) (hr : r ∈ d₁.func.values)
    (hnew : r ∉ d₁.defined) (h' : Mentions { d₁ with defined := r :: d₁.defined } d') :
    Marks d (some r) d'

/-- The inputs of a phi as they are read: known values from live blocks, in order. -/
structure Inputs (d : Draft) (p : Phi) : Prop where
  ordered : p.Ordered
  entry : ∀ e ∈ p.inputs, d.func.owns e.1 ∧ ∃ v ∈ d.func.values, e.2 = some v

/-- The targets of a terminator as they are read: live blocks, with the cases of a switch in
order. -/
structure Targets (d : Draft) (t : Terminator) : Prop where
  ordered : t.Ordered
  owned : ∀ s ∈ t.successors, d.func.owns s

/-- **What a line does** in the block `b`. -/
inductive Effect (b : BlockId) (d : Draft) : Draft → Prop
  | instr {d' : Draft} (i : Instr) (h : Marks d i.result? d')
    (hoperands : ∀ v ∈ i.operands, v ∈ d'.func.values) (hcallee : ∀ f ∈ i.callee?, IsWord f) :
    Effect b d { d' with func := d'.func.modify b (·.append i) }
  | phi {d' : Draft} (p : Phi) (h : Marks d (some p.result) d') (hinputs : Inputs d' p)
    (hne : p.inputs ≠ []) :
    Effect b d { d' with func := d'.func.modify b fun bb => { bb with phis := bb.phis ++ [p] } }
  | term {d' : Draft} (t : Terminator) (h : Mentions d d') (htargets : Targets d' t)
    (hoperands : ∀ v ∈ t.operands, v ∈ d'.func.values) :
    Effect b d { d' with func := d'.func.terminate b t }

/-- A mention only touches the table of values. -/
theorem Mentions.func_eq (h : Mentions d d') :
    d'.func = { d.func with values := d'.func.values } := by
  induction h with
  | refl => rfl
  | enter _ _ _ _ ih =>
    rw [Draft.enter, Func.define, ih]

theorem mem_values_enter : v ∈ (d.enter line name).func.values ↔
    v ∈ d.func.values ∨ v = ⟨d.func.serial, d.func.values.size, name⟩ :=
  Array.mem_push

/-! ### Facts that mentions keep -/

/-- A fact about drafts that stays true when values are mentioned. -/
def Stable (F : Draft → Prop) : Prop :=
  ∀ d line name, F d → IsWord name → d.Unknown name → F (d.enter line name)

theorem stable_mentions : Stable (Mentions d₀) :=
  fun _ line _ h hname hnew => h.enter hname hnew line

theorem stable_marks {o : Option Value} : Stable (Marks d₀ o) := by
  rintro d line name (h | ⟨h, hr, hnew, h'⟩) hname hunknown
  · exact .nothing (h.enter hname hunknown line)
  · exact .value h hr hnew (h'.enter hname hunknown line)

theorem stable_mem : Stable fun d => v ∈ d.func.values :=
  fun _ _ _ h _ _ => mem_values_enter.mpr (Or.inl h)

theorem stable_inputs {p : Phi} : Stable fun d => Inputs d p := by
  refine fun d line name h _ _ => ⟨h.ordered, fun e he => ?_⟩
  obtain ⟨hown, v, hv, hev⟩ := h.entry e he
  exact ⟨hown, v, mem_values_enter.mpr (Or.inl hv), hev⟩

theorem Stable.and {F G : Draft → Prop} (hF : Stable F) (hG : Stable G) :
    Stable fun d => F d ∧ G d :=
  fun d line name h hname hnew => ⟨hF d line name h.1 hname hnew, hG d line name h.2 hname hnew⟩

/-! ### Values, labels and integers -/

section Words

variable {F : Draft → Prop}

/-- A word for a value is looked up by the name behind the sign. -/
theorem value?_of_nameAfter? (fn : Func) (h : nameAfter? '%' word = some name) :
    fn.value? word = fn.values.find? fun v => v.name = name := by
  rw [nameAfter?] at h
  split at h
  · next c e cs hword =>
    split at h
    · next hc =>
      obtain rfl := Option.some.inj h
      subst hc
      have hdrop : Text.dropFront "%" word = String.ofList (e :: cs) := by
        rw [Text.dropFront, hword]
        rfl
      rw [Func.value?, hdrop]
    · exact absurd h (by simp)
  · exact absurd h (by simp)

/-- The name behind the sign of a word is a word. -/
theorem isWord_of_nameAfter? {sign : Char} (hword : IsWord word)
    (h : nameAfter? sign word = some name) : IsWord name := by
  rw [nameAfter?] at h
  split at h
  · next c e cs hcs =>
    split at h
    · obtain rfl := Option.some.inj h
      refine ⟨by simp, fun x hx => hword.plain x ?_⟩
      rw [String.toList_ofList] at hx
      rw [hcs]
      exact List.mem_cons_of_mem c hx
    · exact absurd h (by simp)
  · exact absurd h (by simp)

theorem reads_value (hF : Stable F) (hword : IsWord word) :
    Reads F (readValue line word) fun v d => F d ∧ v ∈ d.func.values := by
  rw [readValue]
  split
  · exact .refuse line _
  · next name hname =>
    refine .bind .get fun a => ?_
    split
    · next v hv =>
      refine .pure ?_
      rintro _ ⟨rfl, hd⟩
      exact ⟨hd, Array.mem_of_find?_eq_some hv⟩
    · next hnone =>
      refine .bind (.set (R := fun _ d => F d ∧
        (⟨a.func.serial, a.func.values.size, name⟩ : Value) ∈ d.func.values) ?_)
          fun _ => .pure fun d hd => hd
      rintro _ ⟨rfl, hd⟩
      rw [value?_of_nameAfter? _ hname, Array.find?_eq_none] at hnone
      have hunknown : a.Unknown name := fun v hv heq => hnone v hv (by simpa using heq)
      exact ⟨hF a line name hd (isWord_of_nameAfter? hword hname) hunknown,
        mem_values_enter.mpr (Or.inr rfl)⟩

theorem reads_values (hF : Stable F) {ws : List String} (hws : ∀ w ∈ ws, IsWord w) :
    Reads F (readValues line ws) fun vs d => F d ∧ ∀ v ∈ vs, v ∈ d.func.values := by
  induction ws generalizing F with
  | nil => exact .pure fun _ hd => ⟨hd, by simp⟩
  | cons w ws ih =>
    rw [readValues]
    obtain ⟨hw, hws⟩ := List.forall_mem_cons.mp hws
    refine .bind (reads_value hF hw) fun v => ?_
    refine .bind (ih (hF.and stable_mem) hws) fun vs => .pure fun d hd => ?_
    exact ⟨hd.1.1, List.forall_mem_cons.mpr ⟨hd.1.2, hd.2⟩⟩

/-- Reading the result of an instruction marks it. -/
theorem reads_definition (hword : IsWord word) :
    Reads (· = d₀) (readDefinition line word) fun r d => Marks d₀ (some r) d := by
  rw [readDefinition]
  refine .bind ((reads_value (F := Mentions d₀) stable_mentions hword).weaken
    (fun d hd => hd ▸ .refl) fun _ _ h => h) fun r => .bind .get fun a => ?_
  split
  · exact .refuse line _
  · next hnew =>
    refine .bind (.set (R := fun _ d => Marks d₀ (some r) d) ?_) fun _ => .pure fun _ hd => hd
    rintro _ ⟨rfl, hd, hr⟩
    exact .value hd hr (by simpa using hnew) .refl

theorem reads_label (word : String) :
    Reads F (readLabel line word) fun c d => F d ∧ d.func.owns c := by
  rw [readLabel]
  refine .bind .get fun a => ?_
  dsimp only
  split
  · next c hc =>
    refine .pure ?_
    rintro _ ⟨rfl, hd⟩
    exact ⟨hd, Func.mem_ids.mp (List.mem_of_find?_eq_some hc)⟩
  · exact .refuse line _

theorem reads_integer (word : String) : Reads F (readInteger line word) fun _ d => F d := by
  rw [readInteger]
  split
  · exact .pure fun _ hd => hd
  · exact .refuse line _

/-- The inputs of a phi come in order, whatever the order in which they are read. A phi gets an
input if there are two words to be read. -/
theorem reads_inputs (hF : Stable F) : ∀ (ws : List String) (p : Phi), (∀ w ∈ ws, IsWord w) →
    Reads (fun d => F d ∧ Inputs d p) (readInputs line p ws) fun q d => F d ∧ Inputs d q ∧
      q.result = p.result ∧ (p.inputs ≠ [] ∨ 2 ≤ ws.length → q.inputs ≠ [])
  | w :: l :: ws, p, hws => by
    rw [readInputs]
    refine .bind (reads_value (hF.and stable_inputs) (hws w (by simp))) fun v => ?_
    refine .bind (reads_label l) fun c => ?_
    split
    · exact .bind .look fun _ => .refuse line _
    · have hws' : ∀ x ∈ ws, IsWord x := fun x hx => hws x (by simp [hx])
      refine (reads_inputs hF ws (p.setInput c (some v)) hws').weaken ?_ fun q d hd => ?_
      · rintro d ⟨⟨⟨hd, hp⟩, hv⟩, hc⟩
        refine ⟨hd, hp.ordered.setInput, fun e he => ?_⟩
        rcases Table.mem_insert he with rfl | he
        · exact ⟨hc, v, hv, rfl⟩
        · exact hp.entry e he
      · obtain ⟨hd, hq, hresult, hne⟩ := hd
        exact ⟨hd, hq, hresult, fun _ => hne (Or.inl (Table.insert_ne_nil _ _ _ _))⟩
  | [], p, _ => by
    rw [readInputs]
    · exact .pure fun _ hd => ⟨hd.1, hd.2, rfl, fun h => h.resolve_right (by simp)⟩
    · simp
  | [_], p, _ => by
    rw [readInputs]
    · exact .pure fun _ hd => ⟨hd.1, hd.2, rfl, fun h => h.resolve_right (by simp)⟩
    · simp

/-- So do the cases of a switch. -/
theorem reads_cases : ∀ (ws : List String) (t : Table Int64 BlockId),
    Reads (fun d => F d ∧ t.Ordered (fun x y => decide (x < y)) ∧ ∀ e ∈ t, d.func.owns e.2)
      (readCases line t ws)
      fun t d => F d ∧ t.Ordered (fun x y => decide (x < y)) ∧ ∀ e ∈ t, d.func.owns e.2
  | k :: l :: ws, t => by
    rw [readCases]
    refine .bind (reads_integer k) fun word => .bind (reads_label l) fun c => ?_
    split
    · exact .refuse line _
    · refine (reads_cases ws _).weaken ?_ fun _ _ h => h
      rintro d ⟨⟨hd, hordered, howned⟩, hc⟩
      refine ⟨hd, hordered.insert strictOrder_words, fun e he => ?_⟩
      rcases Table.mem_insert he with rfl | he
      · exact hc
      · exact howned e he
  | [], t => by
    rw [readCases]
    · exact .pure fun _ hd => hd
    · simp
  | [_], t => by
    rw [readCases]
    · exact .pure fun _ hd => hd
    · simp

end Words

/-! ### Instructions -/

theorem reads_emit {i : Instr} {o : Option Value} (hi : i.result? = o)
    (hcallee : ∀ f ∈ i.callee?, IsWord f) :
    Reads (fun d => Marks d₀ o d ∧ ∀ v ∈ i.operands, v ∈ d.func.values) (emit b i)
      fun _ d => Effect b d₀ d := by
  subst hi
  exact .edit fun d hd => .instr i hd.1 hd.2 hcallee

theorem reads_finish (t : Terminator) :
    Reads (fun d => Mentions d₀ d ∧ Targets d t ∧ ∀ v ∈ t.operands, v ∈ d.func.values)
      (finish b t) fun _ d => Effect b d₀ d :=
  .edit fun _ hd => .term t hd.1 hd.2.1 hd.2.2

theorem reads_const : ∀ ws : List String,
    Reads (Marks d₀ (some r)) (readConst line b r ws) fun _ d => Effect b d₀ d
  | [w] => by
    refine .bind (reads_integer w) fun word => ?_
    exact (reads_emit (i := .const r word) rfl (by simp [Instr.callee?])).weaken
      (fun d hd => ⟨hd, by simp [Instr.operands]⟩) fun _ _ h => h
  | [] => .refuse line _
  | _ :: _ :: _ => .refuse line _

theorem reads_binary (op : String) {ws : List String} (hws : ∀ w ∈ ws, IsWord w) :
    Reads (Marks d₀ (some r)) (readBinary line b r op ws) fun _ d => Effect b d₀ d := by
  rw [readBinary]
  split
  · exact .refuse line _
  · next o _ =>
    split
    · next x y =>
      refine .bind (reads_value stable_marks (hws x (by simp))) fun vx => ?_
      refine .bind (reads_value (stable_marks.and stable_mem) (hws y (by simp))) fun vy => ?_
      refine (reads_emit (i := .binary r o vx vy) rfl (by simp [Instr.callee?])).weaken ?_
        fun _ _ h => h
      rintro d ⟨⟨hd, hx⟩, hy⟩
      exact ⟨hd, by simp [Instr.operands, hx, hy]⟩
    · exact .refuse line _

theorem reads_call (o : Option Value) : ∀ ws : List String, (∀ w ∈ ws, IsWord w) →
    Reads (Marks d₀ o) (readCall line b o ws) fun _ d => Effect b d₀ d
  | [], _ => .refuse line _
  | f :: args, hws => by
    obtain ⟨hf, hargs⟩ := List.forall_mem_cons.mp hws
    rw [readCall]
    split
    · next name hname =>
      have hcallee := isWord_of_nameAfter? hf hname
      exact .bind (reads_values stable_marks hargs) fun vs =>
        reads_emit (i := .call o name vs) rfl (by simpa [Instr.callee?] using hcallee)
    · exact .refuse line _

theorem reads_phi {ws : List String} (hws : ∀ w ∈ ws, IsWord w) :
    Reads (Marks d₀ (some r)) (readPhi line b r ws) fun _ d => Effect b d₀ d := by
  rw [readPhi]
  refine .bind .look fun a => ?_
  split
  · split
    · exact .refuse line _
    · next hpairs =>
      -- the words are there and come in pairs, so there are two of them
      have hlength : 2 ≤ ws.length := by
        simp only [Bool.or_eq_true, List.isEmpty_iff, bne_iff_ne, not_or, not_not] at hpairs
        have := List.length_pos_of_ne_nil hpairs.1
        omega
      refine .bind ((reads_inputs (F := Marks d₀ (some r)) stable_marks ws ⟨r, []⟩ hws).weaken
        (fun d hd => ?_)
        fun _ _ h => h) fun p => .edit fun d hd => ?_
      · exact ⟨hd, List.Pairwise.nil, by simp⟩
      · obtain ⟨hmarks, hinputs, hresult, hne⟩ := hd
        rw [← show p.result = r from hresult] at hmarks
        exact .phi p hmarks hinputs (hne (Or.inr hlength))
  · exact .refuse line _

theorem reads_operation (op : String) {ws : List String} (hws : ∀ w ∈ ws, IsWord w) :
    Reads (Marks d₀ (some r)) (readOperation line b r op ws) fun _ d => Effect b d₀ d := by
  rw [readOperation]
  split
  · exact reads_const ws
  split
  · exact reads_phi hws
  split
  · exact reads_call (some r) ws hws
  · exact reads_binary op hws

theorem reads_jump : ∀ ws : List String,
    Reads (Mentions d₀) (readJump line b ws) fun _ d => Effect b d₀ d
  | [l] => by
    refine .bind (reads_label l) fun c => ?_
    refine (reads_finish (.jump c)).weaken (fun d hd => ?_) fun _ _ h => h
    refine ⟨hd.1, ⟨trivial, ?_⟩, by simp [Terminator.operands]⟩
    simpa using hd.2
  | [] => .refuse line _
  | _ :: _ :: _ => .refuse line _

theorem reads_branch {ws : List String} (hws : ∀ w ∈ ws, IsWord w) :
    Reads (Mentions d₀) (readBranch line b ws) fun _ d => Effect b d₀ d := by
  rw [readBranch.eq_def]
  split
  · next v t f =>
    refine .bind (reads_value stable_mentions (hws v (by simp))) fun v => ?_
    refine .bind (reads_label t) fun t => .bind (reads_label f) fun f => ?_
    refine (reads_finish (.branch v t f)).weaken ?_ fun _ _ h => h
    rintro d ⟨⟨⟨hd, hv⟩, ht⟩, hf⟩
    refine ⟨hd, ⟨trivial, ?_⟩, by simpa [Terminator.operands] using hv⟩
    simp [ht, hf]
  · exact .refuse line _

theorem reads_switch {ws : List String} (hws : ∀ w ∈ ws, IsWord w) :
    Reads (Mentions d₀) (readSwitch line b ws) fun _ d => Effect b d₀ d := by
  rw [readSwitch.eq_def]
  split
  · next v l ws =>
    split
    · exact .refuse line _
    · refine .bind (reads_value stable_mentions (hws v (by simp))) fun v =>
        .bind (reads_label l) fun c => ?_
      refine .bind ((reads_cases ws []).weaken (fun d hd => ⟨hd, List.Pairwise.nil, by simp⟩)
        fun _ _ h => h) fun cases => ?_
      refine (reads_finish (.switch v c cases)).weaken ?_ fun _ _ h => h
      rintro d ⟨⟨⟨hd, hv⟩, hc⟩, hordered, howned⟩
      refine ⟨hd, ⟨hordered, fun s hs => ?_⟩, by simpa [Terminator.operands] using hv⟩
      rw [Terminator.successors_switch, List.mem_append, List.mem_map, List.mem_singleton] at hs
      rcases hs with ⟨e, he, rfl⟩ | rfl
      · exact howned e he
      · exact hc
  · exact .refuse line _

theorem reads_return {ws : List String} (hws : ∀ w ∈ ws, IsWord w) :
    Reads (Mentions d₀) (do finish b (.ret (← readValues line ws))) fun _ d => Effect b d₀ d := by
  refine .bind (reads_values stable_mentions hws) fun vs => ?_
  refine (reads_finish (.ret vs)).weaken (fun d hd => ?_) fun _ _ h => h
  exact ⟨hd.1, ⟨trivial, by simp⟩, hd.2⟩

/-- **What an instruction does** is one of the things that a line can do. -/
theorem reads_instr {ws : List String} (hws : ∀ w ∈ ws, IsWord w) :
    Reads (· = d₀) (readInstr line b ws) fun _ d => Effect b d₀ d := by
  have hstart : ∀ d, d = d₀ → Mentions d₀ d := by
    rintro d rfl
    exact .refl
  rw [readInstr.eq_def]
  split
  · exact .refuse line _
  next w ws =>
  obtain ⟨hw, hws⟩ := List.forall_mem_cons.mp hws
  split
  · exact (reads_jump ws).weaken hstart fun _ _ h => h
  split
  · exact (reads_branch hws).weaken hstart fun _ _ h => h
  split
  · exact (reads_switch hws).weaken hstart fun _ _ h => h
  split
  · exact (reads_return hws).weaken hstart fun _ _ h => h
  split
  · exact (reads_call none ws hws).weaken (fun d hd => .nothing (hstart d hd)) fun _ _ h => h
  split
  · next e op rest _ =>
    have hrest : ∀ x ∈ rest, IsWord x := fun x hx => hws x (by simp [hx])
    split
    · exact .bind (reads_definition hw) fun r => reads_operation op hrest
    · exact .refuse line _
  · exact .refuse line _

end Source

end BranchFusion
