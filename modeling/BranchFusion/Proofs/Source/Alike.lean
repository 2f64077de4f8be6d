import BranchFusion.Proofs.Outcome
import BranchFusion.Proofs.Renaming
import BranchFusion.Proofs.Source.Reading

/-!
# Drafts that differ in numbers

A reader numbers values in the order in which they are mentioned. Two texts that mention the same
values in another order are read into drafts that are *alike* (`BranchFusion.Source.Alike`): the
same names are entered and the same are defined, and the function of one draft is that of the other
with the values of the same names in place of its values.

Which values these are is not fixed while the drafts grow. As before, everything is said for all
maps that *match* the values of the drafts by their names (`BranchFusion.Source.Matches`); when a
value is entered there are fewer of them, so what has been said remains true.

`BranchFusion.Source.Mirrors` compares two readers: if the one succeeds, so does the other, and they
end in related drafts. A reader mirrors itself in drafts that are alike, whatever the numbers of its
lines.
-/

namespace BranchFusion

namespace Source

variable {d d' e : Draft} {line line' : Line} {name word : String} {v v' : Value} {b : BlockId}
  {ν : Value → Value}

/-! ### Rules for two readers -/

/-- Readers one after the other succeed if each of them does. -/
theorem run_bind {α β : Type} {x : Read α} {f : α → Read β} {r : β × Draft} :
    (x >>= f).run d = .ok r ↔ ∃ a d₁, x.run d = .ok (a, d₁) ∧ (f a).run d₁ = .ok r := by
  rw [StateT.run_bind]
  constructor
  · intro h
    obtain ⟨⟨a, d₁⟩, hx, hf⟩ := ok_of_bind h
    exact ⟨a, d₁, hx, hf⟩
  · rintro ⟨a, d₁, hx, hf⟩
    rw [hx]
    exact hf

theorem run_refuse {α : Type} {reason : Refusal} {r : α × Draft} :
    ¬(refuse line reason : Read α).run d = .ok r := by
  intro h
  have herror : (.error ⟨line, reason⟩ : Except Error (α × Draft)) = .ok r := h
  exact absurd herror (by simp)

/-- **From drafts with the property `P`, if the first reader succeeds then so does the second, and
they end in drafts with `Q`.** -/
def Mirrors {α α' : Type} (P : Draft → Draft → Prop) (x : Read α) (x' : Read α')
    (Q : α → α' → Draft → Draft → Prop) : Prop :=
  ∀ d d', P d d' → ∀ a e, x.run d = .ok (a, e) → ∃ a' e', x'.run d' = .ok (a', e') ∧ Q a a' e e'

namespace Mirrors

variable {α α' β β' : Type} {P P' : Draft → Draft → Prop} {Q Q' : α → α' → Draft → Draft → Prop}
  {R : β → β' → Draft → Draft → Prop} {x : Read α} {x' : Read α'}

theorem bind {f : α → Read β} {f' : α' → Read β'} (hx : Mirrors P x x' Q)
    (hf : ∀ a a', Mirrors (Q a a') (f a) (f' a') R) : Mirrors P (x >>= f) (x' >>= f') R := by
  intro d d' hd c e hrun
  obtain ⟨a, d₁, hrun₁, hrun₂⟩ := run_bind.mp hrun
  obtain ⟨a', d₁', hrun₁', hd₁⟩ := hx d d' hd a d₁ hrun₁
  obtain ⟨c', e', hrun₂', he⟩ := hf a a' d₁ d₁' hd₁ c e hrun₂
  exact ⟨c', e', run_bind.mpr ⟨a', d₁', hrun₁', hrun₂'⟩, he⟩

theorem pure {a : α} {a' : α'} (h : ∀ d d', P d d' → Q a a' d d') :
    Mirrors P (pure a : Read α) (pure a' : Read α') Q := by
  intro d d' hd c e hrun
  obtain ⟨rfl, rfl⟩ : a = c ∧ d = e := Prod.mk.inj (Except.ok.inj hrun)
  exact ⟨a', d', rfl, h d d' hd⟩

/-- A reader that gives up is mirrored by every other. -/
theorem refuse (line : Line) (reason : Refusal) :
    Mirrors P (refuse line reason : Read α) x' Q :=
  fun _ _ _ _ _ hrun => absurd hrun run_refuse

/-- Looking at the drafts. -/
theorem get {f : Draft → Read β} {f' : Draft → Read β'}
    (h : ∀ d d', P d d' → Mirrors (fun e e' => e = d ∧ e' = d') (f d) (f' d') R) :
    Mirrors P (MonadState.get >>= f) (MonadState.get >>= f') R :=
  fun d d' hd c e hrun => h d d' hd d d' ⟨rfl, rfl⟩ c e hrun

theorem set {d₀ d₀' : Draft} {R : PUnit → PUnit → Draft → Draft → Prop}
    (h : ∀ d d', P d d' → R ⟨⟩ ⟨⟩ d₀ d₀') :
    Mirrors P (MonadState.set d₀ : Read PUnit) (MonadState.set d₀' : Read PUnit) R := by
  intro d d' hd c e hrun
  obtain ⟨-, rfl⟩ : _ = c ∧ d₀ = e := Prod.mk.inj (Except.ok.inj hrun)
  exact ⟨⟨⟩, d₀', rfl, h d d' hd⟩

theorem edit {f f' : Func → Func} {R : Unit → Unit → Draft → Draft → Prop}
    (h : ∀ d d', P d d' → R () () { d with func := f d.func } { d' with func := f' d'.func }) :
    Mirrors P (edit f) (edit f') R := by
  intro d d' hd c e hrun
  obtain ⟨-, rfl⟩ : _ = c ∧ _ = e := Prod.mk.inj (Except.ok.inj hrun)
  exact ⟨(), _, rfl, h d d' hd⟩

theorem weaken (h : Mirrors P' x x' Q') (hP : ∀ d d', P d d' → P' d d')
    (hQ : ∀ a a' d d', Q' a a' d d' → Q a a' d d') : Mirrors P x x' Q := by
  intro d d' hd a e hrun
  obtain ⟨a', e', hrun', he⟩ := h d d' (hP d d' hd) a e hrun
  exact ⟨a', e', hrun', hQ a a' e e' he⟩

/-- A fact that does not depend on the drafts may be used at once. -/
theorem fact {p : Prop} (h : p → Mirrors P x x' Q) : Mirrors (fun d d' => p ∧ P d d') x x' Q :=
  fun d d' hd => h hd.1 d d' hd.2

end Mirrors

/-! ### Mentioning values -/

/-- **An orderly draft**: its values carry its serial number and are numbered by their places, no
name stands for two of them, those that are defined were entered, and those that were entered are
those that were mentioned. -/
structure Draft.Orderly (d : Draft) : Prop where
  numbered : ∀ (i : Nat) (v : Value), d.func.values[i]? = some v → v.func = d.func.serial ∧ v.id = i
  unique : ∀ v ∈ d.func.values, ∀ w ∈ d.func.values, v.name = w.name → v = w
  known : ∀ v ∈ d.defined, v ∈ d.func.values
  mentioned : ∀ v, v ∈ d.mentions.map Prod.fst ↔ v ∈ d.func.values

/-- The draft after a value was mentioned, for the first time or again. -/
def Draft.note (d : Draft) (line : Line) (name : String) : Draft :=
  if d.func.taken name then d else d.enter line name

/-- The draft after some values were mentioned. -/
def Draft.noteAll (d : Draft) (line : Line) (names : List String) : Draft :=
  names.foldl (fun d name => d.note line name) d

/-- The value with a name. -/
def named (fn : Func) (name : String) : Value :=
  (fn.values.find? fun v => v.name = name).getD default

theorem taken_iff {fn : Func} : fn.taken name = true ↔ ∃ v ∈ fn.values, v.name = name := by
  simp only [Func.taken, Array.any_eq_true', decide_eq_true_eq]

theorem named_of_taken {fn : Func} (h : fn.taken name = true) :
    named fn name ∈ fn.values ∧ (named fn name).name = name := by
  obtain ⟨v, hv, hname⟩ := taken_iff.mp h
  rw [named]
  cases hfind : fn.values.find? fun w => w.name = name with
  | none => exact absurd hname (by simpa using Array.find?_eq_none.mp hfind v hv)
  | some w => exact ⟨Array.mem_of_find?_eq_some hfind, by simpa using Array.find?_some hfind⟩

theorem Draft.Orderly.named_eq (h : d.Orderly) (hv : v ∈ d.func.values) :
    named d.func v.name = v := by
  obtain ⟨hmem, hname⟩ := named_of_taken (taken_iff.mpr ⟨v, hv, rfl⟩)
  exact h.unique _ hmem v hv hname

theorem Draft.Orderly.enter (h : d.Orderly) (hnew : ¬d.func.taken name = true) (line : Line) :
    (d.enter line name).Orderly := by
  have hunknown : ∀ v ∈ d.func.values, v.name ≠ name := fun v hv heq =>
    hnew (taken_iff.mpr ⟨v, hv, heq⟩)
  constructor
  case numbered =>
    intro i v hv
    have hpush : (d.func.values.push ⟨d.func.serial, d.func.values.size, name⟩)[i]? = some v := hv
    rw [Array.getElem?_push] at hpush
    split at hpush
    · next hi =>
      obtain rfl := Option.some.inj hpush
      exact ⟨rfl, hi.symm⟩
    · exact h.numbered i v hpush
  case unique =>
    intro v hv w hw heq
    rcases mem_values_enter.mp hv with hv | rfl
    · rcases mem_values_enter.mp hw with hw | rfl
      · exact h.unique v hv w hw heq
      · exact absurd heq (hunknown v hv)
    · rcases mem_values_enter.mp hw with hw | rfl
      · exact absurd heq.symm (hunknown w hw)
      · rfl
  case known => exact fun v hv => mem_values_enter.mpr (Or.inl (h.known v hv))
  case mentioned =>
    intro v
    rw [mem_values_enter, ← h.mentioned, Draft.enter, List.map_append, List.mem_append,
      List.map_singleton, List.mem_singleton]
    rfl

section Noting

variable {names : List String}

theorem Draft.Orderly.note (h : d.Orderly) (line : Line) (name : String) :
    (d.note line name).Orderly := by
  rw [Draft.note]
  split
  · exact h
  · next hnew => exact h.enter hnew line

theorem Draft.Orderly.noteAll (h : d.Orderly) (line : Line) (names : List String) :
    (d.noteAll line names).Orderly := by
  induction names generalizing d with
  | nil => exact h
  | cons name names ih => exact ih (h.note line name)

/-- Mentioning values touches the table of values, and the mentions. -/
theorem func_noteAll (d : Draft) (line : Line) (names : List String) :
    (d.noteAll line names).func = { d.func with values := (d.noteAll line names).func.values } := by
  induction names generalizing d with
  | nil => rfl
  | cons name names ih =>
    have hnote : (d.note line name).func =
        { d.func with values := (d.note line name).func.values } := by
      rw [Draft.note]
      split <;> rfl
    have hrest := ih (d.note line name)
    rw [hnote] at hrest
    exact hrest

theorem defined_noteAll (d : Draft) (line : Line) (names : List String) :
    (d.noteAll line names).defined = d.defined := by
  induction names generalizing d with
  | nil => rfl
  | cons name names ih =>
    refine (ih (d.note line name)).trans ?_
    rw [Draft.note]
    split <;> rfl

theorem mem_values_noteAll (hv : v ∈ d.func.values) :
    v ∈ (d.noteAll line names).func.values := by
  induction names generalizing d with
  | nil => exact hv
  | cons name names ih =>
    have hnote : v ∈ (d.note line name).func.values := by
      rw [Draft.note]
      split
      · exact hv
      · exact mem_values_enter.mpr (Or.inl hv)
    exact ih hnote

/-- The names that are taken after some were mentioned. -/
theorem taken_noteAll : (d.noteAll line names).func.taken name = true ↔
    d.func.taken name = true ∨ name ∈ names := by
  induction names generalizing d with
  | nil => simp [Draft.noteAll]
  | cons n names ih =>
    have hnote : (d.note line n).func.taken name = true ↔ d.func.taken name = true ∨ name = n := by
      rw [Draft.note]
      split
      · next hn =>
        refine ⟨Or.inl, ?_⟩
        rintro (h | rfl)
        · exact h
        · exact hn
      · rw [taken_iff, taken_iff]
        constructor
        · rintro ⟨v, hv, rfl⟩
          rcases mem_values_enter.mp hv with hv | rfl
          · exact Or.inl ⟨v, hv, rfl⟩
          · exact Or.inr rfl
        · rintro (⟨v, hv, rfl⟩ | rfl)
          · exact ⟨v, mem_values_enter.mpr (Or.inl hv), rfl⟩
          · exact ⟨_, mem_values_enter.mpr (Or.inr rfl), rfl⟩
    rw [List.mem_cons, ← or_assoc, ← hnote]
    exact ih

theorem taken_note (d : Draft) (line : Line) (name : String) :
    (d.note line name).func.taken name = true := by
  have h : (d.noteAll line [name]).func.taken name = true :=
    taken_noteAll.mpr (Or.inr (List.mem_singleton.mpr rfl))
  exact h

/-- A value that was entered is found in all later drafts. -/
theorem Draft.Orderly.named_noteAll (h : d.Orderly) (hname : d.func.taken name = true) :
    named (d.noteAll line names).func name = named d.func name := by
  obtain ⟨hmem, heq⟩ := named_of_taken hname
  have hlater : named d.func name ∈ (d.noteAll line names).func.values := mem_values_noteAll hmem
  have hfound := (h.noteAll line names).named_eq hlater
  rwa [heq] at hfound

end Noting

/-- **Reading a value** notes its name, and gives the value with this name. -/
theorem run_readValue : (readValue line word).run d = .ok (v, e) ↔
    ∃ name, nameAfter? '%' word = some name ∧ e = d.note line name ∧ v = named e.func name := by
  cases hname : nameAfter? '%' word with
  | none =>
    have hrun : (readValue line word).run d = .error ⟨line, .invalidValue word⟩ := by
      rw [readValue, hname]
      rfl
    simp [hrun]
  | some name =>
    have hrun : (readValue line word).run d =
        .ok (named (d.note line name).func name, d.note line name) := by
      simp only [readValue, hname, StateT.run_bind, StateT.run_get, pure_bind,
        value?_of_nameAfter? d.func hname]
      rw [Draft.note, named]
      cases hfind : d.func.values.find? fun v => v.name = name with
      | some w =>
        have htaken : d.func.taken name = true := taken_iff.mpr
          ⟨w, Array.mem_of_find?_eq_some hfind, by simpa using Array.find?_some hfind⟩
        rw [if_pos htaken, hfind]
        rfl
      | none =>
        have hnew : ¬d.func.taken name = true := fun h => by
          obtain ⟨v, hv, hname⟩ := taken_iff.mp h
          exact absurd hname (by simpa using Array.find?_eq_none.mp hfind v hv)
        have hpush : (d.enter line name).func.values.find? (fun v => v.name = name) =
            some (d.func.define name).1 := by
          show (d.func.values.push _).find? _ = _
          rw [Array.find?_push, hfind]
          simp [Func.define]
        rw [if_neg hnew, hpush]
        rfl
    rw [hrun]
    simp only [Except.ok.injEq, Prod.mk.injEq, Option.some.injEq, exists_eq_left']
    constructor
    · rintro ⟨rfl, rfl⟩
      exact ⟨rfl, rfl⟩
    · rintro ⟨rfl, rfl⟩
      exact ⟨rfl, rfl⟩

/-! ### Drafts that are alike -/

/-- A map that **matches** the values of two drafts by their names. -/
def Matches (d d' : Draft) (ν : Value → Value) : Prop :=
  ∀ v ∈ d.func.values, ∀ v' ∈ d'.func.values, v'.name = v.name → ν v = v'

/-- **Drafts that differ in numbers**: the same names are entered, the same are defined, and the
function of the second is that of the first with other values. -/
structure Alike (d d' : Draft) : Prop where
  left : d.Orderly
  right : d'.Orderly
  names : ∀ name, d'.func.taken name = true ↔ d.func.taken name = true
  defined : d'.defined.map Value.name = d.defined.map Value.name
  func : ∀ ν, Matches d d' ν → d'.func = d.func.rename ν d'.func.values

/-- Drafts that are alike, and what is known of the values that were read. -/
def Related (G : (Value → Value) → Prop) (d d' : Draft) : Prop :=
  Alike d d' ∧ ∀ ν, Matches d d' ν → G ν

/-- The values of one draft can be matched with those of another. -/
theorem Draft.Orderly.exists_matches (h : d'.Orderly) : ∃ ν, Matches d d' ν := by
  refine ⟨fun v => named d'.func v.name, fun v _ v' hv' hname => ?_⟩
  show named d'.func v.name = v'
  rw [← hname, h.named_eq hv']

/-- Two functions with the same blocks and edges. -/
theorem Alike.exists_rename (h : Alike d d') : ∃ ν vs, d'.func = d.func.rename ν vs :=
  h.right.exists_matches.imp fun ν hν => ⟨_, h.func ν hν⟩

/-- **Mentioning the same names**, in any order, leaves drafts alike. -/
theorem Alike.noteAll (h : Alike d d') {names names' : List String}
    (hnames : ∀ n, n ∈ names' ↔ n ∈ names) :
    Alike (d.noteAll line names) (d'.noteAll line' names') := by
  refine ⟨h.left.noteAll line names, h.right.noteAll line' names', fun n => ?_, ?_, fun ν hν => ?_⟩
  · rw [taken_noteAll, taken_noteAll, h.names, hnames]
  · rw [defined_noteAll, defined_noteAll, h.defined]
  · have hmatches : Matches d d' ν := fun v hv v' hv' =>
      hν v (mem_values_noteAll hv) v' (mem_values_noteAll hv')
    rw [func_noteAll d' line' names', func_noteAll d line names, h.func ν hmatches]
    rfl

theorem Matches.of_noteAll (names names' : List String)
    (h : Matches (d.noteAll line names) (d'.noteAll line' names') ν) : Matches d d' ν :=
  fun v hv v' hv' => h v (mem_values_noteAll hv) v' (mem_values_noteAll hv')

/-- A map that matches the values sends a value to the one with the same name. -/
theorem Matches.named (h : Matches d d' ν) (hname : d.func.taken name = true)
    (hname' : d'.func.taken name = true) : ν (named d.func name) = Source.named d'.func name := by
  obtain ⟨hmem, heq⟩ := named_of_taken hname
  obtain ⟨hmem', heq'⟩ := named_of_taken hname'
  exact h _ hmem _ hmem' (heq'.trans heq.symm)

section Edits

variable {G : (Value → Value) → Prop}

/-- **An edit that does not look at values** leaves drafts alike. -/
theorem Related.edit (h : Related G d d') (f f' : Func → Func)
    (hf : ∀ fn, (f fn).serial = fn.serial ∧ (f fn).values = fn.values)
    (hf' : ∀ fn, (f' fn).serial = fn.serial ∧ (f' fn).values = fn.values)
    (hrename : ∀ ν, G ν → ∀ vs, f' (d.func.rename ν vs) = (f d.func).rename ν vs) :
    Alike { d with func := f d.func } { d' with func := f' d'.func } := by
  have horderly : ∀ {d : Draft} {f : Func → Func},
      (∀ fn, (f fn).serial = fn.serial ∧ (f fn).values = fn.values) → d.Orderly →
        Draft.Orderly { d with func := f d.func } := by
    intro d f hf hd
    obtain ⟨hserial, hvalues⟩ := hf d.func
    refine ⟨?_, ?_, ?_, ?_⟩
    all_goals simp only [hserial, hvalues]
    · exact hd.numbered
    · exact hd.unique
    · exact hd.known
    · exact hd.mentioned
  obtain ⟨halike, hG⟩ := h
  refine ⟨horderly hf halike.left, horderly hf' halike.right, fun n => ?_, halike.defined,
    fun ν hν => ?_⟩
  · simp only [Func.taken, (hf _).2, (hf' _).2]
    exact halike.names n
  · have hmatches : Matches d d' ν := by
      simpa only [Matches, (hf _).2, (hf' _).2] using hν
    dsimp only
    rw [(hf' _).2]
    nth_rewrite 1 [halike.func ν hmatches]
    exact hrename ν (hG ν hmatches) _

/-- An edit of one block. -/
theorem Related.modify (h : Related G d d') {f f' : Block → Block}
    (hf : ∀ ν, G ν → ∀ bb, f' (bb.rename ν) = (f bb).rename ν) :
    Alike { d with func := d.func.modify b f } { d' with func := d'.func.modify b f' } :=
  h.edit _ _ (fun _ => ⟨Func.serial_modify, Func.values_modify⟩)
    (fun _ => ⟨Func.serial_modify, Func.values_modify⟩)
    fun ν hν vs => Func.modify_rename ν vs d.func b (hf ν hν)

/-- Marking values of the same name as defined. -/
theorem Related.mark (h : Related (fun ν => G ν ∧ ν v = v') d d') (hv : v ∈ d.func.values)
    (hv' : v' ∈ d'.func.values) (hname : v'.name = v.name) :
    Related (fun ν => G ν ∧ ν v = v') { d with defined := v :: d.defined }
      { d' with defined := v' :: d'.defined } := by
  obtain ⟨halike, hG⟩ := h
  have horderly : ∀ {d : Draft} {v : Value}, d.Orderly → v ∈ d.func.values →
      Draft.Orderly { d with defined := v :: d.defined } := fun hd hv =>
    ⟨hd.numbered, hd.unique, List.forall_mem_cons.mpr ⟨hv, hd.known⟩, hd.mentioned⟩
  refine ⟨⟨horderly halike.left hv, horderly halike.right hv', halike.names, ?_, halike.func⟩, hG⟩
  rw [List.map_cons, List.map_cons, hname, halike.defined]

end Edits

/-! ### Readers of the same words -/

section Words

variable {G : (Value → Value) → Prop}

theorem mirrors_value_mem : Mirrors (Related G) (readValue line word) (readValue line' word)
    fun v v' d d' => (v ∈ d.func.values ∧ v' ∈ d'.func.values ∧ v'.name = v.name) ∧
      Related (fun ν => G ν ∧ ν v = v') d d' := by
  rintro d d' ⟨halike, hG⟩ v e hrun
  obtain ⟨name, hname, rfl, rfl⟩ := run_readValue.mp hrun
  have hnoted : Alike (d.noteAll line [name]) (d'.noteAll line' [name]) :=
    halike.noteAll fun _ => Iff.rfl
  have htaken : (d.noteAll line [name]).func.taken name = true :=
    taken_noteAll.mpr (Or.inr (by simp))
  have htaken' := (hnoted.names name).mpr htaken
  obtain ⟨hmem, hvname⟩ := named_of_taken htaken
  obtain ⟨hmem', hvname'⟩ := named_of_taken htaken'
  refine ⟨_, _, run_readValue.mpr ⟨name, hname, rfl, rfl⟩,
    ⟨hmem, hmem', hvname'.trans hvname.symm⟩, hnoted, fun ν hν => ⟨hG ν ?_, ?_⟩⟩
  · exact Matches.of_noteAll [name] [name] hν
  · exact Matches.named (d := d.noteAll line [name]) hν htaken htaken'

/-- **The same word** stands for values of the same name. -/
theorem mirrors_value : Mirrors (Related G) (readValue line word) (readValue line' word)
    fun v v' => Related fun ν => G ν ∧ ν v = v' :=
  mirrors_value_mem.weaken (fun _ _ hd => hd) fun _ _ _ _ hd => hd.2

theorem mirrors_values : ∀ (ws : List String) {G : (Value → Value) → Prop},
    Mirrors (Related G) (readValues line ws) (readValues line' ws)
      fun vs vs' => Related fun ν => G ν ∧ vs.map ν = vs'
  | [], _ => .pure fun _ _ hd => ⟨hd.1, fun ν hν => ⟨hd.2 ν hν, rfl⟩⟩
  | w :: ws, G => by
    rw [readValues, readValues]
    refine .bind mirrors_value fun v v' => ?_
    refine .bind (mirrors_values ws) fun vs vs' => .pure fun d d' hd => ⟨hd.1, fun ν hν => ?_⟩
    obtain ⟨⟨hG, rfl⟩, rfl⟩ := hd.2 ν hν
    exact ⟨hG, rfl⟩

theorem mirrors_definition : Mirrors (Related G) (readDefinition line word)
    (readDefinition line' word) fun v v' => Related fun ν => G ν ∧ ν v = v' := by
  rw [readDefinition, readDefinition]
  refine .bind mirrors_value_mem fun v v' => .get fun d d' hd => ?_
  obtain ⟨⟨hv, hv', hname⟩, hrelated⟩ := hd
  split
  · exact .refuse line _
  · next hnew =>
    -- a value of the second draft that is defined has the name of one that is defined in the first
    have hnew' : ¬d'.defined.contains v' = true := by
      intro hmem
      have hnames := List.mem_map_of_mem (f := Value.name) (List.contains_iff_mem.mp hmem)
      rw [hrelated.1.defined, hname] at hnames
      obtain ⟨w, hw, hwname⟩ := List.mem_map.mp hnames
      have hwv := hrelated.1.left.unique w (hrelated.1.left.known w hw) v hv hwname
      exact hnew (List.contains_iff_mem.mpr (hwv ▸ hw))
    rw [if_neg hnew']
    refine .bind (.set (R := fun _ _ => Related fun ν => G ν ∧ ν v = v') ?_)
      fun _ _ => .pure fun _ _ hd => hd
    exact fun _ _ _ => hrelated.mark hv hv' hname

/-- The block with a label. -/
def labelled? (fn : Func) (word : String) : Option BlockId :=
  fn.ids.find? fun b => (fn.block b).label = word

theorem labelled?_rename (ν : Value → Value) (vs : Array Value) (fn : Func) :
    labelled? (fn.rename ν vs) = labelled? fn := by
  funext word
  simp only [labelled?, Func.ids_rename, Func.block_rename]
  rfl

theorem Alike.labelled? (h : Alike d d') : labelled? d'.func = Source.labelled? d.func := by
  obtain ⟨ν, vs, heq⟩ := h.exists_rename
  rw [heq, labelled?_rename]

theorem run_readLabel {c : BlockId} : (readLabel line word).run d = .ok (c, e) ↔
    e = d ∧ labelled? d.func word = some c := by
  cases hfind : labelled? d.func word with
  | none =>
    have hrun : (readLabel line word).run d = .error ⟨line, .undefinedLabel word⟩ := by
      rw [labelled?] at hfind
      simp only [readLabel, StateT.run_bind, StateT.run_get, pure_bind, hfind]
      rfl
    simp [hrun]
  | some b =>
    have hrun : (readLabel line word).run d = .ok (b, d) := by
      rw [labelled?] at hfind
      simp only [readLabel, StateT.run_bind, StateT.run_get, pure_bind, hfind]
      rfl
    simp [hrun, eq_comm, and_comm]

/-- **The same label** leads to the same block. -/
theorem mirrors_label : Mirrors (Related G) (readLabel line word) (readLabel line' word)
    fun c c' d d' => c' = c ∧ Related G d d' := by
  intro d d' hd c e hrun
  obtain ⟨rfl, hc⟩ := run_readLabel.mp hrun
  exact ⟨c, d', run_readLabel.mpr ⟨rfl, by rwa [hd.1.labelled?]⟩, rfl, hd⟩

theorem mirrors_integer {P : Draft → Draft → Prop} : Mirrors P (readInteger line word)
    (readInteger line' word) fun i i' d d' => i' = i ∧ P d d' := by
  rw [readInteger, readInteger]
  split
  · exact .pure fun _ _ hd => ⟨rfl, hd⟩
  · exact .refuse line _

end Words

/-! ### Instructions -/

section Instructions

variable {G : (Value → Value) → Prop} {r r' : Value}

theorem mirrors_emit {i i' : Instr} (hi : ∀ ν, G ν → i.rename ν = i') :
    Mirrors (Related G) (emit b i) (emit b i') fun _ _ => Alike :=
  .edit fun _ _ hd => hd.modify fun ν hν bb => by rw [← hi ν hν, Block.append_rename]

theorem mirrors_finish {t t' : Terminator} (ht : ∀ ν, G ν → t.rename id ν = t') :
    Mirrors (Related G) (finish b t) (finish b t') fun _ _ => Alike := by
  have hkept : ∀ (t : Terminator) (fn : Func), (fn.terminate b t).serial = fn.serial ∧
      (fn.terminate b t).values = fn.values := fun t fn => by
    rw [Func.terminate_eq]
    exact ⟨Func.serial_modifyAll, Func.values_modifyAll⟩
  refine .edit fun d _ hd => hd.edit _ _ (hkept t) (hkept t') fun ν hν vs => ?_
  rw [← ht ν hν]
  exact Func.terminate_rename ν vs d.func b t

theorem mirrors_const (ws : List String) :
    Mirrors (Related fun ν => ν r = r') (readConst line b r ws) (readConst line' b r' ws)
      fun _ _ => Alike := by
  rw [readConst.eq_def, readConst.eq_def]
  split
  · refine .bind mirrors_integer fun w w' => .fact fun hw => ?_
    subst hw
    exact mirrors_emit fun ν hν => by rw [Instr.rename, hν]
  · exact .refuse line _

theorem mirrors_binary (op : String) (ws : List String) :
    Mirrors (Related fun ν => ν r = r') (readBinary line b r op ws) (readBinary line' b r' op ws)
      fun _ _ => Alike := by
  rw [readBinary, readBinary]
  split
  · exact .refuse line _
  · split
    · refine .bind mirrors_value fun x x' => .bind mirrors_value fun y y' => ?_
      refine mirrors_emit fun ν hν => ?_
      obtain ⟨⟨rfl, rfl⟩, rfl⟩ := hν
      rfl
    · exact .refuse line _

theorem mirrors_call {o o' : Option Value} (ws : List String) :
    Mirrors (Related fun ν => o.map ν = o') (readCall line b o ws) (readCall line' b o' ws)
      fun _ _ => Alike := by
  rw [readCall.eq_def, readCall.eq_def]
  split
  · split
    · refine .bind (mirrors_values _) fun vs vs' => mirrors_emit fun ν hν => ?_
      obtain ⟨rfl, rfl⟩ := hν
      rfl
    · exact .refuse line _
  · exact .refuse line _

/-- Nothing is known of values that were read. -/
theorem Alike.related (h : Alike d d') : Related (fun _ => True) d d' := ⟨h, fun _ _ => trivial⟩

theorem mirrors_jump (ws : List String) :
    Mirrors (Related fun _ => True) (readJump line b ws) (readJump line' b ws)
      fun _ _ => Alike := by
  rw [readJump.eq_def, readJump.eq_def]
  split
  · refine .bind mirrors_label fun c c' => .fact fun hc => ?_
    subst hc
    exact mirrors_finish fun _ _ => rfl
  · exact .refuse line _

theorem mirrors_branch (ws : List String) :
    Mirrors (Related fun _ => True) (readBranch line b ws) (readBranch line' b ws)
      fun _ _ => Alike := by
  rw [readBranch.eq_def, readBranch.eq_def]
  split
  · refine .bind mirrors_value fun v v' => ?_
    refine .bind mirrors_label fun c c' => .fact fun hc => ?_
    refine .bind mirrors_label fun e e' => .fact fun he => ?_
    subst hc he
    refine mirrors_finish fun ν hν => ?_
    obtain ⟨-, rfl⟩ := hν
    rfl
  · exact .refuse line _

theorem mirrors_return (ws : List String) :
    Mirrors (Related fun _ => True) (do finish b (.ret (← readValues line ws)))
      (do finish b (.ret (← readValues line' ws))) fun _ _ => Alike := by
  refine .bind (mirrors_values ws) fun vs vs' => mirrors_finish fun ν hν => ?_
  obtain ⟨-, rfl⟩ := hν
  rfl

theorem mirrors_params : ∀ ws : List String,
    Mirrors Alike (readParams line ws) (readParams line' ws) fun _ _ => Alike
  | [] => .pure fun _ _ hd => hd
  | w :: ws => by
    rw [readParams, readParams]
    refine .bind (mirrors_definition.weaken (fun _ _ => Alike.related) fun _ _ _ _ hd => hd)
      fun p p' => ?_
    refine .bind (.edit (R := fun _ _ => Alike) fun d d' hd => ?_) fun _ _ => mirrors_params ws
    refine hd.edit (fun fn => { fn with params := fn.params ++ [p] })
      (fun fn => { fn with params := fn.params ++ [p'] }) (fun _ => ⟨rfl, rfl⟩)
      (fun _ => ⟨rfl, rfl⟩) fun ν hν vs => ?_
    obtain ⟨-, rfl⟩ := hν
    simp [Func.rename]

end Instructions

end Source

end BranchFusion
