import BranchFusion.CommandLine.Tool
import BranchFusion.Proofs.Outcome
import Mathlib.Data.List.Forall2

/-!
# All results or none

The command `opt` takes its inputs one after the other, and delivers nothing until all of them have
been optimised. Up to that point the world stays *quiet* (`BranchFusion.World.Quiet`): the files are
what they were, and nothing has been printed on the standard output. So every input is read as if it
were the only one (`BranchFusion.Tool.optimizeFiles_cases`), whatever the inputs before it are and
wherever the result goes. Only the standard input can be read no more than once.
-/

namespace BranchFusion

/-- **Nothing was delivered** from one world to the next. What was read of the standard input, the
standard error and the notes do not matter. -/
structure World.Quiet (w w' : World) : Prop where
  files : w'.files = w.files
  out : w'.out = w.out

theorem World.Quiet.refl (w : World) : w.Quiet w := ⟨rfl, rfl⟩

theorem World.Quiet.trans {w w' w'' : World} (h : w.Quiet w') (h' : w'.Quiet w'') : w.Quiet w'' :=
  ⟨h'.files.trans h.files, h'.out.trans h.out⟩

/-- Whether a file can be written does not depend on what is written. -/
theorem FileTree.exists_write {t t' : FileTree} {path content : String}
    (h : t.write path content = .ok t') (content' : String) :
    ∃ t'', t.write path content' = .ok t'' := by
  rw [write] at h ⊢
  split at h
  · cases hfollow : t.follow path (bareComponents path).dropLast <;>
      simp [hfollow, bind, Except.bind, Except.mapError] at h
  · next hpath =>
    rw [if_neg hpath]
    cases hresolve : t.resolve path with
    | error e => simp [hresolve, bind, Except.bind, Except.mapError] at h
    | ok place =>
      simp only [hresolve, bind, Except.bind, writeAt] at h ⊢
      split
      · next hentry => simp [hentry, Except.mapError] at h
      · exact ⟨_, rfl⟩
      · exact ⟨_, rfl⟩

namespace Tool

section Actions

variable {α β ε : Type} {x : Action (StateM World) α} {f : α → Action (StateM World) β}
  {w : World} {a : α}

/-! ### Actions in a world -/

/-- Does something in a world. -/
def perform (x : Action (StateM World) α) (w : World) : Except ToolError α × World :=
  x.run.run w

theorem perform_pure : perform (pure a) w = (.ok a, w) := rfl

/-- One thing after the other, up to the first error. -/
theorem perform_bind : perform (x >>= f) w =
    match perform x w with
    | (.ok a, w') => perform (f a) w'
    | (.error e, w') => (.error e, w') := by
  have hbind : perform (x >>= f) w =
      (ExceptT.bindCont f (perform x w).1).run (perform x w).2 := rfl
  rw [hbind]
  generalize perform x w = r
  obtain ⟨a | e, w'⟩ := r
  · rfl
  · rfl

theorem perform_onHost (y : StateM World α) :
    perform (onHost y) w = (.ok (y.run w).1, (y.run w).2) :=
  rfl

theorem perform_orFail (wrap : ε → ToolError) (r : Except ε α) :
    perform (orFail wrap r) w = (r.mapError wrap, w) := by
  cases r <;> rfl

end Actions

/-! ### Inputs -/

section Inputs

variable {w w' : World} {file : String}

/-- The content of an input. -/
def sourceOf (w : World) (file : String) : Except ToolError String :=
  (perform (readSource file) w).1

theorem sourceOf_of_ne (hfile : file ≠ "-") :
    sourceOf w file = (w.files.read file).mapError .file := by
  rw [sourceOf, readSource, if_neg hfile, perform_bind, perform_onHost]
  dsimp only
  rw [perform_orFail]
  rfl

/-- What an input is optimised to. -/
def optimized (o : Options) (w : World) (file : String) : Except ToolError String :=
  match sourceOf w file with
  | .error e => .error e
  | .ok src =>
    ((Optimizer.optimize .builtin o src).outcome.mapError (.optimize file)).map Prod.fst

theorem perform_readSource (w : World) (file : String) : ∃ w₁,
    perform (readSource file) w = (sourceOf w file, w₁) ∧ w.Quiet w₁ ∧
      (file ≠ "-" → w₁.input = w.input) := by
  refine ⟨(perform (readSource file) w).2, rfl, ?_⟩
  rw [readSource]
  by_cases hfile : file = "-"
  · rw [if_pos hfile]
    exact ⟨⟨rfl, rfl⟩, fun h => absurd hfile h⟩
  · rw [if_neg hfile, perform_bind, perform_onHost]
    dsimp only
    rw [perform_orFail]
    exact ⟨⟨rfl, rfl⟩, fun _ => rfl⟩

/-- An input is what it was in a quiet world, unless it is the standard input and has been read. -/
theorem sourceOf_eq (h : w.Quiet w') (hinput : file = "-" → w'.input = w.input) :
    sourceOf w' file = sourceOf w file := by
  by_cases hfile : file = "-"
  · subst hfile
    exact congrArg Except.ok (hinput rfl)
  · rw [sourceOf_of_ne hfile, sourceOf_of_ne hfile, h.files]

/-- Something that is done *aside*: it cannot fail, delivers nothing, and does not touch the
standard input. -/
def Aside (x : Action (StateM World) Unit) : Prop :=
  ∀ w, ∃ w₁, perform x w = (.ok (), w₁) ∧ w.Quiet w₁ ∧ w₁.input = w.input

theorem aside_putErr (s : String) : Aside (onHost (Host.putErr s)) :=
  fun w => ⟨{ w with err := w.err ++ s }, rfl, ⟨rfl, rfl⟩, rfl⟩

theorem aside_note (e : JournalEntry) : Aside (onHost (Host.note e)) :=
  fun w => ⟨{ w with notes := w.notes.push e }, rfl, ⟨rfl, rfl⟩, rfl⟩

theorem aside_forM {α : Type} {f : α → Action (StateM World) Unit} (hf : ∀ a, Aside (f a)) :
    ∀ as : List α, Aside (as.forM f)
  | [] => fun w => ⟨w, rfl, .refl w, rfl⟩
  | a :: as => fun w => by
    obtain ⟨w₁, hfirst, hquiet₁, hinput₁⟩ := hf a w
    obtain ⟨w₂, hrest, hquiet₂, hinput₂⟩ := aside_forM hf as w₁
    refine ⟨w₂, ?_, hquiet₁.trans hquiet₂, hinput₂.trans hinput₁⟩
    rw [List.forM, perform_bind, hfirst]
    exact hrest

/-- What is done aside, or not, makes no difference to what is done next. -/
theorem Aside.perform_if {α : Type} {x : Action (StateM World) Unit} (h : Aside x) (aside : Bool)
    (next : Action (StateM World) α) (w : World) : ∃ w₁, w.Quiet w₁ ∧ w₁.input = w.input ∧
      perform (if aside then (do x; next) else next) w = perform next w₁ := by
  cases aside with
  | false => exact ⟨w, .refl w, rfl, rfl⟩
  | true =>
    obtain ⟨w₁, hperform, hquiet, hinput⟩ := h w
    refine ⟨w₁, hquiet, hinput, ?_⟩
    rw [if_pos rfl, perform_bind, hperform]

/-- **One input, and then the others.** -/
theorem perform_optimizeFiles_cons (o : Options) (stats notes : Bool) (w : World) (file : String)
    (files : List String) : ∃ w₁, w.Quiet w₁ ∧ (file ≠ "-" → w₁.input = w.input) ∧
      perform (optimizeFiles o stats notes (file :: files)) w =
        match optimized o w file with
        | .error e => (.error e, w₁)
        | .ok text =>
          match perform (optimizeFiles o stats notes files) w₁ with
          | (.ok texts, w₂) => (.ok (text :: texts), w₂)
          | (.error e, w₂) => (.error e, w₂) := by
  obtain ⟨w₁, hread, hquiet₁, hinput₁⟩ := perform_readSource w file
  rw [optimizeFiles, perform_bind, hread, optimized]
  cases sourceOf w file with
  | error e => exact ⟨w₁, hquiet₁, hinput₁, rfl⟩
  | ok src =>
    dsimp only
    obtain ⟨w₂, hquiet₂, hinput₂, hnotes⟩ := (aside_forM aside_note
      (Optimizer.optimize .builtin o src).journal.toList).perform_if notes _ w₁
    rw [hnotes, perform_bind, perform_orFail]
    have hquiet := hquiet₁.trans hquiet₂
    cases (Optimizer.optimize .builtin o src).outcome with
    | error e => exact ⟨w₂, hquiet, fun hfile => hinput₂.trans (hinput₁ hfile), rfl⟩
    | ok r =>
      obtain ⟨text, changed, counters⟩ := r
      dsimp only [Except.mapError]
      obtain ⟨w₃, hquiet₃, hinput₃, hstats⟩ :=
        (aside_putErr (statistics file counters)).perform_if stats _ w₂
      rw [hstats, perform_bind]
      refine ⟨w₃, hquiet.trans hquiet₃,
        fun hfile => hinput₃.trans (hinput₂.trans (hinput₁ hfile)), ?_⟩
      cases perform (optimizeFiles o stats notes files) w₃ with
      | mk result w₄ => cases result <;> rfl

theorem optimized_eq (o : Options) (h : w.Quiet w') (hinput : file = "-" → w'.input = w.input) :
    optimized o w' file = optimized o w file := by
  rw [optimized, optimized, sourceOf_eq h hinput]

/-- **All inputs are optimised, or one of them cannot be**, each as if it were the only one. -/
theorem optimizeFiles_cases (o : Options) (stats notes : Bool) :
    ∀ (files : List String) (w : World), files.count "-" ≤ 1 →
      w.Quiet (perform (optimizeFiles o stats notes files) w).2 ∧
      ((∃ texts, (perform (optimizeFiles o stats notes files) w).1 = .ok texts ∧
          List.Forall₂ (fun file text => optimized o w file = .ok text) files texts) ∨
        ∃ file ∈ files, ∃ e, (perform (optimizeFiles o stats notes files) w).1 = .error e ∧
          optimized o w file = .error e)
  | [], w, _ => ⟨.refl w, Or.inl ⟨[], rfl, .nil⟩⟩
  | file :: files, w, hdash => by
    obtain ⟨w₁, hquiet, hinput, hperform⟩ :=
      perform_optimizeFiles_cons o stats notes w file files
    rw [List.count_cons] at hdash
    obtain ⟨hquiet', hcases⟩ := optimizeFiles_cases o stats notes files w₁ (by omega)
    -- whatever the first input is, the others are what they were
    have hsame : ∀ other ∈ files, optimized o w₁ other = optimized o w other := by
      intro other hother
      refine optimized_eq o hquiet fun hdashed => hinput ?_
      rintro rfl
      have hcount := List.count_pos_iff.mpr (hdashed ▸ hother)
      rw [if_pos (beq_self_eq_true "-")] at hdash
      omega
    rw [hperform]
    cases hfirst : optimized o w file with
    | error e => exact ⟨hquiet, Or.inr ⟨file, by simp, e, rfl, hfirst⟩⟩
    | ok text =>
      dsimp only
      generalize perform (optimizeFiles o stats notes files) w₁ = r at hquiet' hcases ⊢
      obtain ⟨result, w₂⟩ := r
      rcases hcases with ⟨texts, rfl, htexts⟩ | ⟨other, hother, e, rfl, he⟩
      · refine ⟨hquiet.trans hquiet', Or.inl ⟨text :: texts, rfl, .cons hfirst ?_⟩⟩
        exact ((List.forall₂_and_left ..).mpr ⟨hsame, htexts⟩).imp fun _ _ h => h.1.symm.trans h.2
      · refine ⟨hquiet.trans hquiet', Or.inr ⟨other, List.mem_cons_of_mem file hother, e, rfl, ?_⟩⟩
        exact (hsame other hother).symm.trans he

end Inputs

/-! ### The command -/

section Command

variable {decode : Config.Decoder} {w : World} {file text : String} {o defaults : Options}
  {a : Arguments}

/-- The options that a configuration and flags come to. -/
def optionsOf (decode : Config.Decoder) (defaults : Options) (a : Arguments)
    (w : World) : Except ToolError Options := do
  let o ← (perform (loadOptions decode defaults (a.text .config)) w).1
  let given ← flagSettings a
  return given.apply o

/-- An action is *idle* if it leaves the world as it is. -/
def Idle {α : Type} (x : Action (StateM World) α) : Prop := ∀ w, (perform x w).2 = w

theorem idle_pure {α : Type} (a : α) : Idle (pure a) := fun _ => congrArg Prod.snd perform_pure

theorem idle_orFail {α ε : Type} (wrap : ε → ToolError) (r : Except ε α) : Idle (orFail wrap r) :=
  fun w => by rw [perform_orFail]

theorem Idle.bind {α β : Type} {x : Action (StateM World) α} {f : α → Action (StateM World) β}
    (hx : Idle x) (hf : ∀ a, Idle (f a)) : Idle (x >>= f) := by
  intro w
  rw [perform_bind]
  have hw := hx w
  generalize perform x w = r at hw ⊢
  obtain ⟨a | e, w'⟩ := r
  · exact hw
  · exact (hf e w').trans hw

/-- The options are read, and nothing else is done. -/
theorem idle_loadOptions (decode : Config.Decoder) (defaults : Options) (given : String) :
    Idle (loadOptions decode defaults given) := by
  have hread : ∀ path : String, Idle (if path = "" then pure defaults else do
      let content ← onHost (Host.readFile path)
      let src ← orFail .file content
      let settings ← orFail (.config path) (Config.parseWith decode src)
      pure (settings.apply defaults)) := by
    intro path
    split
    · exact idle_pure defaults
    · exact Idle.bind (fun _ => rfl) fun content => Idle.bind (idle_orFail _ _) fun src =>
        Idle.bind (idle_orFail _ _) fun settings => idle_pure _
  rw [loadOptions]
  split
  · exact Idle.bind (fun _ => rfl) fun usual => hread _
  · exact Idle.bind (idle_pure false) fun usual => hread _

/-- **A result is delivered**: it is printed, or written to a file. -/
inductive Delivered (path content : String) (w w' : World) : Prop
  | printed : path = "" → w'.files = w.files → w'.out = w.out ++ content →
      Delivered path content w w'
  | written : path ≠ "" → w.files.write path content = .ok w'.files → w'.out = w.out →
      Delivered path content w w'

theorem perform_runOpt (decode : Config.Decoder) (defaults : Options) (a : Arguments) (w : World) :
    perform (runOpt decode defaults a) w =
      match optionsOf decode defaults a w with
      | .error e => (.error e, w)
      | .ok o =>
        perform (do
          let texts ← optimizeFiles o (a.isSet .stats) (a.isSet .debug) a.rest
          writeOutput (a.text .output) (Text.join "\n" texts)) w := by
  have hidle := idle_loadOptions decode defaults (a.text .config) w
  rw [runOpt, perform_bind, optionsOf]
  generalize perform (loadOptions decode defaults (a.text .config)) w = r at hidle ⊢
  obtain ⟨result, w'⟩ := r
  obtain rfl : w' = w := hidle
  cases result with
  | error e => rfl
  | ok o =>
    dsimp only
    rw [perform_bind, perform_orFail]
    cases flagSettings a with
    | error e => rfl
    | ok given => rfl

theorem perform_writeOutput (path content : String) (w : World) :
    perform (writeOutput path content) w =
      if path = "" then (.ok (), { w with out := w.out ++ content })
      else match w.files.write path content with
        | .ok t => (.ok (), { w with files := t })
        | .error e => (.error (.file e), w) := by
  rw [writeOutput]
  split
  · rfl
  · have hwrite : (Host.writeFile path content : StateM World _).run w =
        match w.files.write path content with
        | .ok t => (.ok (), { w with files := t })
        | .error e => (.error e, w) := rfl
    rw [perform_bind, perform_onHost, hwrite]
    cases w.files.write path content <;> rfl

/-- **How a run of the command ends**: the options cannot be read, an input cannot be optimised, the
result cannot be written, or it is delivered. -/
inductive OptRun (decode : Config.Decoder) (defaults : Options) (a : Arguments) (w : World) :
    Except ToolError Unit × World → Prop
  | options {e : ToolError} :
      optionsOf decode defaults a w = .error e → OptRun decode defaults a w (.error e, w)
  | input {o : Options} {file : String} {e : ToolError} {w' : World} :
      optionsOf decode defaults a w = .ok o → file ∈ a.rest → optimized o w file = .error e →
      w.Quiet w' → OptRun decode defaults a w (.error e, w')
  | output {content : String} {e : FileError} {w' : World} :
      a.text .output ≠ "" → w.files.write (a.text .output) content = .error e → w.Quiet w' →
      OptRun decode defaults a w (.error (.file e), w')
  | delivered {o : Options} {texts : List String} {w' : World} :
      optionsOf decode defaults a w = .ok o →
      List.Forall₂ (fun file text => optimized o w file = .ok text) a.rest texts →
      Delivered (a.text .output) (Text.join "\n" texts) w w' →
      OptRun decode defaults a w (.ok (), w')

theorem optRun_perform (decode : Config.Decoder) (defaults : Options) (w : World)
    (hdash : a.rest.count "-" ≤ 1) :
    OptRun decode defaults a w (perform (runOpt decode defaults a) w) := by
  rw [perform_runOpt]
  cases hoptions : optionsOf decode defaults a w with
  | error e => exact .options hoptions
  | ok o =>
    dsimp only
    obtain ⟨hquiet, hcases⟩ :=
      optimizeFiles_cases o (a.isSet .stats) (a.isSet .debug) a.rest w hdash
    rw [perform_bind]
    generalize perform (optimizeFiles o (a.isSet .stats) (a.isSet .debug) a.rest) w = r
      at hquiet hcases ⊢
    obtain ⟨result, w₁⟩ := r
    rcases hcases with ⟨texts, rfl, htexts⟩ | ⟨file, hfile, e, rfl, he⟩
    · dsimp only at hquiet ⊢
      rw [perform_writeOutput]
      split
      · next hpath =>
        refine .delivered hoptions htexts (.printed hpath hquiet.files ?_)
        rw [← hquiet.out]
      · next hpath =>
        rw [hquiet.files]
        cases hwrite : w.files.write (a.text .output) (Text.join "\n" texts) with
        | error e => exact .output hpath hwrite hquiet
        | ok t => exact .delivered hoptions htexts (.written hpath hwrite hquiet.out)
    · exact .input hoptions hfile he hquiet

/-- The arguments for one input, whose result is printed. -/
def alone (a : Arguments) (file : String) : Arguments := ⟨a.values.erase .output, [file]⟩

theorem optionsOf_alone (decode : Config.Decoder) (defaults : Options) (a : Arguments) (w : World)
    (file : String) :
    optionsOf decode defaults (alone a file) w = optionsOf decode defaults a w := by
  have hget : ∀ f, f ≠ .output → (alone a file).values.get? f = a.values.get? f := fun f hf => by
    rw [alone, Table.get?_erase, if_neg (Ne.symm hf)]
  have htext : ∀ f, f ≠ .output → (alone a file).text f = a.text f := fun f hf => by
    rw [Arguments.text, Arguments.text, hget f hf]
  have hsettings : flagSettings (alone a file) = flagSettings a := by
    simp only [flagSettings, Arguments.integer?, Arguments.truth?, hget .passes (by simp),
      hget .strict (by simp), hget .rounds (by simp), hget .verify (by simp),
      htext .passes (by simp)]
  rw [optionsOf, optionsOf, htext .config (by simp), hsettings]

theorem text_output_alone : (alone a file).text .output = "" := by
  rw [Arguments.text, alone, Table.get?_erase, if_pos rfl]

/-- **A run for one input prints what the input is optimised to.** -/
theorem perform_alone_of_optimized (hoptions : optionsOf decode defaults a w = .ok o)
    (htext : optimized o w file = .ok text) : ∃ w₁,
      perform (runOpt decode defaults (alone a file)) w = (.ok (), w₁) ∧ w₁.files = w.files ∧
        w₁.out = w.out ++ text := by
  have hrun := optRun_perform (a := alone a file) decode defaults w (List.count_le_length ..)
  rw [← optionsOf_alone decode defaults a w file] at hoptions
  generalize perform (runOpt decode defaults (alone a file)) w = r at hrun ⊢
  cases hrun with
  | options h => exact absurd (h.symm.trans hoptions) (by simp)
  | input h hfile he _ =>
    obtain rfl := Except.ok.inj (h.symm.trans hoptions)
    rw [List.mem_singleton.mp hfile] at he
    exact absurd (he.symm.trans htext) (by simp)
  | output hpath _ _ => exact absurd text_output_alone hpath
  | delivered h htexts hdelivered =>
    obtain rfl := Except.ok.inj (h.symm.trans hoptions)
    cases htexts with
    | cons hfirst hrest =>
      cases hrest
      obtain rfl := Except.ok.inj (hfirst.symm.trans htext)
      cases hdelivered with
      | printed _ hfiles hout => exact ⟨_, rfl, hfiles, hout⟩
      | written hpath _ _ => exact absurd text_output_alone hpath

/-- If a run for one input succeeds, then the input can be optimised. -/
theorem optimized_of_perform_alone {w₁ : World}
    (h : perform (runOpt decode defaults (alone a file)) w = (.ok (), w₁)) :
    ∃ o text, optionsOf decode defaults a w = .ok o ∧ optimized o w file = .ok text := by
  have hrun := optRun_perform (a := alone a file) decode defaults w (List.count_le_length ..)
  rw [h] at hrun
  cases hrun with
  | delivered hoptions htexts _ =>
    rw [optionsOf_alone] at hoptions
    cases htexts with
    | cons hfirst _ => exact ⟨_, _, hoptions, hfirst⟩

/-- **The command delivers all results or none**, however configurations are written, if the
standard input is named at most once.

* If it fails, for whatever reason and at whatever input, the files are what they were, and nothing
  has been printed.
* If it succeeds, then the results of the inputs are delivered in their order, with newlines between
  them. Each of them is what the input is optimised to, with the options that the configuration and
  the flags come to, and is what the command prints if it is run for that input alone.
* It succeeds if and only if it does so for every input alone, and the result can be written. -/
theorem opt_all_or_none (decode : Config.Decoder) (defaults : Options) (a : Arguments) (w : World)
    (hdash : a.rest.count "-" ≤ 1) :
    (∀ e w', perform (runOpt decode defaults a) w = (.error e, w') →
      w'.files = w.files ∧ w'.out = w.out) ∧
    (∀ w', perform (runOpt decode defaults a) w = (.ok (), w') →
      ∃ o texts, optionsOf decode defaults a w = .ok o ∧
        Delivered (a.text .output) (Text.join "\n" texts) w w' ∧
        List.Forall₂ (fun file text => optimized o w file = .ok text ∧
          ∃ w₁, perform (runOpt decode defaults (alone a file)) w = (.ok (), w₁) ∧
            w₁.files = w.files ∧ w₁.out = w.out ++ text) a.rest texts) ∧
    (a.rest ≠ [] →
      ((∃ w', perform (runOpt decode defaults a) w = (.ok (), w')) ↔
        (∀ file ∈ a.rest, ∃ w₁,
            perform (runOpt decode defaults (alone a file)) w = (.ok (), w₁)) ∧
          (a.text .output ≠ "" →
            ∃ content t, w.files.write (a.text .output) content = .ok t))) := by
  have hrun := optRun_perform decode defaults w hdash
  generalize perform (runOpt decode defaults a) w = r at hrun ⊢
  refine ⟨?_, ?_, fun hne => ⟨?_, ?_⟩⟩
  · rintro e w' rfl
    cases hrun with
    | options _ => exact ⟨rfl, rfl⟩
    | input _ _ _ hquiet => exact ⟨hquiet.files, hquiet.out⟩
    | output _ _ hquiet => exact ⟨hquiet.files, hquiet.out⟩
  · rintro w' rfl
    cases hrun with
    | delivered hoptions htexts hdelivered =>
      refine ⟨_, _, hoptions, hdelivered, htexts.imp fun file text htext => ⟨htext, ?_⟩⟩
      exact perform_alone_of_optimized hoptions htext
  · rintro ⟨w', rfl⟩
    cases hrun with
    | @delivered o texts _ hoptions htexts hdelivered =>
      refine ⟨fun file hfile => ?_, fun hpath => ?_⟩
      · have htext : ∀ file ∈ a.rest, ∃ text, optimized o w file = .ok text :=
          ((List.forall₂_and_left ..).mp (htexts.imp fun _ text h => ⟨⟨text, h⟩, h⟩)).1
        obtain ⟨text, htext⟩ := htext file hfile
        obtain ⟨w₁, hperform, -⟩ := perform_alone_of_optimized hoptions htext
        exact ⟨w₁, hperform⟩
      · cases hdelivered with
        | printed h _ _ => exact absurd h hpath
        | written _ hwrite _ => exact ⟨_, _, hwrite⟩
  · rintro ⟨halone, hwritable⟩
    cases hrun with
    | options h =>
      obtain ⟨file, hfile⟩ := List.exists_mem_of_ne_nil _ hne
      obtain ⟨w₁, hperform⟩ := halone file hfile
      obtain ⟨o, text, hoptions, -⟩ := optimized_of_perform_alone hperform
      exact absurd (h.symm.trans hoptions) (by simp)
    | input h hfile he _ =>
      obtain ⟨w₁, hperform⟩ := halone _ hfile
      obtain ⟨o, text, hoptions, htext⟩ := optimized_of_perform_alone hperform
      obtain rfl := Except.ok.inj (h.symm.trans hoptions)
      exact absurd (he.symm.trans htext) (by simp)
    | output hpath he _ =>
      obtain ⟨content, t, hwrite⟩ := hwritable hpath
      obtain ⟨t', hwrite'⟩ := FileTree.exists_write hwrite _
      exact absurd (he.symm.trans hwrite') (by simp)
    | delivered _ _ _ => exact ⟨_, rfl⟩

end Command

/-! ### Overwriting an input -/

/-- A world with a program in a file, and another one to be read from the standard input. -/
def twoPrograms : World where
  files := ⟨[(["a"], "func @f(%a) \x7b\nentry:\n  %x = land %a, %a\n  ret %a\n\x7d\n"),
    (["c"], "verify: true\n")]⟩
  input := "func @g(%a) \x7b\nentry:\n  ret %a\n\x7d\n"

/-- Arguments for both programs. The result overwrites the first of them. -/
def overwriting : Arguments where
  values := [(.config, .text "c"), (.passes, .text "tdce"), (.output, .text "a")]
  rest := ["a", "-"]

/-- The same with a third input, a file that is not there. -/
def oneMissing : Arguments := { overwriting with rest := ["a", "-", "b"] }

theorem components_letter : ∀ path ∈ ["a", "b", "c"], FileTree.components path = [path] := by
  intro path hpath
  -- the one letter is not the separator, and after it the path ends
  rw [FileTree.components, String.splitOn, if_neg (by decide), String.splitOnAux,
    String.splitOnAux]
  revert path
  decide

theorem optionsOf_overwriting :
    optionsOf Config.decode {} overwriting twoPrograms =
      .ok { pipeline := "tdce", verify := true } := by
  have hc : FileTree.components "c" = ["c"] := components_letter _ (by decide)
  have hread : twoPrograms.files.read "c" = .ok "verify: true\n" := by
    rw [FileTree.read, FileTree.resolve, hc]
    rfl
  have hparse : Config.parseWith Config.decode "verify: true\n" = .ok { verify := some true } :=
    ok_of_toOption (by decide +kernel)
  have htext : overwriting.text .config = "c" := rfl
  have hload : perform (loadOptions Config.decode {} "c") twoPrograms =
      perform (do
        let src ← orFail .file (.ok "verify: true\n")
        let settings ← orFail (.config "c") (Config.parseWith Config.decode src)
        pure (settings.apply {})) twoPrograms := by
    rw [loadOptions, ← hread]
    rfl
  rw [optionsOf, htext, hload, perform_bind, perform_orFail]
  dsimp only [Except.mapError]
  rw [perform_bind, perform_orFail, hparse]
  rfl

/-- The two programs, each of which can be optimised, and the file that can be written. -/
theorem optimized_twoPrograms :
    optimized { pipeline := "tdce", verify := true } twoPrograms "a" =
        .ok "func @f(%a) \x7b\nentry:\n    ret %a\n\x7d\n" ∧
      optimized { pipeline := "tdce", verify := true } twoPrograms "-" =
        .ok "func @g(%a) \x7b\nentry:\n    ret %a\n\x7d\n" := by
  have ha : FileTree.components "a" = ["a"] := components_letter _ (by decide)
  have hsource : sourceOf twoPrograms "a" =
      .ok "func @f(%a) \x7b\nentry:\n  %x = land %a, %a\n  ret %a\n\x7d\n" := by
    have hread : twoPrograms.files.read "a" =
        .ok "func @f(%a) \x7b\nentry:\n  %x = land %a, %a\n  ret %a\n\x7d\n" := by
      rw [FileTree.read, FileTree.resolve, ha]
      rfl
    rw [sourceOf_of_ne (by decide), hread]
    rfl
  have hinput : sourceOf twoPrograms "-" = .ok twoPrograms.input := rfl
  constructor
  · rw [optimized, hsource]
    exact ok_of_toOption (by decide +kernel)
  · rw [optimized, hinput]
    exact ok_of_toOption (by decide +kernel)

theorem write_twoPrograms (content : String) :
    ∃ t, twoPrograms.files.write "a" content = .ok t := by
  have ha : FileTree.components "a" = ["a"] := components_letter _ (by decide)
  refine ⟨⟨[(["a"], content), (["c"], "verify: true\n")]⟩, ?_⟩
  rw [FileTree.write, FileTree.resolve, ha]
  rfl

theorem sourceOf_missing : sourceOf twoPrograms "b" = .error (.file ⟨"open", "b", .notFound⟩) := by
  have hb : FileTree.components "b" = ["b"] := components_letter _ (by decide)
  rw [sourceOf_of_ne (by decide), FileTree.read, FileTree.resolve, hb]
  rfl

/-- Both programs are optimised, and only then the first is overwritten. With the missing file
nothing is written. -/
theorem opt_all_or_none_overwriting :
    (∃ w', perform (runOpt Config.decode {} overwriting) twoPrograms = (.ok (), w') ∧ w'.out = "" ∧
      twoPrograms.files.write "a" (Text.join "\n"
        ["func @f(%a) \x7b\nentry:\n    ret %a\n\x7d\n",
          "func @g(%a) \x7b\nentry:\n    ret %a\n\x7d\n"]) = .ok w'.files) ∧
    ∃ e w', perform (runOpt Config.decode {} oneMissing) twoPrograms = (.error e, w') ∧
      w'.files = twoPrograms.files ∧ w'.out = "" := by
  constructor
  · obtain ⟨-, hsuccess, hiff⟩ :=
      opt_all_or_none Config.decode {} overwriting twoPrograms (by decide)
    have halone : ∀ file ∈ overwriting.rest, ∃ w₁,
        perform (runOpt Config.decode {} (alone overwriting file)) twoPrograms = (.ok (), w₁) := by
      intro file hfile
      rcases List.mem_pair.mp hfile with rfl | rfl
      · obtain ⟨w₁, h, -⟩ :=
          perform_alone_of_optimized optionsOf_overwriting optimized_twoPrograms.1
        exact ⟨w₁, h⟩
      · obtain ⟨w₁, h, -⟩ :=
          perform_alone_of_optimized optionsOf_overwriting optimized_twoPrograms.2
        exact ⟨w₁, h⟩
    obtain ⟨w', hrun⟩ := (hiff (by simp [overwriting])).mpr
      ⟨halone, fun _ => ⟨"", write_twoPrograms ""⟩⟩
    obtain ⟨o, texts, hoptions, hdelivered, htexts⟩ := hsuccess w' hrun
    obtain rfl := Except.ok.inj (hoptions.symm.trans optionsOf_overwriting)
    obtain ⟨f, fs, hf, hfs, rfl⟩ := List.forall₂_cons_left_iff.mp htexts
    obtain ⟨g, gs, hg, hgs, rfl⟩ := List.forall₂_cons_left_iff.mp hfs
    obtain rfl := List.forall₂_nil_left_iff.mp hgs
    obtain rfl := Except.ok.inj (hf.1.symm.trans optimized_twoPrograms.1)
    obtain rfl := Except.ok.inj (hg.1.symm.trans optimized_twoPrograms.2)
    cases hdelivered with
    | printed hpath _ _ => exact absurd hpath (by decide)
    | written _ hwrite hout => exact ⟨w', hrun, hout, hwrite⟩
  · obtain ⟨hfailure, -, hiff⟩ :=
      opt_all_or_none Config.decode {} oneMissing twoPrograms (by decide)
    cases hresult : perform (runOpt Config.decode {} oneMissing) twoPrograms with
    | mk result w' =>
      cases result with
      | error e => exact ⟨e, w', rfl, hfailure e w' hresult⟩
      | ok u =>
        -- the run for the missing file alone fails
        obtain ⟨w₁, h⟩ := ((hiff (by decide)).mp ⟨w', hresult⟩).1 "b" (by decide)
        obtain ⟨o, text, -, htext⟩ := optimized_of_perform_alone h
        rw [optimized, sourceOf_missing] at htext
        exact absurd htext (by simp)

end Tool

end BranchFusion
