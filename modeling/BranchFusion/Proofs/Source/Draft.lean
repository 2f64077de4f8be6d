import BranchFusion.Proofs.Outcome
import BranchFusion.Proofs.Source.Reading

/-!
# Functions as they are built by reading

A draft is built from nothing: parameters are marked and added, blocks are created, and lines are
read into blocks that are still open. `BranchFusion.Source.Drafted` is this history of a draft, as
an inductive predicate, so that a fact about all functions that can be read is proved by induction
on it, one case for each kind of step.

A function that was read is the function of a draft that is finished
(`BranchFusion.Source.Finished`): it has a block, all blocks are terminated, and all values that
were mentioned are defined. The functions of a module that was read are of this kind, are numbered
upwards and have different names (`BranchFusion.Source.listed_of_parse`).
-/

namespace BranchFusion

namespace Source

variable {d d' : Draft} {line : Line} {b c : BlockId}

/-! ### Drafts -/

/-- **A draft that is built by reading**: parameters are marked and added, blocks are created under
labels that are not taken, and lines are read into blocks that are not terminated. -/
inductive Drafted : Draft → Prop
  | start (serial : Nat) (name : String) (hname : IsWord name) :
    Drafted { func := { serial := serial, name := name } }
  | param {d d' : Draft} {r : Value} (h : Drafted d) (hmarks : Marks d (some r) d') :
    Drafted { d' with func := { d'.func with params := d'.func.params ++ [r] } }
  | block {d : Draft} (h : Drafted d) (label : String)
    (hlabel : isLabel label.toList = true ∧ ';' ∉ label.toList)
    (hnew : ∀ b, d.func.owns b → (d.func.block b).label ≠ label) :
    Drafted { d with func := (d.func.createBlock label).2 }
  | line {d d' : Draft} {b : BlockId} (h : Drafted d) (hb : d.func.owns b)
    (hopen : (d.func.block b).term = none) (heffect : Effect b d d') : Drafted d'

section Marks

variable {o : Option Value} (h : Marks d o d')

include h

/-- A mark only touches the table of values, too. -/
theorem Marks.func_eq : d'.func = { d.func with values := d'.func.values } := by
  cases h with
  | nothing h => exact h.func_eq
  | value h _ _ h' =>
    have hfunc := h'.func_eq
    rw [h.func_eq] at hfunc
    exact hfunc

theorem Marks.serial : d'.func.serial = d.func.serial := by
  rw [h.func_eq]

theorem Marks.ids : d'.func.ids = d.func.ids := by
  rw [h.func_eq]
  rfl

theorem Marks.owns : d'.func.owns c = d.func.owns c := by
  rw [h.func_eq]
  rfl

theorem Marks.block : d'.func.block c = d.func.block c := by
  rw [h.func_eq]
  rfl

end Marks

/-- What a line leaves as it is: the blocks there are, and that a block is terminated. -/
structure Grows (d d' : Draft) : Prop where
  serial : d'.func.serial = d.func.serial
  ids : d'.func.ids = d.func.ids
  terminated : ∀ c, (d.func.block c).term.isSome → (d'.func.block c).term.isSome

/-- An edit of a block that keeps its terminator. -/
theorem Marks.grows {o : Option Value} (h : Marks d o d') (hb : d.func.owns b) {f : Block → Block}
    (hf : ∀ bb, (f bb).live = bb.live ∧ (f bb).term = bb.term) :
    Grows d { d' with func := d'.func.modify b f } := by
  refine ⟨?_, ?_, fun c hc => ?_⟩
  · rw [Func.serial_modify, h.serial]
  · rw [Func.ids_modify fun bb => (hf bb).1, h.ids]
  · rw [Func.block_modify (by rwa [h.owns])]
    split
    · next hcb => rwa [(hf _).2, h.block, ← hcb]
    · rwa [h.block]

theorem Effect.grows (h : Effect b d d') (hb : d.func.owns b) : Grows d d' := by
  cases h with
  | instr i h _ _ => exact h.grows hb fun _ => ⟨rfl, rfl⟩
  | phi p h _ _ => exact h.grows hb fun _ => ⟨rfl, rfl⟩
  | term t h htargets _ =>
    have hmarks := Marks.nothing h
    have hb' := hb
    rw [← hmarks.owns] at hb'
    refine ⟨?_, ?_, fun c hc => ?_⟩
    · rw [Func.terminate_eq, Func.serial_modifyAll, hmarks.serial]
    · rw [Func.terminate_eq, Func.ids_modifyAll Func.live_termEdits, hmarks.ids]
    · rw [Func.block_terminate hb' htargets.owned]
      dsimp only
      split
      · rfl
      · rwa [hmarks.block]

/-! ### Functions

A function is read into a draft whose blocks are known from the start. -/

/-- A draft of a function with the given number and the given live blocks. -/
structure Outlined (serial : Nat) (bs : List BlockId) (d : Draft) : Prop where
  drafted : Drafted d
  serial : d.func.serial = serial
  ids : d.func.ids = bs

/-- **A draft that was read to its end**: there is a block, all blocks are terminated, and all
values that were mentioned are defined. -/
structure Finished (d : Draft) : Prop where
  drafted : Drafted d
  nonempty : d.func.ids ≠ []
  terminated : ∀ b, d.func.owns b → (d.func.block b).term.isSome
  defined : ∀ e ∈ d.mentions, e.1 ∈ d.defined

variable {serial : Nat} {bs : List BlockId}

theorem reads_params : ∀ ws : List String, (∀ w ∈ ws, IsWord w) →
    Reads (Outlined serial bs) (readParams line ws) fun _ d => Outlined serial bs d
  | [], _ => .pure fun _ hd => hd
  | w :: ws, hws => by
    obtain ⟨hw, hws⟩ := List.forall_mem_cons.mp hws
    rw [readParams]
    intro d hd
    refine Reads.bind (reads_definition hw) (fun r => Reads.bind ?_ fun _ => reads_params ws hws)
      d rfl
    refine .edit fun d' hmarks => ⟨hd.drafted.param hmarks, ?_, ?_⟩
    · exact hmarks.serial.trans hd.serial
    · exact hmarks.ids.trans hd.ids

/-- The name in a header is a word. -/
theorem isWord_of_headD {ws : List String} (hws : ∀ w ∈ ws, IsWord w) {name : String}
    (h : nameAfter? '@' ((ws.drop 1).headD "") = some name) : IsWord name := by
  cases hdrop : ws.drop 1 with
  | nil =>
    rw [hdrop] at h
    exact absurd h (by simp [nameAfter?])
  | cons w rest =>
    rw [hdrop] at h
    refine isWord_of_nameAfter? (hws w (List.mem_of_mem_drop (i := 1) ?_)) h
    rw [hdrop]
    exact List.mem_cons_self ..

/-- **When a header is read**: it has its words, the second is a name, and the others are
parameters. -/
theorem readHeader_eq_ok : readHeader serial line = .ok d ↔
    ¬((words line.text).length < 3 ∨ (words line.text).getLast? ≠ some "\x7b") ∧
      ∃ name u, nameAfter? '@' (((words line.text).drop 1).headD "") = some name ∧
        (readParams line ((words line.text).drop 2).dropLast).run
          { func := { serial := serial, name := name } } = .ok (u, d) := by
  rw [readHeader]
  dsimp only
  split
  · next hwords => exact iff_of_false (by simp) fun h => h.1 hwords
  next hwords =>
  cases hname : nameAfter? '@' (((words line.text).drop 1).headD "") with
  | none => simp
  | some name =>
    simp only [map_eq_ok, Option.some.injEq, exists_and_left, exists_eq_left', Prod.exists,
      exists_eq_right, and_iff_right hwords]

theorem outlined_of_readHeader (hline : line.Plain) (h : readHeader serial line = .ok d) :
    Outlined serial [] d := by
  obtain ⟨-, name, u, hname, hrun⟩ := readHeader_eq_ok.mp h
  have hparams : ∀ w ∈ ((words line.text).drop 2).dropLast, IsWord w := fun w hw =>
    hline.isWord w (List.mem_of_mem_drop ((List.dropLast_subset _) hw))
  exact reads_params _ hparams _
    ⟨.start serial name (isWord_of_headD hline.isWord hname), rfl, rfl⟩ u d hrun

/-- **The first pass** creates the blocks, and lists them in order. -/
theorem outlined_of_readLabels : ∀ {ls : List Line} {d : Draft} {fn : Func}
    {done blocks : List (BlockId × List Line)} {last last' : Line}, (∀ l ∈ ls, l.Plain) →
    Outlined serial (done.map Prod.fst) d →
    readLabels d.func done last ls = .ok (fn, blocks, last') →
      Outlined serial (blocks.map Prod.fst) { d with func := fn }
  | [], d, fn, done, _, _, _, _, hd, h => by
    obtain ⟨rfl, hrest⟩ := Prod.mk.inj (Except.ok.inj h)
    obtain ⟨rfl, -⟩ := Prod.mk.inj hrest
    exact hd
  | l :: ls, d, fn, done, _, _, _, hls, hd, h => by
    obtain ⟨hl, hls⟩ := List.forall_mem_cons.mp hls
    rw [readLabels] at h
    split at h
    · next rev hrev =>
      split at h
      · next hlabel =>
        dsimp only at h
        split at h
        · exact absurd h (by simp)
        · next hnew =>
          let label := String.ofList rev.reverse
          have hplain : ';' ∉ label.toList := by
            intro hmem
            refine hl (List.mem_reverse.mp (hrev ▸ List.mem_cons_of_mem ':' ?_))
            simpa [label] using hmem
          have hfresh : ∀ b, d.func.owns b → (d.func.block b).label ≠ label := by
            intro b hb heq
            exact hnew (Array.any_eq_true'.mpr ⟨_, Func.block_mem_of_owns hb, by simpa using heq⟩)
          refine outlined_of_readLabels (d := { d with func := (d.func.createBlock label).2 }) hls
            ⟨hd.drafted.block label ⟨by simpa [label] using hlabel, hplain⟩ hfresh, hd.serial, ?_⟩ h
          rw [List.map_append, ← hd.ids]
          exact Func.ids_createBlock label
      · exact absurd h (by simp)
    · split at h
      · exact absurd h (by simp)
      · next b own hlast =>
        refine outlined_of_readLabels hls ⟨hd.drafted, hd.serial, ?_⟩ h
        -- a line that goes to the last block leaves the list of blocks alone
        obtain ⟨front, rfl⟩ := List.getLast?_eq_some_iff.mp hlast
        simpa using hd.ids

/-- The first pass sorts the lines, and adds none. -/
theorem mem_of_readLabels {x : Line} : ∀ {ls : List Line} {f fn : Func}
    {done blocks : List (BlockId × List Line)} {last last' : Line},
    readLabels f done last ls = .ok (fn, blocks, last') → x ∈ blocks.flatMap Prod.snd →
      x ∈ done.flatMap Prod.snd ∨ x ∈ ls
  | [], f, fn, done, _, _, _, h, hx => by
    obtain ⟨rfl, hrest⟩ := Prod.mk.inj (Except.ok.inj h)
    obtain ⟨rfl, -⟩ := Prod.mk.inj hrest
    exact Or.inl hx
  | l :: ls, f, fn, done, _, _, _, h, hx => by
    rw [readLabels] at h
    split at h
    · split at h
      · dsimp only at h
        split at h
        · exact absurd h (by simp)
        · refine (mem_of_readLabels h hx).imp (fun hx => ?_) (List.mem_cons_of_mem l)
          simpa using hx
      · exact absurd h (by simp)
    · split at h
      · exact absurd h (by simp)
      · next b own hlast =>
        obtain ⟨front, rfl⟩ := List.getLast?_eq_some_iff.mp hlast
        rcases mem_of_readLabels h hx with hx | hx
        · simp only [List.dropLast_concat, List.flatMap_append, List.flatMap_singleton,
            List.mem_append, List.mem_singleton] at hx ⊢
          rcases hx with hx | hx | rfl
          · exact Or.inl (Or.inl hx)
          · exact Or.inl (Or.inr hx)
          · exact Or.inr (List.mem_cons_self ..)
        · exact Or.inr (List.mem_cons_of_mem l hx)

/-- A line is read into an open block. -/
theorem Outlined.effect (h : Outlined serial bs d) (hb : b ∈ bs)
    (hopen : (d.func.block b).term = none) (heffect : Effect b d d') :
    Outlined serial bs d' ∧ Grows d d' := by
  have howns : d.func.owns b := by
    rw [← Func.mem_ids, h.ids]
    exact hb
  have hgrows := heffect.grows howns
  exact ⟨⟨h.drafted.line howns hopen heffect, hgrows.serial.trans h.serial,
    hgrows.ids.trans h.ids⟩, hgrows⟩

/-- **The lines of a block keep** whatever each of them keeps. -/
theorem reads_body_keeps {J : Draft → Prop} (hb : b ∈ bs)
    (hJ : ∀ d d', Outlined serial bs d → J d → (d.func.block b).term = none → Effect b d d' →
      J d') : ∀ ls : List Line, (∀ l ∈ ls, l.Plain) →
    Reads (fun d => Outlined serial bs d ∧ J d) (readBody b ls)
      fun _ d => Outlined serial bs d ∧ J d
  | [], _ => .pure fun _ hd => hd
  | l :: ls, hls => by
    obtain ⟨hl, hls⟩ := List.forall_mem_cons.mp hls
    rw [readBody]
    refine .bind .get fun a => ?_
    split
    · exact .refuse l _
    · next hopen =>
      refine .bind (R := _) ?_ fun _ => reads_body_keeps hb hJ ls hls
      rintro d ⟨rfl, hd, hkept⟩ u d' hrun
      have heffect : Effect b a d' := reads_instr hl.isWord a rfl u d' hrun
      have hnone : (a.func.block b).term = none := by simpa using hopen
      exact ⟨(hd.effect hb hnone heffect).1, hJ a d' hd hkept hnone heffect⟩

/-- The lines of a block are read, and leave terminated what is terminated. -/
theorem reads_body {T : BlockId → Prop} (hb : b ∈ bs) (ls : List Line) (hls : ∀ l ∈ ls, l.Plain) :
    Reads (fun d => Outlined serial bs d ∧ ∀ c, T c → (d.func.block c).term.isSome)
      (readBody b ls)
      fun _ d => Outlined serial bs d ∧ ∀ c, T c → (d.func.block c).term.isSome := by
  refine reads_body_keeps hb (fun d d' hd hterm hopen heffect c hc => ?_) ls hls
  exact (hd.effect hb hopen heffect).2.terminated c (hterm c hc)

/-- **The second pass** terminates all blocks. -/
theorem reads_blocks : ∀ (blocks : List (BlockId × List Line)) (last : Line)
    {T : BlockId → Prop}, (∀ e ∈ blocks, e.1 ∈ bs) → (∀ l ∈ blocks.flatMap Prod.snd, l.Plain) →
    Reads (fun d => Outlined serial bs d ∧ ∀ c, T c → (d.func.block c).term.isSome)
      (readBlocks last blocks)
      fun _ d => Outlined serial bs d ∧
        ∀ c, T c ∨ c ∈ blocks.map Prod.fst → (d.func.block c).term.isSome
  | [], _, T, _, _ => .pure fun _ hd => ⟨hd.1, fun c hc => hd.2 c (by simpa using hc)⟩
  | (b, own) :: rest, last, T, hblocks, hplain => by
    obtain ⟨hown, hrest⟩ := List.forall_mem_append.mp hplain
    rw [readBlocks]
    refine .bind (reads_body (hblocks (b, own) (by simp)) own hown) fun _ => .bind .get fun a => ?_
    dsimp only
    split
    · exact .refuse _ _
    · next hterm =>
      refine (reads_blocks rest _ (T := fun c => T c ∨ c = b)
        (fun e he => hblocks e (List.mem_cons_of_mem _ he)) hrest).weaken ?_ ?_
      · rintro d ⟨rfl, hd, hall⟩
        refine ⟨hd, ?_⟩
        rintro c (hc | rfl)
        · exact hall c hc
        · simpa [Option.isSome_iff_ne_none] using hterm
      · rintro _ d ⟨hd, hall⟩
        refine ⟨hd, fun c hc => hall c ?_⟩
        simpa [or_assoc] using hc

/-- **When a function is read**: its header and its labels are read, there is a block, the blocks
are read, and what was mentioned is defined. -/
theorem readFunc_eq_ok {header : Line} {body : List Line} {fn : Func} :
    readFunc serial header body = .ok fn ↔
      ∃ draft fn₀ blocks last u d, readHeader serial header = .ok draft ∧
        readLabels draft.func [] header body = .ok (fn₀, blocks, last) ∧ blocks ≠ [] ∧
        (readBlocks last blocks).run { draft with func := fn₀ } = .ok (u, d) ∧
        (∀ x ∈ d.mentions, x.1 ∈ d.defined) ∧ d.func = fn := by
  rw [readFunc]
  constructor
  · intro h
    obtain ⟨draft, hheader, h⟩ := ok_of_bind h
    obtain ⟨⟨fn₀, blocks, last⟩, hlabels, h⟩ := ok_of_bind h
    dsimp only at h
    split at h
    · exact absurd h (by simp)
    next hblocks =>
    obtain ⟨⟨u, d⟩, hrun, h⟩ := ok_of_bind h
    dsimp only at h
    split at h
    · exact absurd h (by simp)
    next hmentions =>
    exact ⟨draft, fn₀, blocks, last, u, d, hheader, hlabels, by simpa using hblocks, hrun,
      fun x hx => by simpa using List.find?_eq_none.mp hmentions x hx, Except.ok.inj h⟩
  · rintro ⟨draft, fn₀, blocks, last, u, d, hheader, hlabels, hblocks, hrun, hmentions, rfl⟩
    have hnone : (d.mentions.find? fun m => !d.defined.contains m.1) = none :=
      List.find?_eq_none.mpr fun x hx => by simpa using hmentions x hx
    simp only [hheader, hlabels, hrun, hnone, bind, Except.bind]
    rw [if_neg (by simpa using hblocks)]

/-- **A function that is read is the function of a finished draft.** -/
theorem exists_finished_of_readFunc {header : Line} {body : List Line} {fn : Func}
    (hplain : ∀ l ∈ header :: body, l.Plain)
    (h : readFunc serial header body = .ok fn) :
    ∃ d, Finished d ∧ d.func = fn ∧ fn.serial = serial := by
  obtain ⟨hhead, hbody⟩ := List.forall_mem_cons.mp hplain
  obtain ⟨draft, fn₀, blocks, last, u, d, hheader, hlabels, hblocks, hrun, hdefined, rfl⟩ :=
    readFunc_eq_ok.mp h
  have hstart : Outlined serial (([] : List (BlockId × List Line)).map Prod.fst) draft :=
    outlined_of_readHeader hhead hheader
  have houtline := outlined_of_readLabels hbody hstart hlabels
  have hlines : ∀ l ∈ blocks.flatMap Prod.snd, l.Plain := fun l hl =>
    hbody l ((mem_of_readLabels hlabels hl).resolve_left (by simp))
  obtain ⟨hd, hterm⟩ := reads_blocks blocks last (T := fun _ => False)
    (fun e he => List.mem_map_of_mem he) hlines _ ⟨houtline, fun _ hc => hc.elim⟩ u d hrun
  refine ⟨d, ⟨hd.drafted, ?_, fun b hb => hterm b (Or.inr ?_), hdefined⟩, rfl, hd.serial⟩
  · rw [hd.ids]
    simpa using hblocks
  · rw [← hd.ids]
    exact Func.mem_ids.mpr hb

/-! ### Modules -/

/-- **Functions that were read**: each is the function of a finished draft, their serial numbers go
upwards from the first, and no two have the same name. -/
structure Listed (serial : Nat) (fns : List Func) : Prop where
  finished : ∀ fn ∈ fns, ∃ d, Finished d ∧ d.func = fn
  serials : fns.map Func.serial = List.range' serial fns.length
  names : (fns.map Func.name).Nodup

theorem listed_of_readFuncs : ∀ {ls : List Line} {done fns : List Func}
    {o : Option (Line × List Line)}, (∀ l ∈ ls, l.Plain) →
    (∀ e ∈ o, ∀ l ∈ e.1 :: e.2, l.Plain) → Listed serial done →
    readFuncs serial done o ls = .ok fns → Listed serial fns
  | [], done, fns, none, _, _, hdone, h => by
    obtain rfl := Except.ok.inj h
    exact hdone
  | [], done, fns, some (header, body), _, _, _, h => by
    rw [readFuncs] at h
    exact absurd h (by simp)
  | l :: ls, done, fns, none, hls, _, hdone, h => by
    obtain ⟨hl, hls⟩ := List.forall_mem_cons.mp hls
    rw [readFuncs] at h
    split at h
    · refine listed_of_readFuncs hls ?_ hdone h
      rintro _ ⟨⟩
      simpa using hl
    · exact absurd h (by simp)
  | l :: ls, done, fns, some (header, body), hls, ho, hdone, h => by
    obtain ⟨hl, hls⟩ := List.forall_mem_cons.mp hls
    have hplain := ho (header, body) rfl
    rw [readFuncs] at h
    split at h
    · refine listed_of_readFuncs hls ?_ hdone h
      rintro _ ⟨⟩
      rw [← List.cons_append]
      exact List.forall_mem_append.mpr ⟨hplain, by simpa using hl⟩
    · cases hread : readFunc (serial + done.length) header body with
      | error e => simp [hread, bind, Except.bind] at h
      | ok fn =>
        simp only [hread, bind, Except.bind] at h
        split at h
        · exact absurd h (by simp)
        · next hfresh =>
          obtain ⟨d, hd, hfn, hserial⟩ := exists_finished_of_readFunc hplain hread
          refine listed_of_readFuncs hls (by simp) ⟨fun f hf => ?_, ?_, ?_⟩ h
          · rcases List.mem_append.mp hf with hf | hf
            · exact hdone.finished f hf
            · rw [List.mem_singleton.mp hf]
              exact ⟨d, hd, hfn⟩
          · rw [List.map_append, hdone.serials, List.length_append, List.map_singleton, hserial]
            rw [List.length_singleton, List.range'_concat, Nat.one_mul]
          · rw [List.map_append, List.map_singleton, ← List.concat_eq_append, List.nodup_concat]
            refine ⟨fun hmem => hfresh ?_, hdone.names⟩
            obtain ⟨f, hf, hname⟩ := List.mem_map.mp hmem
            exact List.any_eq_true.mpr ⟨f, hf, by simpa using hname⟩

theorem parse_eq_ok {src : String} {m : Module} : Module.parse src serial = .ok m ↔
    readFuncs serial [] none (readLines src) = .ok m.funcs := by
  rw [Module.parse, map_eq_ok]
  constructor
  · rintro ⟨fns, hread, rfl⟩
    exact hread
  · exact fun hread => ⟨m.funcs, hread, rfl⟩

/-- **What reading guarantees.** -/
theorem listed_of_parse {src : String} {m : Module} (h : Module.parse src serial = .ok m) :
    Listed serial m.funcs :=
  listed_of_readFuncs (fun l => plain_of_mem_readLines) (by simp) ⟨by simp, rfl, by simp⟩
    (parse_eq_ok.mp h)

end Source

end BranchFusion
