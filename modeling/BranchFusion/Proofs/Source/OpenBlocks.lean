import BranchFusion.Proofs.Source.Newlines
import BranchFusion.Proofs.Source.RoundTrip
import BranchFusion.Proofs.Source.Settled

/-!
# Where open blocks are reported

A block without a terminator is reported at the line that was looked at last. The lines of
instructions are refused for reasons of their own, and at themselves (`BranchFusion.Source.Blames`).
The first pass cuts the body of a function into sections, one for each block
(`BranchFusion.Source.exists_openings_of_readLabels`), and leaves the last line of the body as the
line that was looked at; the second pass reads the own lines of one block after the other
(`BranchFusion.Source.exists_open_of_readBlocks`). So a block that has no lines of its own is
reported at a line of another block, unless it is the only one
(`BranchFusion.Module.open_block_reported`).
-/

namespace BranchFusion

namespace Source

/-! ### Readers of one line -/

/-- **An error about a line**: it is placed there, and it is not that a block has no end. -/
structure Error.About (line : Line) (e : Error) : Prop where
  line : e.line = line
  reason : ∀ label, e.reason ≠ .blockNotTerminated label

/-- **A reader blames a line**: whenever it fails, the error is about this line. -/
def Blames {α : Type} (line : Line) (x : Read α) : Prop :=
  ∀ d e, x.run d = .error e → e.About line

namespace Blames

variable {α β : Type} {line : Line} {x : Read α}

theorem bind {f : α → Read β} (hx : Blames line x) (hf : ∀ a, Blames line (f a)) :
    Blames line (x >>= f) := by
  intro d e h
  rw [StateT.run_bind] at h
  rcases error_of_bind h with h | ⟨r, -, h⟩
  · exact hx d e h
  · exact hf r.1 r.2 e h

/-- A reader that does not fail blames whatever one likes. -/
theorem of_ok (h : ∀ d, ∃ r, x.run d = .ok r) : Blames line x := by
  intro d e he
  obtain ⟨r, hr⟩ := h d
  exact absurd (hr.symm.trans he) (by simp)

theorem pure (a : α) : Blames line (pure a : Read α) := .of_ok fun d => ⟨(a, d), rfl⟩

theorem get : Blames line (MonadState.get : Read Draft) := .of_ok fun d => ⟨(d, d), rfl⟩

theorem set (d₀ : Draft) : Blames line (MonadState.set d₀ : Read PUnit) :=
  .of_ok fun _ => ⟨(⟨⟩, d₀), rfl⟩

theorem edit (f : Func → Func) : Blames line (edit f) :=
  .of_ok fun d => ⟨((), { d with func := f d.func }), rfl⟩

theorem refuse {reason : Refusal} (h : ∀ label, reason ≠ .blockNotTerminated label) :
    Blames line (refuse line reason : Read α) := by
  intro d e he
  obtain rfl : ⟨line, reason⟩ = e := Except.error.inj he
  exact ⟨rfl, h⟩

end Blames

section Readers

variable {line : Line} {b : BlockId} {r : Value}

theorem blames_value (word : String) : Blames line (readValue line word) := by
  rw [readValue]
  split
  · exact .refuse (by simp)
  · refine .bind .get fun d => ?_
    split
    · exact .pure _
    · exact .bind (.set _) fun _ => .pure _

theorem blames_values : ∀ ws : List String, Blames line (readValues line ws)
  | [] => .pure _
  | w :: ws => .bind (blames_value w) fun _ => .bind (blames_values ws) fun _ => .pure _

theorem blames_definition (word : String) : Blames line (readDefinition line word) := by
  rw [readDefinition]
  refine .bind (blames_value word) fun v => .bind .get fun d => ?_
  split
  · exact .refuse (by simp)
  · exact .bind (.set _) fun _ => .pure _

theorem blames_label (word : String) : Blames line (readLabel line word) := by
  rw [readLabel]
  refine .bind .get fun d => ?_
  dsimp only
  split
  · exact .pure _
  · exact .refuse (by simp)

theorem blames_integer (word : String) : Blames line (readInteger line word) := by
  rw [readInteger]
  split
  · exact .pure _
  · exact .refuse (by simp)

theorem blames_inputs : ∀ (ws : List String) (p : Phi), Blames line (readInputs line p ws)
  | v :: l :: ws, p => by
    rw [readInputs]
    refine .bind (blames_value v) fun value => .bind (blames_label l) fun c => ?_
    split
    · exact .bind .get fun d => .refuse (by simp)
    · exact blames_inputs ws _
  | [], p => by rw [readInputs] <;> [exact .pure _; simp]
  | [_], p => by rw [readInputs] <;> [exact .pure _; simp]

theorem blames_cases : ∀ (ws : List String) (t : Table Int64 BlockId),
    Blames line (readCases line t ws)
  | k :: l :: ws, t => by
    rw [readCases]
    refine .bind (blames_integer k) fun word => .bind (blames_label l) fun c => ?_
    split
    · exact .refuse (by simp)
    · exact blames_cases ws _
  | [], t => by rw [readCases] <;> [exact .pure _; simp]
  | [_], t => by rw [readCases] <;> [exact .pure _; simp]

theorem blames_const (ws : List String) : Blames line (readConst line b r ws) := by
  rw [readConst.eq_def]
  split
  · exact .bind (blames_integer _) fun _ => .edit _
  · exact .refuse (by simp)

theorem blames_binary (op : String) (ws : List String) :
    Blames line (readBinary line b r op ws) := by
  rw [readBinary]
  split
  · exact .refuse (by simp)
  · split
    · exact .bind (blames_value _) fun _ => .bind (blames_value _) fun _ => .edit _
    · exact .refuse (by simp)

theorem blames_phi (ws : List String) : Blames line (readPhi line b r ws) := by
  rw [readPhi]
  refine .bind .get fun d => ?_
  split
  · split
    · exact .refuse (by simp)
    · exact .bind (blames_inputs ws _) fun _ => .edit _
  · exact .refuse (by simp)

theorem blames_call (o : Option Value) (ws : List String) : Blames line (readCall line b o ws) := by
  rw [readCall.eq_def]
  split
  · split
    · exact .bind (blames_values _) fun _ => .edit _
    · exact .refuse (by simp)
  · exact .refuse (by simp)

theorem blames_jump (ws : List String) : Blames line (readJump line b ws) := by
  rw [readJump.eq_def]
  split
  · exact .bind (blames_label _) fun _ => .edit _
  · exact .refuse (by simp)

theorem blames_branch (ws : List String) : Blames line (readBranch line b ws) := by
  rw [readBranch.eq_def]
  split
  · exact .bind (blames_value _) fun _ => .bind (blames_label _) fun _ =>
      .bind (blames_label _) fun _ => .edit _
  · exact .refuse (by simp)

theorem blames_switch (ws : List String) : Blames line (readSwitch line b ws) := by
  rw [readSwitch.eq_def]
  split
  · split
    · exact .refuse (by simp)
    · exact .bind (blames_value _) fun _ => .bind (blames_label _) fun _ =>
        .bind (blames_cases _ _) fun _ => .edit _
  · exact .refuse (by simp)

theorem blames_operation (op : String) (ws : List String) :
    Blames line (readOperation line b r op ws) := by
  rw [readOperation]
  split
  · exact blames_const ws
  split
  · exact blames_phi ws
  split
  · exact blames_call (some r) ws
  · exact blames_binary op ws

/-- **A reader of an instruction blames its line.** -/
theorem blames_instr (ws : List String) : Blames line (readInstr line b ws) := by
  rw [readInstr.eq_def]
  split
  · exact .refuse (by simp)
  split
  · exact blames_jump _
  split
  · exact blames_branch _
  split
  · exact blames_switch _
  split
  · exact .bind (blames_values _) fun _ => .edit _
  split
  · exact blames_call none _
  split
  · split
    · exact .bind (blames_definition _) fun r => blames_operation _ _
    · exact .refuse (by simp)
  · exact .refuse (by simp)

theorem blames_params : ∀ ws : List String, Blames line (readParams line ws)
  | [] => .pure _
  | w :: ws => .bind (blames_definition w) fun _ => .bind (.edit _) fun _ => blames_params ws

end Readers

/-- No line of a block is refused because a block has no end. -/
theorem reason_of_readBody {b : BlockId} {e : Error} {label : String} :
    ∀ {ls : List Line} {d : Draft}, (readBody b ls).run d = .error e →
      e.reason ≠ .blockNotTerminated label
  | [], d, h => by
    have hok : (.ok ((), d) : Except Error (Unit × Draft)) = .error e := h
    exact absurd hok (by simp)
  | l :: ls, d, h => by
    rw [readBody, StateT.run_bind] at h
    rcases error_of_bind h with h | ⟨a, -, h⟩
    · have habout : e.About l := Blames.get d e h
      exact habout.reason label
    split at h
    · have habout : e.About l := Blames.refuse (by simp) a.2 e h
      exact habout.reason label
    · rw [StateT.run_bind] at h
      rcases error_of_bind h with h | ⟨r, -, h⟩
      · exact (blames_instr (words l.text) a.2 e h).reason label
      · exact reason_of_readBody h

/-- No header is refused because a block has no end. -/
theorem reason_of_readHeader {serial : Nat} {header : Line} {e : Error} {label : String}
    (h : readHeader serial header = .error e) : e.reason ≠ .blockNotTerminated label := by
  rw [readHeader] at h
  dsimp only at h
  split at h
  · obtain rfl := Except.error.inj h
    simp
  split at h
  · obtain rfl := Except.error.inj h
    simp
  · exact (blames_params _ _ _ (map_eq_error.mp h)).reason label

/-- The first pass does not look for the ends of blocks. -/
theorem reason_of_readLabels {e : Error} {label : String} : ∀ {ls : List Line} {f : Func}
    {done : List (BlockId × List Line)} {last : Line}, readLabels f done last ls = .error e →
      e.reason ≠ .blockNotTerminated label
  | [], _, _, _, h => absurd h (by simp [readLabels])
  | l :: ls, f, done, last, h => by
    rw [readLabels] at h
    split at h
    · split at h
      · dsimp only at h
        split at h
        · obtain rfl := Except.error.inj h
          simp
        · exact reason_of_readLabels h
      · obtain rfl := Except.error.inj h
        simp
    · split at h
      · obtain rfl := Except.error.inj h
        simp
      · exact reason_of_readLabels h

/-! ### Sections -/

/-- **A section of a body**: the line of a label, and its own lines, which stand behind it. -/
structure Section where
  head : Line
  own : List Line

/-- The lines of a section. -/
def Section.lines (s : Section) : List Line := s.head :: s.own

/-- **A body is cut into sections** at the lines that end in a colon. -/
structure Cuts (ss : List Section) (body : List Line) : Prop where
  lines : ss.flatMap Section.lines = body
  head : ∀ s ∈ ss, s.head.text.toList.getLast? = some ':'
  own : ∀ s ∈ ss, ∀ l ∈ s.own, l.text.toList.getLast? ≠ some ':'

/-- A line that ends in a colon starts a section. -/
theorem Cuts.start {ss : List Section} {body : List Line} (h : Cuts ss body) {l : Line}
    (hl : l.text.toList.getLast? = some ':') : Cuts (ss ++ [⟨l, []⟩]) (body ++ [l]) := by
  refine ⟨?_, List.forall_mem_append.mpr ⟨h.head, by simpa using hl⟩,
    List.forall_mem_append.mpr ⟨h.own, by simp⟩⟩
  rw [List.flatMap_append, h.lines]
  rfl

/-- Any other line belongs to the section that was started last. -/
theorem Cuts.extend {ss : List Section} {s : Section} {body : List Line}
    (h : Cuts (ss ++ [s]) body) {l : Line} (hl : l.text.toList.getLast? ≠ some ':') :
    Cuts (ss ++ [⟨s.head, s.own ++ [l]⟩]) (body ++ [l]) := by
  obtain ⟨hheads, hhead⟩ := List.forall_mem_append.mp h.head
  obtain ⟨howns, hown⟩ := List.forall_mem_append.mp h.own
  refine ⟨?_, List.forall_mem_append.mpr ⟨hheads, by simpa using hhead⟩,
    List.forall_mem_append.mpr ⟨howns, by simpa [or_imp, forall_and, hl] using hown⟩⟩
  rw [← h.lines, List.flatMap_append, List.flatMap_append]
  simp [Section.lines]

/-- A section and the block that is created for it. -/
abbrev Opening := Section × BlockId

/-- The block with its own lines, as the second pass gets it. -/
def Opening.entry (p : Opening) : BlockId × List Line := (p.2, p.1.own)

/-- **The block is open for its section**: it has the label of the section, and is not terminated
yet. -/
structure Opening.Open (fn : Func) (p : Opening) : Prop where
  owns : fn.owns p.2
  label : p.1.head.text = (fn.block p.2).label ++ ":"
  term : (fn.block p.2).term = none

section Opening

variable {fn : Func} {p : Opening} {ps : List Opening}

/-- A block that is created later changes nothing. -/
theorem Opening.Open.createBlock (h : p.Open fn) (label : String) :
    p.Open (fn.createBlock label).2 := by
  have hblock : (fn.createBlock label).2.block p.2 = fn.block p.2 := by
    rw [Func.block_createBlock, if_neg]
    exact fun heq => Func.not_owns_createBlock label (heq ▸ h.owns)
  exact ⟨(Func.owns_createBlock label).mpr (.inl h.owns), by rw [hblock, h.label],
    by rw [hblock, h.term]⟩

/-- A block is created open, for a section without lines. -/
theorem open_createBlock {l : Line} {label : String} (h : l.text = label ++ ":") :
    Opening.Open (fn.createBlock label).2 (⟨l, []⟩, (fn.createBlock label).1) := by
  have hblock : (fn.createBlock label).2.block (fn.createBlock label).1 = { label := label } := by
    rw [Func.block_createBlock, if_pos rfl]
  exact ⟨(Func.owns_createBlock label).mpr (.inr rfl), by rw [hblock, h], by rw [hblock]⟩

theorem Opening.map_fst_entry : (ps.map Opening.entry).map Prod.fst = ps.map Prod.snd := by
  rw [List.map_map]
  rfl

theorem Opening.flatMap_entry :
    (ps.map Opening.entry).flatMap Prod.snd = (ps.map Prod.fst).flatMap Section.own := by
  rw [List.flatMap_map, List.flatMap_map]
  rfl

/-- Sections of different blocks have different labels. -/
theorem nodup_heads (hfn : Resolved fn) (hopen : ∀ p ∈ ps, p.Open fn)
    (hnodup : (ps.map Prod.snd).Nodup) :
    ((ps.map Prod.fst).map fun s => s.head.text).Nodup := by
  rw [List.map_map]
  refine List.Nodup.map_on (fun p hp q hq heq => ?_) (List.Nodup.of_map _ hnodup)
  have hlabel : (fn.block p.2).label = (fn.block q.2).label := by
    rw [Function.comp_apply, Function.comp_apply, (hopen p hp).label, (hopen q hq).label] at heq
    simpa using heq
  exact List.inj_on_of_nodup_map hnodup hp hq
    (hfn.labels p.2 q.2 (hopen p hp).owns (hopen q hq).owns hlabel)

end Opening

/-- **The first pass cuts a body into sections**, and opens a block for each. -/
theorem exists_openings_of_readLabels : ∀ {ls : List Line} {f fn : Func} {ps : List Opening}
    {blocks : List (BlockId × List Line)} {last last' : Line} {body : List Line},
    Cuts (ps.map Prod.fst) body → (∀ p ∈ ps, p.Open f) →
    readLabels f (ps.map Opening.entry) last ls = .ok (fn, blocks, last') →
      ∃ ps' : List Opening, Cuts (ps'.map Prod.fst) (body ++ ls) ∧ (∀ p ∈ ps', p.Open fn) ∧
        blocks = ps'.map Opening.entry ∧ last' = ls.getLast?.getD last
  | [], f, fn, ps, _, _, _, body, hcuts, hopen, h => by
    obtain ⟨rfl, hrest⟩ := Prod.mk.inj (Except.ok.inj h)
    obtain ⟨rfl, rfl⟩ := Prod.mk.inj hrest
    exact ⟨ps, by rwa [List.append_nil], hopen, rfl, rfl⟩
  | l :: ls, f, fn, ps, blocks, _, last', body, hcuts, hopen, h => by
    have hlast : (l :: ls).getLast? = some (ls.getLast?.getD l) := List.getLast?_cons
    rw [← List.singleton_append, ← List.append_assoc, List.singleton_append, hlast,
      Option.getD_some]
    rw [readLabels] at h
    split at h
    · next rev hrev =>
      have htext : l.text = String.ofList rev.reverse ++ ":" := by
        rw [← String.toList_inj, String.toList_append, String.toList_ofList,
          ← List.reverse_reverse l.text.toList, hrev, List.reverse_cons]
        rfl
      split at h
      · dsimp only at h
        split at h
        · exact absurd h (by simp)
        -- a label starts a section, and a block is created for it
        let p : Opening := (⟨l, []⟩, (f.createBlock (String.ofList rev.reverse)).1)
        have hentry : (ps ++ [p]).map Opening.entry = ps.map Opening.entry ++ [(p.2, [])] :=
          List.map_append
        have hcuts' : Cuts ((ps ++ [p]).map Prod.fst) (body ++ [l]) := by
          rw [List.map_append]
          exact hcuts.start (by simp [htext])
        have hopen' : ∀ q ∈ ps ++ [p], q.Open (f.createBlock (String.ofList rev.reverse)).2 :=
          List.forall_mem_append.mpr
            ⟨fun q hq => (hopen q hq).createBlock _, by simpa using open_createBlock htext⟩
        exact exists_openings_of_readLabels hcuts' hopen' (hentry ▸ h)
      · exact absurd h (by simp)
    · next hcolon =>
      have hplain : l.text.toList.getLast? ≠ some ':' := by
        intro heq
        rw [List.getLast?_eq_head?_reverse] at heq
        obtain ⟨rev, hrev⟩ := List.head?_eq_some_iff.mp heq
        exact hcolon rev hrev
      split at h
      · exact absurd h (by simp)
      · next b own hdone =>
        -- any other line goes to the section that was started last
        rw [List.getLast?_map, Option.map_eq_some_iff] at hdone
        obtain ⟨⟨s, c⟩, hp, hentry⟩ := hdone
        obtain ⟨rfl, rfl⟩ := Prod.mk.inj hentry
        obtain ⟨front, rfl⟩ := List.getLast?_eq_some_iff.mp hp
        let q : Opening := (⟨s.head, s.own ++ [l]⟩, c)
        have hentries : (front ++ [q]).map Opening.entry =
            ((front ++ [(s, c)]).map Opening.entry).dropLast ++ [(c, s.own ++ [l])] := by
          rw [List.map_append, List.map_append, List.map_singleton, List.map_singleton,
            List.dropLast_concat]
          rfl
        have hcuts' : Cuts ((front ++ [q]).map Prod.fst) (body ++ [l]) := by
          rw [List.map_append] at hcuts ⊢
          exact hcuts.extend hplain
        obtain ⟨hopens, hopen⟩ := List.forall_mem_append.mp hopen
        have hs : Opening.Open f (s, c) := hopen _ (by simp)
        have hopen' : ∀ p ∈ front ++ [q], p.Open f :=
          List.forall_mem_append.mpr ⟨hopens, by simpa using ⟨hs.owns, hs.label, hs.term⟩⟩
        exact exists_openings_of_readLabels hcuts' hopen' (hentries ▸ h)

/-! ### The second pass -/

variable {serial : Nat} {bs : List BlockId} {b c : BlockId} {d d' : Draft} {e : Error}
  {label : String}

/-- A line terminates no block but its own. -/
theorem Effect.term_of_ne (h : Effect b d d') (hb : d.func.owns b) (hne : c ≠ b) :
    (d'.func.block c).term = (d.func.block c).term := by
  cases h with
  | instr i h _ _ =>
    dsimp only
    rw [Func.block_modify (by rwa [h.owns]), if_neg hne, h.block]
  | phi p h _ _ =>
    dsimp only
    rw [Func.block_modify (by rwa [h.owns]), if_neg hne, h.block]
  | term t h htargets _ =>
    have hmarks := Marks.nothing h
    dsimp only
    rw [Func.block_terminate (by rwa [hmarks.owns]) htargets.owned]
    dsimp only
    rw [if_neg hne, hmarks.block]

/-- What the lines of the block `b` leave as it is, seen from the draft `d`. -/
structure Beside (b : BlockId) (d d' : Draft) : Prop where
  label : ∀ c, d'.func.label c = d.func.label c
  term : ∀ c ≠ b, (d'.func.block c).term = (d.func.block c).term

/-- The lines of a block change no label, and terminate no other block. -/
theorem reads_body_beside (hb : b ∈ bs) (hd : Outlined serial bs d) {own : List Line}
    (hown : ∀ l ∈ own, l.Plain) {u : Unit} (h : (readBody b own).run d = .ok (u, d')) :
    Outlined serial bs d' ∧ Beside b d d' := by
  refine reads_body_keeps hb (fun d₁ d₂ hd₁ hbeside _ heffect => ?_) own hown d
    ⟨hd, fun _ => rfl, fun _ _ => rfl⟩ u d' h
  have howns : d₁.func.owns b := by
    rw [← Func.mem_ids, hd₁.ids]
    exact hb
  exact ⟨fun c => heffect.label.trans (hbeside.label c),
    fun c hc => (heffect.term_of_ne howns hc).trans (hbeside.term c hc)⟩

/-- **Where the second pass finds a block without end**: all blocks in front of it have lines of
their own, and the line that it is reported at is the last that was looked at, which is the last of
the own lines up to this block. -/
theorem exists_open_of_readBlocks : ∀ {blocks : List (BlockId × List Line)} {last : Line}
    {d : Draft}, Outlined serial bs d → (∀ x ∈ blocks, x.1 ∈ bs) →
    (∀ l ∈ blocks.flatMap Prod.snd, l.Plain) → (blocks.map Prod.fst).Nodup →
    (∀ x ∈ blocks, (d.func.block x.1).term = none) →
    (readBlocks last blocks).run d = .error e → e.reason = .blockNotTerminated label →
      ∃ before x after, blocks = before ++ x :: after ∧ (∀ y ∈ before, y.2 ≠ []) ∧
        label = d.func.label x.1 ∧
        e.line = ((before ++ [x]).flatMap Prod.snd).getLast?.getD last
  | [], last, d, _, _, _, _, _, h, _ => by
    have hok : (.ok ((), d) : Except Error (Unit × Draft)) = .error e := h
    exact absurd hok (by simp)
  | (b, own) :: rest, last, d, hd, hbs, hplain, hnodup, hterm, h, hreason => by
    obtain ⟨hb, hbs⟩ := List.forall_mem_cons.mp hbs
    obtain ⟨hown, hplain⟩ := List.forall_mem_append.mp hplain
    obtain ⟨hnew, hnodup⟩ := List.nodup_cons.mp hnodup
    obtain ⟨hopen, hterm⟩ := List.forall_mem_cons.mp hterm
    rw [readBlocks, StateT.run_bind] at h
    rcases error_of_bind h with h | ⟨⟨u, d₁⟩, hbody, h⟩
    · exact absurd hreason (reason_of_readBody h)
    obtain ⟨hd₁, hbeside⟩ := reads_body_beside hb hd hown hbody
    rw [StateT.run_bind] at h
    rcases error_of_bind h with h | ⟨⟨a, d₂⟩, hget, h⟩
    · have habout : e.About last := Blames.get d₁ e h
      exact absurd hreason (habout.reason label)
    obtain ⟨rfl, rfl⟩ : d₁ = a ∧ d₁ = d₂ := Prod.mk.inj (Except.ok.inj hget)
    dsimp only at h
    split at h
    · obtain rfl : ⟨own.getLast?.getD last, .blockNotTerminated (d₁.func.label b)⟩ = e :=
        Except.error.inj h
      obtain rfl : d₁.func.label b = label := by simpa using hreason
      exact ⟨[], (b, own), rest, rfl, by simp, hbeside.label b, by simp⟩
    · next hended =>
      -- a block without lines would still be open
      have hne : own ≠ [] := by
        rintro rfl
        obtain ⟨-, rfl⟩ : () = u ∧ d = d₁ := Prod.mk.inj (Except.ok.inj hbody)
        exact hended (by simpa using hopen)
      have hterm₁ : ∀ x ∈ rest, (d₁.func.block x.1).term = none := by
        intro x hx
        have hxb : x.1 ≠ b := fun heq => hnew (List.mem_map.mpr ⟨x, hx, heq⟩)
        rw [hbeside.term x.1 hxb]
        exact hterm x hx
      obtain ⟨before, x, after, rfl, hbefore, hlabel, hline⟩ :=
        exists_open_of_readBlocks hd₁ hbs hplain hnodup hterm₁ h hreason
      refine ⟨(b, own) :: before, x, after, rfl, ?_, hlabel.trans (hbeside.label x.1), ?_⟩
      · exact List.forall_mem_cons.mpr ⟨hne, hbefore⟩
      · rw [hline, List.cons_append, List.flatMap_cons, List.getLast?_append]
        cases ((before ++ [x]).flatMap Prod.snd).getLast? <;> rfl

/-! ### Functions -/

/-- **The line that was looked at last** when the given sections had been read: the last of their
own lines, or else the last line of the body. -/
def reported (header : Line) (body : List Line) (read : List Section) : Line :=
  (read.flatMap Section.own).getLast?.getD (body.getLast?.getD header)

/-- **An open block of a body**: the body is cut into sections with different labels, one of them is
the section of the block, and those in front of it have lines of their own. -/
structure OpenIn (label : String) (body : List Line) (before : List Section) (s : Section)
    (after : List Section) : Prop where
  cuts : Cuts (before ++ s :: after) body
  heads : ((before ++ s :: after).map fun t => t.head.text).Nodup
  head : s.head.text = label ++ ":"
  before : ∀ t ∈ before, t.own ≠ []

/-- **Where the reader of a function finds a block without end.** -/
theorem exists_open_of_readFunc {header : Line} {body : List Line}
    (hplain : ∀ l ∈ header :: body, l.Plain) (h : readFunc serial header body = .error e)
    (hreason : e.reason = .blockNotTerminated label) :
    ∃ before s after, OpenIn label body before s after ∧
      e.line = reported header body (before ++ [s]) := by
  obtain ⟨hhead, hbody⟩ := List.forall_mem_cons.mp hplain
  rw [readFunc] at h
  rcases error_of_bind h with h | ⟨draft, hheader, h⟩
  · exact absurd hreason (reason_of_readHeader h)
  rcases error_of_bind h with h | ⟨⟨fn, blocks, last⟩, hlabels, h⟩
  · exact absurd hreason (reason_of_readLabels h)
  dsimp only at h
  split at h
  · obtain rfl := Except.error.inj h
    exact absurd hreason (by simp)
  have hstart : Outlined serial (([] : List (BlockId × List Line)).map Prod.fst) draft :=
    outlined_of_readHeader hhead hheader
  have houtline := outlined_of_readLabels hbody hstart hlabels
  have hnodup : (blocks.map Prod.fst).Nodup := houtline.ids ▸ Func.nodup_ids
  have hlines : ∀ l ∈ blocks.flatMap Prod.snd, l.Plain := fun l hl =>
    hbody l ((mem_of_readLabels hlabels hl).resolve_left (by simp))
  have hnone : Cuts (([] : List Opening).map Prod.fst) [] := ⟨rfl, by simp, by simp⟩
  obtain ⟨ps, hcuts, hopen, rfl, rfl⟩ := exists_openings_of_readLabels hnone (by simp) hlabels
  rcases error_of_bind h with h | ⟨⟨u, d⟩, -, h⟩
  · have hterm : ∀ x ∈ ps.map Opening.entry, (fn.block x.1).term = none := by
      intro x hx
      obtain ⟨p, hp, rfl⟩ := List.mem_map.mp hx
      exact (hopen p hp).term
    obtain ⟨before, x, after, hps, hbefore, hlabel, hline⟩ :=
      exists_open_of_readBlocks houtline (fun x hx => List.mem_map_of_mem hx) hlines hnodup hterm h
        hreason
    obtain ⟨front, rear, rfl, rfl, hrear⟩ := List.map_eq_append_iff.mp hps
    obtain ⟨p, rest, rfl, rfl, rfl⟩ := List.map_eq_cons_iff.mp hrear
    have hp : p.Open fn := hopen p (by simp)
    have hresolved := houtline.drafted.resolved
    rw [Opening.map_fst_entry] at hnodup
    have hheads := nodup_heads hresolved hopen hnodup
    rw [List.map_append, List.map_cons] at hcuts hheads
    refine ⟨front.map Prod.fst, p.1, rest.map Prod.fst, ⟨hcuts, hheads, ?_, ?_⟩, ?_⟩
    · have hname : fn.label p.2 = (fn.block p.2).label := hresolved.label_eq hp.owns
      rw [hp.label, ← hname]
      exact congrArg (· ++ ":") hlabel.symm
    · intro t ht
      obtain ⟨q, hq, rfl⟩ := List.mem_map.mp ht
      exact hbefore (Opening.entry q) (List.mem_map_of_mem hq)
    · have hfront : front.map Opening.entry ++ [p.entry] = (front ++ [p]).map Opening.entry := by
        rw [List.map_append, List.map_singleton]
      rw [hline, hfront, Opening.flatMap_entry, List.map_append, List.map_singleton, reported]
  · dsimp only at h
    split at h
    · obtain rfl := Except.error.inj h
      exact absurd hreason (by simp)
    · exact absurd h (by simp)

/-! ### Modules -/

/-- Lines without a brace, or lines that end at the first brace. -/
theorem exists_brace (ls : List Line) : (∀ l ∈ ls, l.text ≠ "\x7d") ∨ ∃ body brace rest,
    ls = body ++ brace :: rest ∧ (∀ l ∈ body, l.text ≠ "\x7d") ∧ brace.text = "\x7d" := by
  induction ls with
  | nil => simp
  | cons l ls ih =>
    by_cases hl : l.text = "\x7d"
    · exact .inr ⟨[], l, ls, rfl, by simp, hl⟩
    · rcases ih with ih | ⟨body, brace, rest, rfl, hbody, hbrace⟩
      · exact .inl (List.forall_mem_cons.mpr ⟨hl, ih⟩)
      · exact .inr ⟨l :: body, brace, rest, rfl, List.forall_mem_cons.mpr ⟨hl, hbody⟩, hbrace⟩

/-- **The first function that cannot be read**: those in front of it can be read, and its body
stands between a header and a brace. -/
structure Fails (serial : Nat) (done : List Func) (ls : List Line) (header : Line)
    (body : List Line) (e : Error) : Prop where
  lines : ∃ front brace rest fns, ls = front ++ header :: (body ++ brace :: rest) ∧
    brace.text = "\x7d" ∧ readFuncs serial done none front = .ok fns ∧
    readFunc (serial + fns.length) header body = .error e
  header : Text.startsWith "func " header.text = true
  body : ∀ l ∈ body, l.text ≠ "\x7d"

/-- **A block without end is found in a function.** -/
theorem exists_fails_of_readFuncs : ∀ {ls : List Line} {done : List Func},
    readFuncs serial done none ls = .error e → e.reason = .blockNotTerminated label →
      ∃ header body, Fails serial done ls header body e
  | [], done, h, _ => absurd h (by simp [readFuncs])
  | l :: ls, done, h, hreason => by
    by_cases hheader : Text.startsWith "func " l.text = true
    case neg =>
      rw [readFuncs, if_neg hheader] at h
      obtain rfl := Except.error.inj h
      exact absurd hreason (by simp)
    rcases exists_brace ls with hls | ⟨body, brace, rest, rfl, hbody, hbrace⟩
    · have hopen : readFuncs serial done (some (l, [])) (ls ++ []) =
          readFuncs serial done (some (l, [] ++ ls)) [] := readFuncs_body ls [] hls
      rw [readFuncs, if_pos hheader, ← List.append_nil ls, hopen] at h
      obtain rfl := Except.error.inj h
      exact absurd hreason (by simp)
    rw [readFuncs_braced hheader hbody hbrace] at h
    rcases error_of_bind h with h | ⟨fn, hread, h⟩
    · exact ⟨l, body, ⟨[], brace, rest, done, rfl, hbrace, rfl, h⟩, hheader, hbody⟩
    split at h
    · obtain rfl := Except.error.inj h
      exact absurd hreason (by simp)
    next hnew =>
    have hshorter : rest.length < (l :: (body ++ brace :: rest)).length := by
      simp only [List.length_cons, List.length_append]
      omega
    obtain ⟨header, body', hfails⟩ := exists_fails_of_readFuncs h hreason
    obtain ⟨front, brace', rest', fns, rfl, hbrace', hfront, hfail⟩ := hfails.lines
    refine ⟨header, body', ⟨l :: (body ++ brace :: front), brace', rest', fns, ?_, hbrace', ?_,
      hfail⟩, hfails.header, hfails.body⟩
    · simp
    · rw [readFuncs_braced hheader hbody hbrace, hread]
      simpa [bind, Except.bind, hnew] using hfront
termination_by ls => ls.length

/-! ### Lines of a text -/

/-- **What a line of a text is**: its number, and what is left of it. -/
theorem exists_raw_of_mem_numbered {l : Line} : ∀ {ls : List (List Char)} {n : Nat},
    l ∈ numbered n ls → ∃ i raw, ls[i]? = some raw ∧ l = ⟨n + i, String.ofList (strip raw)⟩
  | [], _, h => by simp [numbered] at h
  | cs :: ls, n, h => by
    have hlater : l ∈ numbered (n + 1) ls → ∃ i raw, (cs :: ls)[i]? = some raw ∧
        l = ⟨n + i, String.ofList (strip raw)⟩ := by
      intro h
      obtain ⟨i, raw, hraw, rfl⟩ := exists_raw_of_mem_numbered h
      exact ⟨i + 1, raw, by simpa using hraw, by rw [Nat.add_assoc, Nat.add_comm 1 i]⟩
    rw [numbered] at h
    split at h
    · exact hlater h
    · rcases List.mem_cons.mp h with rfl | h
      · exact ⟨0, cs, rfl, rfl⟩
      · exact hlater h

/-! ### Where the error is placed -/

section OpenIn

variable {body : List Line} {before after : List Section} {s : Section} {header line : Line}

/-- The lines of another section are not the line of the label. -/
theorem OpenIn.ne_head (h : OpenIn label body before s after) {t : Section}
    (ht : t ∈ before ++ after) {l : Line} (hl : l ∈ t.lines) : l ≠ s.head := by
  have hmem : t ∈ before ++ s :: after := by
    rcases List.mem_append.mp ht with ht | ht <;> simp [ht]
  rcases List.mem_cons.mp hl with rfl | hl
  · have hnew : s.head.text ∉ (before ++ after).map fun t => t.head.text := by
      have hheads := h.heads
      rw [List.map_append, List.map_cons] at hheads
      rw [List.map_append]
      exact (List.nodup_middle.mp hheads).notMem
    intro heq
    exact hnew (heq ▸ List.mem_map_of_mem ht)
  · intro heq
    exact h.cuts.own t hmem l hl (heq ▸ h.cuts.head s (by simp))

theorem OpenIn.body_eq (h : OpenIn label body before s after) :
    body = before.flatMap Section.lines ++ (s.lines ++ after.flatMap Section.lines) := by
  rw [← h.cuts.lines, List.flatMap_append, List.flatMap_cons]

/-- The line is one of the body. -/
theorem OpenIn.reported_mem (h : OpenIn label body before s after) :
    reported header body (before ++ [s]) ∈ body := by
  rw [reported]
  cases hown : ((before ++ [s]).flatMap Section.own).getLast? with
  | some l =>
    obtain ⟨t, ht, hl⟩ := List.mem_flatMap.mp (List.mem_of_getLast? hown)
    have hmem : t ∈ before ++ s :: after := by
      rcases List.mem_append.mp ht with ht | ht <;> simp_all
    rw [← h.cuts.lines]
    exact List.mem_flatMap.mpr ⟨t, hmem, List.mem_cons_of_mem _ hl⟩
  | none =>
    have hne : body ≠ [] := by simp [h.body_eq, Section.lines]
    rw [List.getLast?_eq_some_getLast hne]
    exact List.getLast_mem hne

/-- **When the line is one of the block**: when the block has lines of its own, or when it is the
only block. -/
theorem OpenIn.reported_mem_iff (h : OpenIn label body before s after) :
    reported header body (before ++ [s]) ∈ s.lines ↔ s.own ≠ [] ∨ before = [] ∧ after = [] := by
  rw [reported, List.flatMap_append, List.flatMap_singleton]
  by_cases hown : s.own = []
  case neg =>
    refine iff_of_true ?_ (.inl hown)
    rw [List.getLast?_append_of_ne_nil _ hown, List.getLast?_eq_some_getLast hown]
    exact List.mem_cons_of_mem _ (List.getLast_mem hown)
  have hlines : s.lines = [s.head] := by rw [Section.lines, hown]
  rw [hown, List.append_nil, hlines, List.mem_singleton]
  cases hbefore : (before.flatMap Section.own).getLast? with
  | some l =>
    -- the block in front of this one was read last
    obtain ⟨t, ht, hl⟩ := List.mem_flatMap.mp (List.mem_of_getLast? hbefore)
    refine iff_of_false (h.ne_head (List.mem_append_left _ ht) (List.mem_cons_of_mem _ hl)) ?_
    rintro (hne | ⟨rfl, -⟩)
    · exact hne rfl
    · simp at ht
  | none =>
    obtain rfl : before = [] := by
      cases before with
      | nil => rfl
      | cons t before => simp [h.before t] at hbefore
    have hbody := h.body_eq
    rw [hlines, List.flatMap_nil, List.nil_append, List.singleton_append] at hbody
    -- no line was read yet, and the labels were looked at to the end of the body
    cases after with
    | nil => simp [hbody]
    | cons t after =>
      have hrest : (t :: after).flatMap Section.lines ≠ [] := by simp [Section.lines]
      obtain ⟨u, hu, hl⟩ := List.mem_flatMap.mp (List.getLast_mem hrest)
      rw [hbody, List.getLast?_cons, List.getLast?_eq_some_getLast hrest]
      exact iff_of_false (h.ne_head (by simpa using hu) hl) (by simp)

end OpenIn

end Source

open Source

/-- **Where a block without end is reported.** The error is found in the first function that cannot
be read. Its body is cut into sections at the labels, the section of the block is one of them, and
all those in front of it have lines of their own. The error is placed at the line of the text that
was looked at last: at the last own line of the block; if it has none, at the last own line of the
block in front of it; and if there is none either, at the last line of the body. So the line is the
label or an own line of the block just when the block has lines of its own or is the only one. -/
theorem Module.open_block_reported {src : String} {serial : Nat} {e : Error} {label : String}
    (h : Module.parse src serial = .error e) (hreason : e.reason = .blockNotTerminated label) :
    ∃ header body before s after, Fails serial [] (readLines src) header body e ∧
      OpenIn label body before s after ∧ e.line = reported header body (before ++ [s]) ∧
      (e.line ∈ s.lines ↔ s.own ≠ [] ∨ before = [] ∧ after = []) ∧
      ∃ i raw, (Text.lines src.toList)[i]? = some raw ∧
        e.line = ⟨i + 1, String.ofList (strip raw)⟩ := by
  obtain ⟨header, body, hfails⟩ := exists_fails_of_readFuncs (map_eq_error.mp h) hreason
  obtain ⟨front, brace, rest, fns, hlines, -, -, hfail⟩ := hfails.lines
  have hmem : ∀ l ∈ header :: body, l ∈ readLines src := by
    intro l hl
    rw [hlines, ← List.cons_append]
    exact List.mem_append_right _ (List.mem_append_left _ hl)
  obtain ⟨before, s, after, hopen, hline⟩ :=
    exists_open_of_readFunc (fun l hl => plain_of_mem_readLines (hmem l hl)) hfail hreason
  refine ⟨header, body, before, s, after, hfails, hopen, hline, ?_, ?_⟩
  · rw [hline]
    exact hopen.reported_mem_iff
  · obtain ⟨i, raw, hraw, heq⟩ := exists_raw_of_mem_numbered
      (hmem e.line (List.mem_cons_of_mem _ (hline ▸ hopen.reported_mem)))
    exact ⟨i, raw, hraw, by rw [heq, Nat.add_comm]⟩

/-- A function whose second block holds nothing. -/
def emptyBlockText : String := "func @f() \x7b\na:\n    jmp c ; on\nb:\nc:\n    ret\n\x7d\n"

/-- The block is reported at the jump of the block in front of it. -/
theorem Module.emptyBlock_reported :
    Module.parse emptyBlockText = .error ⟨⟨3, "jmp c"⟩, .blockNotTerminated "b"⟩ ∧
      ∃ header body before s after,
        Fails 0 [] (readLines emptyBlockText) header body
          ⟨⟨3, "jmp c"⟩, .blockNotTerminated "b"⟩ ∧
        OpenIn "b" body before s after ∧ ⟨3, "jmp c"⟩ = reported header body (before ++ [s]) ∧
        (⟨3, "jmp c"⟩ ∈ s.lines ↔ s.own ≠ [] ∨ before = [] ∧ after = []) ∧
        ∃ i raw, (Text.lines emptyBlockText.toList)[i]? = some raw ∧
          (⟨3, "jmp c"⟩ : Line) = ⟨i + 1, String.ofList (strip raw)⟩ := by
  have hparse : Module.parse emptyBlockText = .error ⟨⟨3, "jmp c"⟩, .blockNotTerminated "b"⟩ := by
    decide +kernel
  exact ⟨hparse, Module.open_block_reported hparse rfl⟩

/-- A first block that holds nothing is reported at the last line of the body, although that line
belongs to the block behind it. -/
theorem Module.emptyEntry_reported_elsewhere :
    Module.parse "func @f() \x7b\na:\nb:\n    ret\n\x7d\n" =
        .error ⟨⟨4, "ret"⟩, .blockNotTerminated "a"⟩ ∧
      OpenIn "a" [⟨2, "a:"⟩, ⟨3, "b:"⟩, ⟨4, "ret"⟩] [] ⟨⟨2, "a:"⟩, []⟩
        [⟨⟨3, "b:"⟩, [⟨4, "ret"⟩]⟩] ∧
      (⟨4, "ret"⟩ : Line) ∉ (⟨⟨2, "a:"⟩, []⟩ : Section).lines :=
  ⟨by decide +kernel, ⟨⟨rfl, by decide, by decide⟩, by decide, rfl, by simp⟩, by decide⟩

end BranchFusion
