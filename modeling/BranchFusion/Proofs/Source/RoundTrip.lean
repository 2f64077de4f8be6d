import BranchFusion.Proofs.Source.Rereading
import BranchFusion.Proofs.Source.WellBuilt

/-!
# Reading undoes printing

A spellable function that is printed and read back is isomorphic to the function it was
(`BranchFusion.Source.readFunc_of_printed`), if no line of it ends in a colon. So is a module
(`BranchFusion.Module.exists_parse_text`), and in particular a module of printable functions
(`BranchFusion.Module.parse_undoes_text`).

The text is read in the order of the reader: the header, which defines the parameters; the labels,
which create all blocks; and then the lines of one block after the other. Nothing that is mentioned
is left undefined, since what a spellable function uses it defines.
-/

namespace BranchFusion

namespace Source

variable {fn : Func} {serial : Nat} {st : Stage} {d : Draft} {line : Line} {b : BlockId}

/-! ### Headers -/

/-- What is read of a function when some blocks are known by their labels and there are some
parameters. -/
def stageWith (fn : Func) (params : List Value) (blocks : List BlockId) : Stage where
  params := params
  defined := params
  blocks := blocks
  body b := { label := fn.label b }

theorem progress_start (fn : Func) (serial : Nat) :
    Progress fn serial (stageWith fn [] []) { func := { serial := serial, name := fn.name } } := by
  refine
    { name := rfl, number := rfl, size := rfl, ids := rfl, unique := ?_, origin := ?_,
      mentioned := ?_, known := ?_, marked := ?_, sound := ?_, labelled := ?_, params := ?_,
      body := ?_ } <;> simp [stageWith]

/-- **The parameters are read** one after the other. -/
theorem accepts_params (hfn : fn.Spellable) (line : Line) : ∀ rest done : List Value,
    (done ++ rest).Nodup → (∀ v ∈ rest, fn.Defined v) →
      Accepts (Progress fn serial (stageWith fn done [])) (readParams line (rest.map Value.text))
        fun _ => Progress fn serial (stageWith fn (done ++ rest) [])
  | [], done, _, _ => by
    rw [List.append_nil]
    exact .pure fun d hd => hd
  | v :: rest, done, hnodup, hdefined => by
    have hnew : v ∉ (stageWith fn done []).defined := fun hmem =>
      (List.nodup_append.mp hnodup).2.2 v hmem v (by simp) rfl
    rw [List.map_cons, readParams]
    refine .bind ((accepts_definition (G := fun _ => True) hfn (hdefined v (by simp)) hnew).weaken
      (fun d hd => ⟨hd, fun _ _ => trivial⟩) fun _ _ hd => hd) fun a => ?_
    have hrest := accepts_params hfn line rest (done ++ [v]) (by simpa using hnodup)
      fun w hw => hdefined w (List.mem_cons_of_mem v hw)
    rw [List.append_assoc, List.singleton_append] at hrest
    refine .bind (.edit fun d hd => ?_) fun _ => hrest
    refine { hd.1 with params := fun N hN => ?_, body := by simp [stageWith] }
    show d.func.params ++ [a] = (done ++ [v]).map fun v => N v.name
    have hparams : d.func.params = done.map fun v => N v.name := hd.1.params N hN
    have ha : a = N v.name := (hd.2 N hN).2
    rw [hparams, ha, List.map_append, List.map_singleton]

theorem readHeader_of_printed (hfn : fn.Spellable) (serial : Nat)
    (hline : line.text = fn.headerLine) :
    ∃ d, readHeader serial line = .ok d ∧ Progress fn serial (stageWith fn fn.params []) d := by
  have hnodup : ([] ++ fn.params).Nodup := (List.nodup_append.mp hfn.nodup).1
  obtain ⟨u, d, hrun, hd⟩ := accepts_params hfn line fn.params [] hnodup
    (fun v hv => Or.inl hv) _ (progress_start fn serial)
  refine ⟨d, ?_, hd⟩
  have hname : nameAfter? '@' ("@" ++ fn.name) = some fn.name :=
    nameAfter?_text '@' hfn.name.ne_nil (by rw [String.toList_append]; rfl)
  have hwords : words line.text =
      "func" :: ("@" ++ fn.name) :: (fn.params.map Value.text ++ ["\x7b"]) := by
    rw [hline, words_headerLine hfn]
    rfl
  have hheader : ¬((words line.text).length < 3 ∨ (words line.text).getLast? ≠ some "\x7b") := by
    rintro (hshort | hlast)
    · rw [hwords] at hshort
      simp at hshort
      omega
    · rw [hline, words_headerLine hfn] at hlast
      exact hlast List.getLast?_concat
  rw [readHeader, if_neg hheader, hwords]
  simp only [List.drop_succ_cons, List.drop_zero, List.headD_cons, hname, List.dropLast_concat]
  rw [hrun]
  rfl

/-! ### Labels -/

/-- A new block gets the place of the next block. -/
theorem Progress.place_eq (h : Progress fn serial st d) (hnext : fn.ids.idxOf b = st.blocks.length)
    (label : String) : (d.func.createBlock label).1 = place fn serial b := by
  rw [Func.createBlock, place, hnext, h.number, h.size]

/-- **A block that is created** is the next one of the function that was printed. -/
theorem Progress.createBlock (h : Progress fn serial st d)
    (hnext : fn.ids.idxOf b = st.blocks.length) (hbody : st.body b = { label := fn.label b }) :
    Progress fn serial { st with blocks := st.blocks ++ [b] }
      { d with func := (d.func.createBlock (fn.label b)).2 } := by
  have hid := h.place_eq hnext (fn.label b)
  refine
    { h with
      size := ?size, ids := ?ids
      labelled := fun c hc => ?labelled, body := fun N hN c hc => ?body }
  case size =>
    show (d.func.blocks.push _).size = (st.blocks ++ [b]).length
    rw [Array.size_push, h.size, List.length_append, List.length_singleton]
  case ids =>
    show (d.func.createBlock (fn.label b)).2.ids = (st.blocks ++ [b]).map (place fn serial)
    rw [Func.ids_createBlock, hid, h.ids, List.map_append, List.map_singleton]
  case labelled =>
    rcases List.mem_append.mp hc with hc | hc
    · exact h.labelled c hc
    · rw [List.mem_singleton.mp hc, hbody]
  case body =>
    show content ((d.func.createBlock (fn.label b)).2.block (place fn serial c)) = _
    rw [Func.block_createBlock, hid]
    rcases List.mem_append.mp hc with hc | hc
    · have hne : place fn serial c ≠ place fn serial b := by
        intro heq
        have hnot : ¬d.func.owns (d.func.createBlock (fn.label b)).1 :=
          Func.not_owns_createBlock (fn.label b)
        rw [hid, ← heq] at hnot
        exact hnot (h.owns_place hc)
      rw [if_neg hne]
      exact h.body N hN c hc
    · rw [List.mem_singleton.mp hc, if_pos rfl, hbody]
      rfl

/-- Lines that do not end in a colon go to the last block. -/
theorem readLabels_statements (f : Func) (blocks : List (BlockId × List Line)) (b : BlockId)
    (rest : List Line) : ∀ (own acc : List Line) (last : Line),
    (∀ l ∈ own, l.text.toList.getLast? ≠ some ':') →
      ∃ last', readLabels f (blocks ++ [(b, acc)]) last (own ++ rest) =
        readLabels f (blocks ++ [(b, acc ++ own)]) last' rest
  | [], acc, last, _ => ⟨last, by rw [List.append_nil, List.nil_append]⟩
  | l :: own, acc, last, h => by
    obtain ⟨last', hrest⟩ := readLabels_statements f blocks b rest own
      (acc ++ [l]) l fun x hx => h x (List.mem_cons_of_mem l hx)
    refine ⟨last', ?_⟩
    rw [List.append_assoc acc, List.singleton_append] at hrest
    rw [List.cons_append, readLabels]
    split
    · next rev hrev =>
      refine absurd ?_ (h l (by simp))
      rw [← List.head?_reverse, hrev]
      rfl
    · rw [List.getLast?_concat, List.dropLast_concat]
      exact hrest

/-- **The labels are read** one after the other. -/
theorem readLabels_of_printed (hfn : fn.Spellable) (hcolon : fn.Colonless) :
    ∀ (rest done : List BlockId) (ls : List Line)
    (blocks : List (BlockId × List Line)) (d : Draft) (last : Line), fn.ids = done ++ rest →
    ls.map Line.text = rest.flatMap (blockTexts fn) →
    Progress fn serial (stageWith fn fn.params done) d →
    d.func.blocks.toList.map Block.label = done.map fn.label → Gathered fn serial done blocks →
      ∃ f blocks' last', readLabels d.func blocks last ls = .ok (f, blocks', last') ∧
        Progress fn serial (stageWith fn fn.params fn.ids) { d with func := f } ∧
        Gathered fn serial fn.ids blocks'
  | [], done, ls, blocks, d, last, hids, hls, hd, _, hgathered => by
    obtain rfl : ls = [] := by simpa using hls
    rw [List.append_nil] at hids
    rw [hids]
    exact ⟨d.func, blocks, last, rfl, hd, hgathered⟩
  | b :: rest, done, ls, blocks, d, last, hids, hls, hd, hlabels, hgathered => by
    obtain ⟨hb, hnew, hnext⟩ := next_of_ids hids
    -- the lines are the label, those of the block, and the rest
    rw [List.flatMap_cons, blockTexts, List.cons_append] at hls
    obtain ⟨l, ls, rfl, hl, hls⟩ := List.map_eq_cons_iff.mp hls
    obtain ⟨own, ls, rfl, hown, hls⟩ := List.map_eq_append_iff.mp hls
    have hstatements : ∀ x ∈ own, x.text.toList.getLast? ≠ some ':' := fun x hx =>
      hcolon b hb x.text (hown ▸ List.mem_map_of_mem hx)
    have hrev : l.text.toList.reverse = ':' :: (fn.label b).toList.reverse := by
      rw [hl, String.toList_append, List.reverse_append]
      rfl
    -- the blocks so far have the labels of other blocks of `fn`
    have hfresh : ¬(d.func.blocks.any fun bb => bb.label = fn.label b) = true := by
      rw [Array.any_eq_true']
      rintro ⟨bb, hbb, hlabel⟩
      have hmem : bb.label ∈ done.map fn.label :=
        hlabels ▸ List.mem_map_of_mem (Array.mem_toList_iff.mpr hbb)
      obtain ⟨c, hc, hcb⟩ := List.mem_map.mp hmem
      have hcown : fn.owns c := by rw [← Func.mem_ids, hids]; simp [hc]
      refine hnew (hfn.labels c b hcown hb (hcb.trans ?_) ▸ hc)
      simpa using hlabel
    have hstep := hd.createBlock hnext rfl
    obtain ⟨last', hskip⟩ := readLabels_statements (d.func.createBlock (fn.label b)).2 blocks
      (place fn serial b) ls own [] l hstatements
    obtain ⟨f, blocks', last'', hread, hprogress, hgathered'⟩ :=
      readLabels_of_printed hfn hcolon rest (done ++ [b]) ls (blocks ++ [(place fn serial b, own)])
        { d with func := (d.func.createBlock (fn.label b)).2 } last' (by simpa using hids) hls hstep
        (by simp [Func.createBlock, hlabels]) (List.rel_append hgathered (.cons ⟨rfl, hown⟩ .nil))
    refine ⟨f, blocks', last'', ?_, hprogress, hgathered'⟩
    rw [readLabels, hrev]
    simp only [List.reverse_reverse, String.ofList_toList, (hfn.label b hb).1, if_true,
      if_neg hfresh]
    rw [hd.place_eq hnext, hskip, List.nil_append]
    exact hread

/-! ### Functions -/

theorem stageAfter_nil (fn : Func) : stageAfter fn [] = stageWith fn fn.params fn.ids := by
  simp [stageAfter, stageWith]

/-- Nothing that was mentioned is left undefined. -/
theorem Progress.find_mentions (h : Progress fn serial (stageAfter fn fn.ids) d) :
    (d.mentions.find? fun m => !d.defined.contains m.1) = none := by
  rw [List.find?_eq_none]
  intro e he
  have hvalue := h.mentioned e he
  obtain ⟨w, hw, hname⟩ := h.origin e.1 hvalue
  have hmem : w ∈ (stageAfter fn fn.ids).defined := Func.mem_definedValues.mpr hw
  obtain ⟨v, hv, hvname⟩ := List.mem_map.mp ((h.marked w.name).mpr (List.mem_map_of_mem hmem))
  have heq : v = e.1 := h.unique v (h.known v hv) e.1 hvalue (hvname.trans hname)
  simpa [heq] using hv

/-- **A function that has been read to its end is a copy** of the function that was printed. -/
theorem Progress.copies (hfn : fn.Spellable) (h : Progress fn serial (stageAfter fn fn.ids) d)
    (hwell : d.func.WellBuilt) (hroot : d.func.root = d.func.ids.head?) :
    ∃ ν, Func.Copies (place fn serial) ν fn d.func := by
  obtain ⟨N, hN, hname⟩ := h.exists_told
  have hbody : ∀ b, fn.owns b → content (d.func.block (place fn serial b)) =
      renameBody (place fn serial) (fun v => N v.name) (printedBlock fn b) := by
    intro b hb
    have hmem : b ∈ fn.ids := Func.mem_ids.mpr hb
    have heq := h.body N hN b hmem
    simpa only [stageAfter, if_pos hmem] using heq
  have hterm : ∀ b, fn.owns b → (d.func.block (place fn serial b)).term =
      (fn.block b).term.map (Terminator.rename (place fn serial) fun v => N v.name) :=
    fun b hb => congrArg Block.term (hbody b hb)
  have hinj : ∀ b c, fn.owns b → fn.owns c → place fn serial b = place fn serial c → b = c :=
    fun b c hb _ heq => place_inj hb heq
  -- predecessors were not followed on the way: terminators decide them, since both are wired
  refine ⟨fun v => N v.name,
    { name := h.name, params := h.params N hN, root := ?root, ids := h.ids, label := ?label,
      phis := fun b hb => congrArg Block.phis (hbody b hb),
      instrs := fun b hb => congrArg Block.instrs (hbody b hb), term := hterm,
      preds := fun b hb => Func.preds_perm_of_wired hfn.toWired hwell.toWired h.ids hterm hinj hb,
      block_inj := hinj, value_inj := ?value_inj, valueName := fun v => hname v.name }⟩
  case root =>
    rw [hroot, h.ids, hfn.first, List.head?_map]
    rfl
  case label =>
    intro b hb
    have hne : fn.label b ≠ "" := by
      intro hempty
      exact (hfn.labelName hb).ne_nil (by rw [hempty]; rfl)
    have hlabel := h.label (Func.mem_ids.mpr hb)
    rw [Func.label, hlabel]
    exact if_neg hne
  case value_inj =>
    intro v w hv hw heq
    refine hfn.values v w hv hw ?_
    rw [← hname v.name, heq, hname]

/-- The lines of a printed function are plain. -/
theorem plain_of_printed (hfn : fn.Spellable) {header : Line} {ls : List Line}
    (hheader : header.text = fn.headerLine)
    (hls : ls.map Line.text = fn.ids.flatMap (blockTexts fn)) : ∀ l ∈ header :: ls, l.Plain := by
  refine List.forall_mem_cons.mpr ⟨?_, fun l hl => ?_⟩
  · rw [Line.Plain, hheader]
    exact (clean_headerLine hfn).2
  · have hmem : l.text ∈ fn.ids.flatMap (blockTexts fn) := hls ▸ List.mem_map_of_mem hl
    obtain ⟨b, hb, hmem⟩ := List.mem_flatMap.mp hmem
    exact (isLine_blockTexts hfn (Func.mem_ids.mp hb) l.text hmem).clean.2

/-- **A printed function is read back**, up to isomorphism. -/
theorem readFunc_of_printed (hfn : fn.Spellable) (hcolon : fn.Colonless) (serial : Nat)
    {header : Line} {ls : List Line} (hheader : header.text = fn.headerLine)
    (hls : ls.map Line.text = fn.ids.flatMap (blockTexts fn)) :
    ∃ fn', readFunc serial header ls = .ok fn' ∧ fn.Isomorphic fn' := by
  obtain ⟨draft, hdraft, hstart⟩ := readHeader_of_printed hfn serial hheader
  have hnone : draft.func.blocks.toList.map Block.label = [] := by
    have hsize : draft.func.blocks.size = 0 := hstart.size
    rw [Array.eq_empty_of_size_eq_zero hsize]
    rfl
  obtain ⟨f, blocks, last, hlabels, houtline, hgathered⟩ :=
    readLabels_of_printed hfn hcolon fn.ids [] ls [] draft header rfl hls hstart hnone .nil
  rw [← stageAfter_nil] at houtline
  obtain ⟨u, d, hrun, hd⟩ := accepts_blocks hfn fn.ids [] blocks last rfl hgathered _ houtline
  have hnonempty : blocks.isEmpty = false := by
    obtain ⟨r, -, hr⟩ := hfn.entry
    rw [List.isEmpty_eq_false_iff]
    rintro rfl
    have hids := List.forall₂_nil_right_iff.mp hgathered
    rw [← Func.mem_ids, hids] at hr
    exact absurd hr (by simp)
  have hread : readFunc serial header ls = .ok d.func := by
    simp only [readFunc, hdraft, hlabels, hnonempty, hrun, hd.find_mentions, bind, Except.bind,
      Bool.false_eq_true, if_false]
  -- what was read is well built, whatever the text
  obtain ⟨d', hfinished, hfunc, -⟩ := exists_finished_of_readFunc
    (plain_of_printed hfn hheader hls) hread
  obtain ⟨ν, hcopies⟩ := hd.copies hfn (hfunc ▸ hfinished.wellBuilt)
    (hfunc ▸ hfinished.drafted.connected.root)
  exact ⟨d.func, hread, _, ν, hcopies⟩

/-! ### Modules -/

/-- A line of one word is a return without results. -/
theorem eq_ret_of_spelling {label : BlockId → String} {it : Item} {s : String}
    (h : it.spelling label = [s]) : s = "ret" := by
  cases it with
  | phi p => simp [Item.spelling] at h
  | instr i =>
    cases i with
    | const r w => simp [Item.spelling] at h
    | binary r op x y => simp [Item.spelling] at h
    | call r f args => cases r <;> simp [Item.spelling] at h
  | term t =>
    cases t with
    | ret vs => exact (List.cons.inj h).1.symm
    | _ => simp [Item.spelling] at h

/-- No line of a block is taken for the end of the function. -/
theorem blockTexts_ne_brace (hfn : fn.Spellable) (hb : fn.owns b) :
    ∀ s ∈ blockTexts fn b, s ≠ "\x7d" := by
  intro s hs heq
  rcases List.mem_cons.mp hs with rfl | hs
  · have hlast := congrArg (fun s : String => s.toList.getLast?) heq
    simp [String.toList_append] at hlast
  · rw [Func.blockLines_eq] at hs
    obtain ⟨it, hit, rfl⟩ := List.mem_map.mp hs
    have hone : it.spelling fn.label = ["\x7d"] := by
      rw [← Item.words_text (hfn.writable hb hit), heq]
      rfl
    exact absurd (eq_ret_of_spelling hone) (by decide)

theorem readFuncs_body {done : List Func} {header : Line} {rest : List Line} :
    ∀ body acc : List Line, (∀ l ∈ body, l.text ≠ "\x7d") →
      readFuncs serial done (some (header, acc)) (body ++ rest) =
        readFuncs serial done (some (header, acc ++ body)) rest
  | [], acc, _ => by rw [List.nil_append, List.append_nil]
  | l :: body, acc, h => by
    rw [List.cons_append, readFuncs, if_pos (h l (by simp)),
      readFuncs_body body (acc ++ [l]) fun x hx => h x (List.mem_cons_of_mem l hx),
      List.append_assoc, List.singleton_append]

theorem startsWith_headerLine (fn : Func) : Text.startsWith "func " fn.headerLine = true := by
  rw [Text.startsWith, List.isPrefixOf_iff_prefix, Func.headerLine]
  simp only [String.toList_append, List.append_assoc]
  exact ⟨'@' :: _, rfl⟩

/-- The lines of functions are those of the first, with a header, a body and a brace, and the
rest. -/
theorem exists_lines_of_funcTexts {fns : List Func} {ls : List Line}
    (h : ls.map Line.text = (fn :: fns).flatMap funcTexts) : ∃ header body brace rest,
      ls = header :: (body ++ brace :: rest) ∧ header.text = fn.headerLine ∧
      body.map Line.text = fn.ids.flatMap (blockTexts fn) ∧ brace.text = "\x7d" ∧
      rest.map Line.text = fns.flatMap funcTexts := by
  rw [List.flatMap_cons, funcTexts, List.cons_append, List.cons_append, List.append_assoc] at h
  obtain ⟨header, ls, rfl, hheader, h⟩ := List.map_eq_cons_iff.mp h
  obtain ⟨body, ls, rfl, hbody, h⟩ := List.map_eq_append_iff.mp h
  obtain ⟨brace, rest, rfl, hbrace, hrest⟩ := List.map_eq_cons_iff.mp h
  exact ⟨header, body, brace, rest, rfl, hheader, hbody, hbrace, hrest⟩

/-- **A function is cut out of a text**: it is read from its header and its body, and the reader
goes on behind its brace. -/
theorem readFuncs_braced {done : List Func} {header brace : Line} {body rest : List Line}
    (hheader : Text.startsWith "func " header.text = true) (hbody : ∀ l ∈ body, l.text ≠ "\x7d")
    (hbrace : brace.text = "\x7d") :
    readFuncs serial done none (header :: (body ++ brace :: rest)) =
      (do
        let fn ← readFunc (serial + done.length) header body
        if done.any fun f => f.name = fn.name then .error ⟨header, .duplicatedFunction fn.name⟩
        else readFuncs serial (done ++ [fn]) none rest) := by
  rw [readFuncs, if_pos hheader, readFuncs_body body [] hbody, List.nil_append, readFuncs, hbrace,
    if_neg (by simp)]

/-- So a function is cut out of a printed text. -/
theorem readFuncs_func (hfn : fn.Spellable) {done : List Func} {header brace : Line}
    {body rest : List Line} (hheader : header.text = fn.headerLine)
    (hbody : body.map Line.text = fn.ids.flatMap (blockTexts fn)) (hbrace : brace.text = "\x7d") :
    readFuncs serial done none (header :: (body ++ brace :: rest)) =
      (do
        let fn' ← readFunc (serial + done.length) header body
        if done.any fun f => f.name = fn'.name then
          .error ⟨header, .duplicatedFunction fn'.name⟩
        else readFuncs serial (done ++ [fn']) none rest) := by
  have hbraces : ∀ l ∈ body, l.text ≠ "\x7d" := by
    intro l hl
    have hmem : l.text ∈ fn.ids.flatMap (blockTexts fn) := hbody ▸ List.mem_map_of_mem hl
    obtain ⟨b, hb, hmem⟩ := List.mem_flatMap.mp hmem
    exact blockTexts_ne_brace hfn (Func.mem_ids.mp hb) _ hmem
  refine readFuncs_braced ?_ hbraces hbrace
  rw [hheader]
  exact startsWith_headerLine fn

/-- **The functions are read** one after the other. -/
theorem readFuncs_of_printed (serial : Nat) : ∀ (fns done : List Func) (ls : List Line),
    (∀ fn ∈ fns, fn.Spellable ∧ fn.Colonless) → (done.map Func.name ++ fns.map Func.name).Nodup →
    ls.map Line.text = fns.flatMap funcTexts →
      ∃ fns', readFuncs serial done none ls = .ok (done ++ fns') ∧
        List.Forall₂ Func.Isomorphic fns fns'
  | [], done, ls, _, _, hls => by
    obtain rfl : ls = [] := by simpa using hls
    exact ⟨[], by rw [readFuncs, List.append_nil], .nil⟩
  | fn :: fns, done, ls, hfns, hnames, hls => by
    obtain ⟨hfn, hcolon⟩ := hfns fn (by simp)
    obtain ⟨header, body, brace, rest, rfl, hheader, hbody, hbrace, hls⟩ :=
      exists_lines_of_funcTexts hls
    obtain ⟨fn', hread, hiso⟩ :=
      readFunc_of_printed hfn hcolon (serial + done.length) hheader hbody
    have hname : fn'.name = fn.name := by
      obtain ⟨β, ν, hcopies⟩ := hiso
      exact hcopies.name
    have hfresh : ¬(done.any fun f => f.name = fn'.name) = true := by
      rw [List.any_eq_true]
      rintro ⟨f, hf, hsame⟩
      refine (List.nodup_append.mp hnames).2.2 f.name (List.mem_map_of_mem hf) fn.name (by simp) ?_
      rw [← hname]
      simpa using hsame
    obtain ⟨fns', hrest, hforall⟩ := readFuncs_of_printed serial fns (done ++ [fn']) rest
      (fun f hf => hfns f (List.mem_cons_of_mem fn hf)) (by simpa [hname] using hnames) hls
    refine ⟨fn' :: fns', ?_, .cons hiso hforall⟩
    rw [readFuncs_func hfn hheader hbody hbrace, hread]
    simp only [bind, Except.bind, if_neg hfresh]
    rw [hrest, List.append_assoc, List.singleton_append]

end Source

/-- Modules of isomorphic functions have the same text. -/
theorem Module.text_eq_of_isomorphic {m m' : Module} (h : ∀ fn ∈ m.funcs, fn.Spellable)
    (hiso : List.Forall₂ Func.Isomorphic m.funcs m'.funcs) : m'.text = m.text := by
  have htexts : m'.funcs.map Func.text = m.funcs.map Func.text := by
    generalize m.funcs = fns at h hiso
    generalize m'.funcs = fns' at hiso
    induction hiso with
    | nil => rfl
    | @cons fn fn' _ _ hcopy _ ih =>
      obtain ⟨β, ν, hcopies⟩ := hcopy
      have hfn := h fn (by simp)
      rw [List.map_cons, List.map_cons, ih fun f hf => h f (List.mem_cons_of_mem fn hf),
        hcopies.text_eq (fun b hb p hp e he => (hfn.inputs b hb p hp e he).1) hfn.successors]
  rw [text, text, htexts]

/-- A module of spellable functions can be printed and read back if no line ends in a colon. -/
theorem Module.exists_parse_text {m : Module} (h : ∀ fn ∈ m.funcs, fn.Spellable)
    (hcolon : ∀ fn ∈ m.funcs, fn.Colonless) (hnames : (m.funcs.map Func.name).Nodup)
    (serial : Nat) : ∃ m', Module.parse m.text serial = .ok m' ∧
      List.Forall₂ Func.Isomorphic m.funcs m'.funcs ∧ m'.text = m.text := by
  obtain ⟨fns', hread, hiso⟩ := Source.readFuncs_of_printed serial m.funcs []
    (Source.readLines m.text) (fun fn hfn => ⟨h fn hfn, hcolon fn hfn⟩) (by simpa using hnames)
    (Source.lineTexts_moduleText h)
  exact ⟨⟨fns'⟩, Source.parse_eq_ok.mpr hread, hiso, Module.text_eq_of_isomorphic h hiso⟩

/-- **Reading undoes printing.** If the functions of a module are printable and have different
names, the text of the module can be read, with any serial numbers. What is read are functions
isomorphic to those that were printed, and they have the same text again. -/
theorem Module.parse_undoes_text {m : Module} (h : ∀ fn ∈ m.funcs, fn.Printable)
    (hnames : (m.funcs.map Func.name).Nodup) (serial : Nat) :
    ∃ m', Module.parse m.text serial = .ok m' ∧
      List.Forall₂ Func.Isomorphic m.funcs m'.funcs ∧ m'.text = m.text := by
  have hspellable : ∀ fn ∈ m.funcs, fn.Spellable := fun fn hfn => (h fn hfn).spellable
  have hcolon : ∀ fn ∈ m.funcs, fn.Colonless := fun fn hfn => (h fn hfn).colonless
  exact exists_parse_text hspellable hcolon hnames serial

/-! ### A module with gaps -/

/-- A function of which a block was removed, so that the blocks behind it get other numbers when it
is read again. One of these has no label and is written by its number. The least word is read as a
constant, a call has no result, and two edges of the switch lead to one block. -/
def gappedFunc : Func where
  serial := 7
  name := "f"
  root := some ⟨7, 0⟩
  params := [⟨7, 0, "a"⟩]
  values := #[⟨7, 0, "a"⟩, ⟨7, 1, "k"⟩, ⟨7, 2, "r"⟩]
  blocks := #[
    { label := "entry"
      instrs := [.const ⟨7, 1, "k"⟩ (-9223372036854775808), .call none "log" [⟨7, 0, "a"⟩]]
      term := some (.switch ⟨7, 0, "a"⟩ ⟨7, 2⟩ [(-1, ⟨7, 3⟩), (5, ⟨7, 2⟩)]) },
    { label := "gone", live := false },
    { label := "", preds := [⟨7, 0⟩, ⟨7, 0⟩], term := some (.jump ⟨7, 3⟩) },
    { label := "join", preds := [⟨7, 0⟩, ⟨7, 2⟩]
      phis := [⟨⟨7, 2, "r"⟩, [(⟨7, 0⟩, some ⟨7, 0, "a"⟩), (⟨7, 2⟩, some ⟨7, 1, "k"⟩)]⟩]
      term := some (.ret [⟨7, 2, "r"⟩]) }]

/-- A function that does nothing. -/
def idleFunc : Func where
  serial := 8
  name := "g"
  root := some ⟨8, 0⟩
  blocks := #[{ label := "entry", term := some (.ret []) }]

theorem printable_gappedFunc : gappedFunc.Printable := by
  have hvalid := Func.defects_eq_nil_iff.mp (show gappedFunc.defects = [] by decide +kernel)
  refine hvalid.printable ?_ ?_ ?_ ?_ ?_ ?_ ?_ ?_ ?_ <;> decide +kernel

theorem printable_idleFunc : idleFunc.Printable := by
  have hvalid := Func.defects_eq_nil_iff.mp (show idleFunc.defects = [] by decide +kernel)
  refine hvalid.printable ?_ ?_ ?_ ?_ ?_ ?_ ?_ ?_ ?_ <;> decide +kernel

/-- They are printed and read back, under the first serial numbers that there are. -/
theorem Module.gapped_parse_undoes_text :
    (∀ fn ∈ [gappedFunc, idleFunc], fn.Printable) ∧
      ∃ m', Module.parse (Module.text ⟨[gappedFunc, idleFunc]⟩) 0 = .ok m' ∧
        List.Forall₂ Func.Isomorphic [gappedFunc, idleFunc] m'.funcs ∧
        m'.text = Module.text ⟨[gappedFunc, idleFunc]⟩ := by
  have hprintable : ∀ fn ∈ [gappedFunc, idleFunc], fn.Printable := by
    simp [printable_gappedFunc, printable_idleFunc]
  exact ⟨hprintable, Module.parse_undoes_text hprintable (by decide) 0⟩

end BranchFusion
