import BranchFusion.Proofs.Source.Pairs
import BranchFusion.Proofs.Source.Stability

/-!
# Lines with pairs are not taken for labels

A line that ends in a colon is taken for a label. A word that ends in a colon could come to stand at
the end of a line when the pairs of the line are put in another order. It would have to be the
second word of its pair, and so would be looked up as a label; but no label holds a colon. So the
lines of a function that can be read are *settled* (`BranchFusion.Source.Line.Settled`): they do not
end in a colon in any order of their pairs.

It follows that the first pass finds the same labels in all orders, and creates the same blocks
(`BranchFusion.Source.exists_readLabels`).
-/

namespace BranchFusion

/-! ### The end of a line -/

/-- The last field ends where the text ends, if it does not end in a separator. -/
theorem Text.getLast?_fields {sep : Char → Bool} {c : Char} (hc : sep c = false) :
    ∀ cs : List Char, cs.getLast? = some c →
      ∃ w, (Text.fields sep cs).getLast? = some w ∧ w.getLast? = some c
  | [], h => absurd h (by simp)
  | [x], h => by
    obtain rfl : x = c := by simpa using h
    exact ⟨[x], by simp [Text.fields, hc], rfl⟩
  | x :: y :: cs, h => by
    rw [List.getLast?_cons_cons] at h
    obtain ⟨w, hw, hlast⟩ := Text.getLast?_fields hc (y :: cs) h
    rw [Text.fields]
    split
    · exact ⟨w, hw, hlast⟩
    split
    · refine ⟨w, ?_, hlast⟩
      rw [List.getLast?_cons, hw]
      rfl
    · cases hfields : Text.fields sep (y :: cs) with
      | nil => simp [hfields] at hw
      | cons u us =>
        rw [hfields] at hw
        cases us with
        | nil =>
          obtain rfl : u = w := by simpa using hw
          refine ⟨x :: u, rfl, ?_⟩
          rw [List.getLast?_cons, hlast]
          rfl
        | cons u' us => exact ⟨w, by simpa using hw, hlast⟩

namespace Source

variable {d d' : Draft} {line line' : Line} {b : BlockId} {r : Value} {serial : Nat}
  {ps ps' : List (String × String)}

theorem exists_last_word {s : String} {c : Char} (hc : isSeparator c = false)
    (h : s.toList.getLast? = some c) :
    ∃ w, (words s).getLast? = some w ∧ w.toList.getLast? = some c := by
  obtain ⟨w, hw, hlast⟩ := Text.getLast?_fields hc s.toList h
  refine ⟨String.ofList w, ?_, by simpa using hlast⟩
  rw [words, List.getLast?_map, hw]
  rfl

theorem getLast?_pairWords : ∀ ps : List (String × String),
    (pairWords ps).getLast? = ps.getLast?.map Prod.snd
  | [] => rfl
  | [_] => rfl
  | p :: q :: ps => by
    have ih := getLast?_pairWords (q :: ps)
    rw [List.getLast?_cons_cons, ← ih]
    rfl

/-! ### Labels in pairs -/

/-- The labels of a draft are labels. -/
def Labelled (d : Draft) : Prop :=
  ∀ c, d.func.owns c → isLabel (d.func.block c).label.toList = true

theorem stable_labelled : Stable Labelled := fun _ _ _ h _ _ => h

theorem reads_labelled (word : String) : Reads Labelled (readLabel line word)
    fun _ d => Labelled d ∧ isLabel word.toList = true := by
  intro d hd c e hrun
  obtain ⟨rfl, hc⟩ := run_readLabel.mp hrun
  have howns := Func.mem_ids.mp (List.mem_of_find?_eq_some hc)
  have hword : (e.func.block c).label = word := by simpa using List.find?_some hc
  exact ⟨hd, hword ▸ hd c howns⟩

/-- The second words of pairs are labels, in a phi -/
theorem reads_inputs_labelled : ∀ (ps : List (String × String)) (p : Phi),
    (∀ w ∈ pairWords ps, IsWord w) → Reads Labelled (readInputs line p (pairWords ps))
      fun _ d => Labelled d ∧ ∀ x ∈ ps, isLabel x.2.toList = true
  | [], _, _ => .pure fun _ hd => ⟨hd, by simp⟩
  | (w, l) :: ps, p, hws => by
    have hwords : pairWords ((w, l) :: ps) = w :: l :: pairWords ps := rfl
    rw [hwords] at hws ⊢
    rw [readInputs]
    refine .bind (reads_value stable_labelled (hws w (by simp))) fun v => ?_
    refine .bind ((reads_labelled l).weaken (fun _ hd => hd.1) fun _ _ h => h) fun c => ?_
    split
    · exact .bind .look fun _ => .refuse line _
    · intro d hd q e hrun
      have hrest := reads_inputs_labelled ps _ (fun w hw => hws w (by simp [hw])) d hd.1 q e hrun
      exact ⟨hrest.1, List.forall_mem_cons.mpr ⟨hd.2, hrest.2⟩⟩

/-- and in a switch. -/
theorem reads_cases_labelled : ∀ (ps : List (String × String)) (t : Table Int64 BlockId),
    Reads Labelled (readCases line t (pairWords ps))
      fun _ d => Labelled d ∧ ∀ x ∈ ps, isLabel x.2.toList = true
  | [], _ => .pure fun _ hd => ⟨hd, by simp⟩
  | (w, l) :: ps, t => by
    have hwords : pairWords ((w, l) :: ps) = w :: l :: pairWords ps := rfl
    rw [hwords, readCases]
    refine .bind (reads_integer w) fun i => .bind (reads_labelled l) fun c => ?_
    split
    · exact .refuse line _
    · intro d hd q e hrun
      have hrest := reads_cases_labelled ps _ d hd.1 q e hrun
      exact ⟨hrest.1, List.forall_mem_cons.mpr ⟨hd.2, hrest.2⟩⟩

/-- Some pair comes last, or what stands in front of the pairs. -/
theorem exists_last_label (front : List String) (h : ps.Perm ps')
    (hps : ∀ x ∈ ps, isLabel x.2.toList = true)
    (hfront : ps = [] → ∃ w, front.getLast? = some w ∧ isLabel w.toList = true) :
    ∃ w, (front ++ pairWords ps').getLast? = some w ∧ isLabel w.toList = true := by
  rw [List.getLast?_append, getLast?_pairWords]
  cases hlast : ps'.getLast? with
  | none =>
    obtain rfl := List.getLast?_eq_none_iff.mp hlast
    exact hfront h.eq_nil
  | some x => exact ⟨x.2, rfl, hps x (h.mem_iff.mpr (List.mem_of_getLast? hlast))⟩

/-- **If a line with pairs is read, a label comes last** in every order of its pairs. -/
theorem reads_moved {ws ws' : List String} (h : PairsMoved ws ws') (hws : ∀ w ∈ ws, IsWord w) :
    Reads Labelled (readInstr line b ws)
      fun _ _ => ∃ w, ws'.getLast? = some w ∧ isLabel w.toList = true := by
  cases h with
  | @phi r ps ps' hr h spare =>
    have hwords : ∀ w ∈ pairWords ps ++ spare.toList, IsWord w := fun w hw => hws w (by simp [hw])
    rw [readInstr_of_sign hr]
    refine .bind (Q := fun _ d => Labelled d) ?_ fun v => ?_
    · intro d hd v e hrun
      have hmarks : Marks d (some v) e := reads_definition (hws r (by simp)) d rfl v e hrun
      intro c hc
      rw [hmarks.block]
      exact hd c (by rwa [hmarks.owns] at hc)
    · rw [readOperation_phi, readPhi]
      refine .bind .look fun _ => ?_
      split
      · split
        · exact .refuse line _
        · next hpairs =>
          simp only [Bool.or_eq_true, List.isEmpty_iff, bne_iff_ne, ne_eq, not_or, not_not]
            at hpairs
          obtain rfl := eq_none_of_even hpairs.2
          rw [Option.toList_none, List.append_nil] at hpairs hwords
          rw [Option.toList_none, List.append_nil, List.append_nil]
          refine .bind (reads_inputs_labelled ps _ hwords) fun _ => .edit fun d hd => ?_
          refine exists_last_label [r, "=", "phi"] h hd.2 ?_
          rintro rfl
          exact absurd rfl hpairs.1
      · exact .refuse line _
  | @switch v c ps ps' h spare =>
    rw [readInstr_switch, readSwitch]
    split
    · exact .refuse line _
    · next hpairs =>
      obtain rfl := eq_none_of_even (by simpa using hpairs)
      rw [Option.toList_none, List.append_nil, List.append_nil]
      refine .bind (reads_value stable_labelled (hws v (by simp))) fun _ => ?_
      refine .bind ((reads_labelled c).weaken (fun _ hd => hd.1) fun _ _ h => h) fun _ => ?_
      intro d hd u e hrun
      obtain ⟨t, d₁, hcases, -⟩ := run_bind.mp hrun
      have hlabels := (reads_cases_labelled ps [] d hd.1 t d₁ hcases).2
      exact exists_last_label ["switch", v, c] h hlabels fun _ => ⟨c, rfl, hd.2⟩

/-- **A settled line** does not end in a colon, in whatever order its pairs are put. -/
def Line.Settled (l : Line) : Prop :=
  ∀ l' : Line, PairsMoved (words l.text) (words l'.text) → l'.text.toList.getLast? ≠ some ':'

theorem reads_settled {l : Line} (hl : l.Plain) :
    Reads Labelled (readInstr l b (words l.text)) fun _ _ => l.Settled := by
  intro d hd u e hrun l' hmoved hcolon
  obtain ⟨w, hw, hlabel⟩ := reads_moved hmoved hl.isWord d hd u e hrun
  obtain ⟨w', hw', hlast⟩ := exists_last_word (by decide) hcolon
  obtain rfl : w = w' := Option.some.inj (hw.symm.trans hw')
  simp only [isLabel, Bool.and_eq_true, List.all_eq_true] at hlabel
  exact absurd (hlabel.2 ':' (List.mem_of_getLast? hlast)) (by decide)

variable {bs : List BlockId}

theorem Outlined.labelled (h : Outlined serial bs d) : Labelled d :=
  fun c hc => (h.drafted.resolved.label c hc).1

theorem reads_body_settled (hb : b ∈ bs) : ∀ ls : List Line, (∀ l ∈ ls, l.Plain) →
    Reads (Outlined serial bs) (readBody b ls)
      fun _ d => Outlined serial bs d ∧ ∀ l ∈ ls, l.Settled
  | [], _ => .pure fun _ hd => ⟨hd, by simp⟩
  | l :: ls, hls => by
    obtain ⟨hl, hls⟩ := List.forall_mem_cons.mp hls
    rw [readBody]
    refine .bind .get fun a => ?_
    split
    · exact .refuse l _
    · next hopen =>
      rintro d ⟨rfl, hd⟩ u e hrun
      obtain ⟨u₁, d₁, hfirst, hrest⟩ := run_bind.mp hrun
      have heffect : Effect b a d₁ := reads_instr hl.isWord a rfl u₁ d₁ hfirst
      have hd₁ := (hd.effect hb (by simpa using hopen) heffect).1
      obtain ⟨he, hsettled⟩ := reads_body_settled hb ls hls d₁ hd₁ u e hrest
      exact ⟨he, List.forall_mem_cons.mpr
        ⟨reads_settled hl a hd.labelled u₁ d₁ hfirst, hsettled⟩⟩

/-- **The lines of blocks that are read are settled.** -/
theorem reads_blocks_settled : ∀ (blocks : List (BlockId × List Line)) (last : Line),
    (∀ x ∈ blocks, x.1 ∈ bs) → (∀ l ∈ blocks.flatMap Prod.snd, l.Plain) →
    Reads (Outlined serial bs) (readBlocks last blocks)
      fun _ _ => ∀ l ∈ blocks.flatMap Prod.snd, l.Settled
  | [], _, _, _ => .pure fun _ _ => by simp
  | (b, own) :: rest, last, hblocks, hplain => by
    obtain ⟨hown, hrest⟩ := List.forall_mem_append.mp hplain
    rw [readBlocks]
    intro d hd u e hrun
    obtain ⟨u₁, d₁, hfirst, hmore⟩ := run_bind.mp hrun
    obtain ⟨hd₁, hsettled⟩ :=
      reads_body_settled (hblocks (b, own) (by simp)) own hown d hd u₁ d₁ hfirst
    obtain ⟨a, d₂, hget, hmore⟩ := run_bind.mp hmore
    obtain ⟨rfl, rfl⟩ : d₁ = a ∧ d₁ = d₂ := Prod.mk.inj (Except.ok.inj hget)
    dsimp only at hmore
    split at hmore
    · exact absurd hmore run_refuse
    · have hlater := reads_blocks_settled rest _ (fun x hx => hblocks x (List.mem_cons_of_mem _ hx))
        hrest d₁ hd₁ u e hmore
      exact List.forall_mem_append.mpr ⟨hsettled, hlater⟩

/-! ### Blocks -/

/-- Every line that does not end in a colon goes to a block. -/
theorem mem_blocks_of_readLabels {x : Line} (hx : x.text.toList.getLast? ≠ some ':') :
    ∀ {ls : List Line} {f fn : Func} {done blocks : List (BlockId × List Line)}
      {last last' : Line}, readLabels f done last ls = .ok (fn, blocks, last') →
      x ∈ done.flatMap Prod.snd ∨ x ∈ ls → x ∈ blocks.flatMap Prod.snd
  | [], f, fn, done, _, _, _, h, hmem => by
    obtain ⟨-, hrest⟩ := Prod.mk.inj (Except.ok.inj h)
    obtain ⟨rfl, -⟩ := Prod.mk.inj hrest
    exact hmem.resolve_right (by simp)
  | l :: ls, f, fn, done, _, _, _, h, hmem => by
    rw [readLabels] at h
    split at h
    · next rev hrev =>
      have hne : x ≠ l := by
        rintro rfl
        rw [← List.head?_reverse, hrev] at hx
        exact hx rfl
      split at h
      · dsimp only at h
        split at h
        · exact absurd h (by simp)
        · refine mem_blocks_of_readLabels hx h (hmem.imp (fun hmem => ?_) fun hmem => ?_)
          · simpa using hmem
          · exact (List.mem_cons.mp hmem).resolve_left hne
      · exact absurd h (by simp)
    · split at h
      · exact absurd h (by simp)
      · next b own hlast =>
        obtain ⟨front, rfl⟩ := List.getLast?_eq_some_iff.mp hlast
        refine mem_blocks_of_readLabels hx h ?_
        simp only [List.dropLast_concat, List.flatMap_append, List.flatMap_singleton,
          List.mem_append, List.mem_cons] at hmem ⊢
        tauto

/-- **Lines that differ in the order of pairs and are taken for the same**: either both are labels
or none is. -/
def Line.Aligned (l l' : Line) : Prop :=
  l'.text = l.text ∨ (PairsMoved (words l.text) (words l'.text) ∧
    l.text.toList.getLast? ≠ some ':' ∧ l'.text.toList.getLast? ≠ some ':')

theorem Line.Aligned.reordered {l l' : Line} (h : l.Aligned l') : l.Reordered l' :=
  h.imp_right And.left

/-- A function that is read has its lines aligned with those of every other order. -/
theorem aligned_of_reordered {l l' : Line} (h : l.Reordered l') (hl : l.Plain)
    (hlabel : ∀ rev, l.text.toList.reverse = ':' :: rev → isLabel rev.reverse = true)
    (hsettled : l.text.toList.getLast? ≠ some ':' → l.Settled) : l.Aligned l' := by
  refine h.imp_right fun hmoved => ?_
  have hcolon : l.text.toList.getLast? ≠ some ':' := by
    intro hlast
    rw [← List.head?_reverse] at hlast
    obtain ⟨rev, hrev⟩ := List.head?_eq_some_iff.mp hlast
    -- a label and a colon are one word, but a line with pairs has three words and more
    have hone := hmoved.length_le
    rw [words_of_isWord (isWord_of_isLabel hl hrev (hlabel rev hrev))] at hone
    exact absurd hone (by simp)
  exact ⟨hmoved, hcolon, hsettled hcolon l' hmoved⟩

theorem exists_concat_of_forall₂ {α β : Type} {R : α → β → Prop} {l : List α} {a : α} {l' : List β}
    (h : List.Forall₂ R (l ++ [a]) l') : ∃ m c, l' = m ++ [c] ∧ List.Forall₂ R l m ∧ R a c := by
  rw [← List.forall₂_reverse_iff, List.reverse_append, List.reverse_singleton,
    List.singleton_append] at h
  obtain ⟨c, m, hac, hm, heq⟩ := List.forall₂_cons_left_iff.mp h
  refine ⟨m.reverse, c, ?_, List.forall₂_reverse_iff.mp (by simpa using hm), hac⟩
  rw [← List.reverse_reverse l', heq, List.reverse_cons]

theorem Alike.createBlock (h : Alike d d') (label : String) :
    Alike { d with func := (d.func.createBlock label).2 }
      { d' with func := (d'.func.createBlock label).2 } :=
  h.related.edit (fun fn => (fn.createBlock label).2) (fun fn => (fn.createBlock label).2)
    (fun _ => ⟨rfl, rfl⟩) (fun _ => ⟨rfl, rfl⟩)
    fun ν _ vs => Func.createBlock_rename ν vs d.func label

/-- A block that is created has the same number. -/
theorem Alike.fst_createBlock (h : Alike d d') (label : String) :
    (d.func.createBlock label).1 = (d'.func.createBlock label).1 := by
  obtain ⟨ν, vs, heq⟩ := h.exists_rename
  rw [heq]
  simp [Func.createBlock, Func.rename]

theorem Alike.any_label (h : Alike d d') (label : String) :
    (d.func.blocks.any fun bb => bb.label = label) =
      d'.func.blocks.any fun bb => bb.label = label := by
  obtain ⟨ν, vs, heq⟩ := h.exists_rename
  rw [heq, Func.rename, Array.any_map]
  rfl

/-- **The first pass** creates the same blocks, with lines that differ in the order of pairs. -/
theorem exists_readLabels {ls ls' : List Line} (h : List.Forall₂ Line.Aligned ls ls') :
    ∀ {d d' : Draft} {fn : Func} {done done' blocks : List (BlockId × List Line)}
      {last last₁ : Line} (last' : Line), Alike d d' → List.Forall₂ SameBlock done done' →
      readLabels d.func done last ls = .ok (fn, blocks, last₁) →
      ∃ fn' blocks' last₁', readLabels d'.func done' last' ls' = .ok (fn', blocks', last₁') ∧
        Alike { d with func := fn } { d' with func := fn' } ∧
        List.Forall₂ SameBlock blocks blocks' := by
  induction h with
  | nil =>
    intro d d' fn done done' blocks last last₁ last' hd hdone hrun
    obtain ⟨rfl, hrest⟩ := Prod.mk.inj (Except.ok.inj hrun)
    obtain ⟨rfl, -⟩ := Prod.mk.inj hrest
    exact ⟨_, done', last', rfl, hd, hdone⟩
  | @cons l l' ls ls' hl _ ih =>
    intro d d' fn done done' blocks last last₁ last' hd hdone hrun
    rw [readLabels] at hrun
    split at hrun
    · next rev hrev =>
      have htext : l'.text = l.text := hl.resolve_right fun h => h.2.1 (by
        rw [← List.head?_reverse, hrev]
        rfl)
      split at hrun
      · next hlabel =>
        dsimp only at hrun
        split at hrun
        · exact absurd hrun (by simp)
        · next hnew =>
          rw [hd.any_label] at hnew
          obtain ⟨fn', blocks', last₁', hrun', hrest⟩ := ih l' (hd.createBlock _)
            (List.rel_append hdone (.cons ⟨rfl, .nil⟩ .nil)) hrun
          refine ⟨fn', blocks', last₁', ?_, hrest⟩
          rw [readLabels, htext, hrev]
          simp only [hlabel, hnew, if_true, ← hd.fst_createBlock]
          exact hrun'
      · exact absurd hrun (by simp)
    · next hcolon =>
      have hcolon' : ∀ rev, l'.text.toList.reverse ≠ ':' :: rev := by
        rcases hl with htext | ⟨-, -, hlast⟩
        · rwa [htext]
        · intro rev hrev
          rw [← List.head?_reverse, hrev] at hlast
          exact hlast rfl
      split at hrun
      · exact absurd hrun (by simp)
      · next b own hlast =>
        obtain ⟨front, rfl⟩ := List.getLast?_eq_some_iff.mp hlast
        obtain ⟨front', ⟨b', own'⟩, rfl, hfront, hb, hown⟩ := exists_concat_of_forall₂ hdone
        have hadded : SameBlock (b, own ++ [l]) (b', own' ++ [l']) :=
          ⟨hb, List.rel_append hown (.cons hl.reordered .nil)⟩
        rw [List.dropLast_concat] at hrun
        obtain ⟨fn', blocks', last₁', hrun', hrest⟩ :=
          ih l' hd (List.rel_append hfront (.cons hadded .nil)) hrun
        refine ⟨fn', blocks', last₁', ?_, hrest⟩
        rw [readLabels]
        split
        · next rev hrev => exact absurd hrev (hcolon' rev)
        · rw [List.getLast?_concat]
          dsimp only
          rw [List.dropLast_concat]
          exact hrun'

end Source

end BranchFusion
