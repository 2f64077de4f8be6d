import BranchFusion.Proofs.Source.Alike
import BranchFusion.Proofs.Source.Rereading
import Mathlib.Data.List.Forall2

/-!
# The order of pairs

A phi lists pairs of a value and a label, and a switch lists pairs of an integer and a label. Both
are kept in sorted tables, so in which order they are read makes no difference to the tables
(`BranchFusion.Table.insertAll_perm`). It makes one to the values, since the first mention of a
value may be in a phi; but the drafts are alike.

To compare two orders it is not enough to follow the readers step by step, since the drafts are not
alike in between. So it is said first what a reader of pairs does as a whole
(`BranchFusion.Source.run_readInputs`, `BranchFusion.Source.run_readCases`): the pairs are looked up
one by one, and what is found is put into the table. All other readers are compared with themselves.
-/

namespace BranchFusion

/-! ### Tables that are filled in any order -/

namespace Table

variable {κ ι ι' : Type} [DecidableEq κ] {precedes : κ → κ → Bool} {es es' : Table κ ι}

/-- Inserts entries one after the other. -/
def insertAll (precedes : κ → κ → Bool) (es t : Table κ ι) : Table κ ι :=
  es.foldl (fun t e => insert precedes e.1 e.2 t) t

/-- **Entries under different keys may be inserted in any order.** -/
theorem insertAll_perm (ho : StrictOrder precedes) (h : es.Perm es') (hnodup : es.keys.Nodup)
    (t : Table κ ι) : insertAll precedes es t = insertAll precedes es' t := by
  refine h.foldl_eq' (fun x hx y hy t => ?_) t
  by_cases hkey : x.1 = y.1
  · obtain rfl : x = y := List.inj_on_of_nodup_map hnodup hx hy hkey
    rfl
  · exact insert_comm ho hkey x.2 y.2 t

theorem insertAll_map (g : ι → ι') : ∀ es t : Table κ ι,
    insertAll precedes (es.map (Prod.map id g)) (t.map (Prod.map id g)) =
      (insertAll precedes es t).map (Prod.map id g)
  | [], _ => rfl
  | e :: es, t => by
    have hinsert : insert precedes e.1 (g e.2) (t.map (Prod.map id g)) =
        (insert precedes e.1 e.2 t).map (Prod.map id g) :=
      insert_map Function.injective_id t e.1 (fun _ _ => rfl) e.2
    have hrest := insertAll_map g es (insert precedes e.1 e.2 t)
    rw [← hinsert] at hrest
    exact hrest

theorem has_insert {k k' : κ} {x : ι} {t : Table κ ι} :
    (insert precedes k x t).has k' = true ↔ k = k' ∨ t.has k' = true := by
  rw [has_iff, has_iff, get?_insert]
  by_cases h : k = k' <;> simp [h]

end Table

namespace Source

variable {d d' e : Draft} {line line' : Line} {b : BlockId} {r r' : Value}
  {ps ps' : List (String × String)}

/-! ### Reading pairs -/

/-- The words of pairs. -/
def pairWords (ps : List (String × String)) : List String := ps.flatMap fun p => [p.1, p.2]

/-- A pair of words stands for an input: the block with the label, and the name of the value. -/
def Incoming (fn : Func) (p : String × String) (x : BlockId × String) : Prop :=
  nameAfter? '%' p.1 = some x.2 ∧ labelled? fn p.2 = some x.1

/-- The entries that inputs make, with the values of a function. -/
def inputsOf (fn : Func) (es : List (BlockId × String)) : Table BlockId (Option Value) :=
  es.map fun x => (x.1, some (named fn x.2))

theorem labelled?_noteAll (names : List String) :
    labelled? (d.noteAll line names).func = labelled? d.func := by
  rw [func_noteAll]
  rfl

theorem run_readInputs_cons {w l : String} {ws : List String} {p q : Phi} :
    (readInputs line p (w :: l :: ws)).run d = .ok (q, e) ↔ ∃ name c,
      Incoming d.func (w, l) (c, name) ∧ ¬p.inputs.has c = true ∧
      (readInputs line (p.setInput c (some (named (d.note line name).func name))) ws).run
        (d.note line name) = .ok (q, e) := by
  have hlabelled : ∀ name, labelled? (d.note line name).func = labelled? d.func := fun name =>
    labelled?_noteAll [name]
  rw [readInputs]
  constructor
  · intro h
    obtain ⟨v, d₁, hvalue, h⟩ := run_bind.mp h
    obtain ⟨name, hname, rfl, rfl⟩ := run_readValue.mp hvalue
    obtain ⟨c, d₂, hlabel, h⟩ := run_bind.mp h
    obtain ⟨rfl, hc⟩ := run_readLabel.mp hlabel
    split at h
    · obtain ⟨_, _, -, h⟩ := run_bind.mp h
      exact absurd h run_refuse
    · next hnew => exact ⟨name, c, ⟨hname, hlabelled name ▸ hc⟩, hnew, h⟩
  · rintro ⟨name, c, ⟨hname, hc⟩, hnew, h⟩
    refine run_bind.mpr ⟨_, _, run_readValue.mpr ⟨name, hname, rfl, rfl⟩, run_bind.mpr
      ⟨c, _, run_readLabel.mpr ⟨rfl, (hlabelled name).symm ▸ hc⟩, ?_⟩⟩
    rwa [if_neg hnew]

/-- **The inputs of a phi are read** if the pairs stand for inputs from different blocks, and the
phi has none from these. -/
theorem run_readInputs {e : Draft} : ∀ (ps : List (String × String)) {d : Draft} {p q : Phi},
    d.Orderly → ((readInputs line p (pairWords ps)).run d = .ok (q, e) ↔
      ∃ es, List.Forall₂ (Incoming d.func) ps es ∧ (es.map Prod.fst).Nodup ∧
        (∀ x ∈ es, ¬p.inputs.has x.1 = true) ∧ e = d.noteAll line (es.map Prod.snd) ∧
        q = ⟨p.result, Table.insertAll BlockId.precedes (inputsOf e.func es) p.inputs⟩)
  | [], d, p, q, _ => by
    have hrun : (readInputs line p (pairWords [])).run d = .ok (p, d) := rfl
    rw [hrun]
    constructor
    · intro h
      obtain ⟨rfl, rfl⟩ := Prod.mk.inj (Except.ok.inj h)
      exact ⟨[], .nil, List.nodup_nil, by simp, rfl, rfl⟩
    · rintro ⟨_, ⟨⟩, -, -, rfl, rfl⟩
      rfl
  | (w, l) :: ps, d, p, q, hd => by
    have hwords : pairWords ((w, l) :: ps) = w :: l :: pairWords ps := rfl
    have hincoming : ∀ name, Incoming (d.note line name).func = Incoming d.func := fun name => by
      funext p x
      rw [Incoming, Incoming, show labelled? (d.note line name).func = labelled? d.func from
        labelled?_noteAll [name]]
    have hnamed : ∀ name names, named ((d.note line name).noteAll line names).func name =
        named (d.note line name).func name := fun name names =>
      (hd.note line name).named_noteAll (taken_note d line name)
    rw [hwords, run_readInputs_cons]
    constructor
    · rintro ⟨name, c, hpair, hnew, h⟩
      obtain ⟨es, hes, hnodup, hfresh, rfl, rfl⟩ := (run_readInputs ps (hd.note line name)).mp h
      rw [hincoming] at hes
      have hfresh' := fun x hx => not_or.mp (Table.has_insert.not.mp (hfresh x hx))
      refine ⟨(c, name) :: es, .cons hpair hes, ?_, ?_, rfl, ?_⟩
      · rw [List.map_cons, List.nodup_cons]
        refine ⟨fun hc => ?_, hnodup⟩
        obtain ⟨x, hx, hxc⟩ := List.mem_map.mp hc
        exact (hfresh' x hx).1 hxc.symm
      · exact List.forall_mem_cons.mpr ⟨hnew, fun x hx => (hfresh' x hx).2⟩
      · rw [← hnamed name (es.map Prod.snd)]
        rfl
    · rintro ⟨_, hall, hnodup, hfresh, rfl, rfl⟩
      obtain ⟨⟨c, name⟩, es, hpair, hes, rfl⟩ := List.forall₂_cons_left_iff.mp hall
      obtain ⟨hnew, hfresh⟩ := List.forall_mem_cons.mp hfresh
      rw [List.map_cons, List.nodup_cons] at hnodup
      refine ⟨name, c, hpair, hnew, (run_readInputs ps (hd.note line name)).mpr
        ⟨es, (hincoming name).symm ▸ hes, hnodup.2, fun x hx => ?_, rfl, ?_⟩⟩
      · refine Table.has_insert.not.mpr (not_or.mpr ⟨fun hc => ?_, hfresh x hx⟩)
        exact hnodup.1 (List.mem_map.mpr ⟨x, hx, hc.symm⟩)
      · rw [← hnamed name (es.map Prod.snd)]
        rfl

/-- A pair of words stands for a case: an integer, and the block with the label. -/
def CaseOf (fn : Func) (p : String × String) (x : Int64 × BlockId) : Prop :=
  Text.Numeral.readWord p.1 = .ok x.1 ∧ labelled? fn p.2 = some x.2

theorem run_readInteger {w : String} {i : Int64} : (readInteger line w).run d = .ok (i, e) ↔
    e = d ∧ Text.Numeral.readWord w = .ok i := by
  rw [readInteger]
  cases Text.Numeral.readWord w with
  | error => exact ⟨fun h => absurd h run_refuse, fun h => absurd h.2 (by simp)⟩
  | ok j =>
    have hrun : (pure j : Read Int64).run d = .ok (j, d) := rfl
    dsimp only
    rw [hrun]
    simp [eq_comm, and_comm]

/-- **The cases of a switch are read** if the pairs stand for different cases, and none of them is
there. -/
theorem run_readCases : ∀ (ps : List (String × String)) {d : Draft} {t t' : Table Int64 BlockId},
    (readCases line t (pairWords ps)).run d = .ok (t', e) ↔
      ∃ es : Table Int64 BlockId, List.Forall₂ (CaseOf d.func) ps es ∧ es.keys.Nodup ∧
        (∀ x ∈ es, ¬t.has x.1 = true) ∧ e = d ∧
        t' = Table.insertAll (fun x y => decide (x < y)) es t
  | [], d, t, t' => by
    have hrun : (readCases line t (pairWords [])).run d = .ok (t, d) := rfl
    rw [hrun]
    constructor
    · intro h
      obtain ⟨rfl, rfl⟩ := Prod.mk.inj (Except.ok.inj h)
      exact ⟨[], .nil, List.nodup_nil, by simp, rfl, rfl⟩
    · rintro ⟨_, ⟨⟩, -, -, rfl, rfl⟩
      rfl
  | (w, l) :: ps, d, t, t' => by
    have hwords : pairWords ((w, l) :: ps) = w :: l :: pairWords ps := rfl
    rw [hwords, readCases]
    constructor
    · intro h
      obtain ⟨i, d₁, hinteger, h₁⟩ := run_bind.mp h
      obtain ⟨rfl, hi⟩ := run_readInteger.mp hinteger
      obtain ⟨c, d₂, hlabel, h₂⟩ := run_bind.mp h₁
      obtain ⟨rfl, hc⟩ := run_readLabel.mp hlabel
      split at h₂
      · exact absurd h₂ run_refuse
      · next hnew =>
        obtain ⟨es, hes, hnodup, hfresh, rfl, rfl⟩ := (run_readCases ps).mp h₂
        have hfresh' := fun x hx => not_or.mp (Table.has_insert.not.mp (hfresh x hx))
        refine ⟨(i, c) :: es, .cons ⟨hi, hc⟩ hes, ?_, ?_, rfl, rfl⟩
        · refine List.nodup_cons.mpr ⟨fun hmem => ?_, hnodup⟩
          obtain ⟨x, hx, hxi⟩ := List.mem_map.mp hmem
          exact (hfresh' x hx).1 hxi.symm
        · exact List.forall_mem_cons.mpr ⟨hnew, fun x hx => (hfresh' x hx).2⟩
    · rintro ⟨_, hall, hnodup, hfresh, rfl, rfl⟩
      obtain ⟨⟨i, c⟩, es, ⟨hi, hc⟩, hes, rfl⟩ := List.forall₂_cons_left_iff.mp hall
      obtain ⟨hnew, hfresh⟩ := List.forall_mem_cons.mp hfresh
      obtain ⟨hnot, hnodup⟩ := List.nodup_cons.mp hnodup
      refine run_bind.mpr ⟨i, _, run_readInteger.mpr ⟨rfl, hi⟩, run_bind.mpr
        ⟨c, _, run_readLabel.mpr ⟨rfl, hc⟩, ?_⟩⟩
      rw [if_neg hnew]
      refine (run_readCases ps).mpr ⟨es, hes, hnodup, fun x hx => ?_, rfl, rfl⟩
      refine Table.has_insert.not.mpr (not_or.mpr ⟨fun hi => ?_, hfresh x hx⟩)
      exact hnot (List.mem_map.mpr ⟨x, hx, hi.symm⟩)

/-! ### Pairs in another order -/

/-- **The inputs of a phi** may come in any order. -/
theorem mirrors_inputs (h : ps.Perm ps') :
    Mirrors (Related fun ν => ν r = r') (readInputs line ⟨r, []⟩ (pairWords ps))
      (readInputs line' ⟨r', []⟩ (pairWords ps'))
      fun q q' => Related fun ν => q.rename id ν = q' := by
  rintro d d' ⟨halike, hr⟩ q e hrun
  obtain ⟨es, hes, hnodup, -, rfl, rfl⟩ := (run_readInputs ps halike.left).mp hrun
  obtain ⟨es', hes', hperm⟩ := List.perm_comp_forall₂ h.symm hes
  have hincoming : Incoming d'.func = Incoming d.func := by
    funext p x
    rw [Incoming, Incoming, halike.labelled?]
  have hnames : ∀ n, n ∈ es'.map Prod.snd ↔ n ∈ es.map Prod.snd := fun n =>
    (hperm.map Prod.snd).mem_iff
  have hkeys : (es'.map Prod.fst).Nodup := (hperm.map Prod.fst).nodup_iff.mpr hnodup
  refine ⟨_, _, (run_readInputs ps' halike.right).mpr
    ⟨es', hincoming.symm ▸ hes', hkeys, by simp [Table.has], rfl, rfl⟩, halike.noteAll hnames,
    fun ν hν => ?_⟩
  obtain rfl := hr ν (Matches.of_noteAll _ _ hν)
  -- the entries of one phi, with the values of the other
  have hentries : inputsOf (d'.noteAll line' (es'.map Prod.snd)).func es' =
      (inputsOf (d.noteAll line (es.map Prod.snd)).func es').map (Prod.map id (Option.map ν)) := by
    rw [inputsOf, inputsOf, List.map_map]
    refine List.map_congr_left fun x hx => ?_
    have hx' := List.mem_map_of_mem (f := Prod.snd) hx
    have htaken : (d.noteAll line (es.map Prod.snd)).func.taken x.2 = true :=
      taken_noteAll.mpr (Or.inr ((hnames _).mp hx'))
    have htaken' : (d'.noteAll line' (es'.map Prod.snd)).func.taken x.2 = true :=
      taken_noteAll.mpr (Or.inr hx')
    simp [hν.named htaken htaken']
  have hnodup' : (inputsOf (d.noteAll line (es.map Prod.snd)).func es').keys.Nodup := by
    rw [inputsOf, Table.keys, List.map_map]
    exact hkeys
  have hsame : Table.insertAll BlockId.precedes
      (inputsOf (d.noteAll line (es.map Prod.snd)).func es') [] =
        Table.insertAll BlockId.precedes (inputsOf (d.noteAll line (es.map Prod.snd)).func es) [] :=
    Table.insertAll_perm BlockId.strictOrder_precedes (hperm.map _) hnodup' []
  rw [hentries]
  refine congrArg (Phi.mk (ν r)) ?_
  rw [← hsame]
  exact (Table.insertAll_map (Option.map ν) _ []).symm

/-- So may **the cases of a switch**. -/
theorem mirrors_cases {G : (Value → Value) → Prop} (h : ps.Perm ps') :
    Mirrors (Related G) (readCases line [] (pairWords ps)) (readCases line' [] (pairWords ps'))
      fun t t' d d' => t' = t ∧ Related G d d' := by
  rintro d d' hd t e hrun
  obtain ⟨es, hes, hnodup, -, rfl, rfl⟩ := (run_readCases ps).mp hrun
  obtain ⟨es', hes', hperm⟩ := List.perm_comp_forall₂ h.symm hes
  have hcase : CaseOf d'.func = CaseOf e.func := by
    funext p x
    rw [CaseOf, CaseOf, hd.1.labelled?]
  have hkeys : (Table.keys es').Nodup := (hperm.map Prod.fst).nodup_iff.mpr hnodup
  refine ⟨_, d', (run_readCases ps').mpr
    ⟨es', hcase.symm ▸ hes', hkeys, by simp [Table.has], rfl, rfl⟩, ?_, hd⟩
  exact Table.insertAll_perm strictOrder_words hperm hkeys []

theorem exists_pairWords : ∀ ws : List String, ∃ ps spare, ws = pairWords ps ++ Option.toList spare
  | [] => ⟨[], none, rfl⟩
  | [w] => ⟨[], some w, rfl⟩
  | w :: l :: ws => by
    obtain ⟨ps, spare, rfl⟩ := exists_pairWords ws
    exact ⟨(w, l) :: ps, spare, rfl⟩

theorem length_pairWords (ps : List (String × String)) (spare : Option String) :
    (pairWords ps ++ spare.toList).length = 2 * ps.length + spare.toList.length := by
  rw [List.length_append, pairWords, length_pairs]

theorem length_pairWords_perm (h : ps.Perm ps') (spare : Option String) :
    (pairWords ps' ++ spare.toList).length = (pairWords ps ++ spare.toList).length := by
  rw [length_pairWords, length_pairWords, h.length_eq]

/-- An even number of words is all pairs. -/
theorem eq_none_of_even {spare : Option String}
    (h : (pairWords ps ++ spare.toList).length % 2 = 0) : spare = none := by
  rw [length_pairWords] at h
  cases spare with
  | none => rfl
  | some w =>
    rw [Option.toList_some, List.length_singleton] at h
    omega

/-- **A phi** may have its pairs in any order. -/
theorem mirrors_phi (h : ps.Perm ps') (spare : Option String) :
    Mirrors (Related fun ν => ν r = r') (readPhi line b r (pairWords ps ++ spare.toList))
      (readPhi line' b r' (pairWords ps' ++ spare.toList)) fun _ _ => Alike := by
  have hlength := length_pairWords_perm h spare
  rw [readPhi, readPhi]
  refine .get fun d d' hd => ?_
  have hinstrs : (d'.func.block b).instrs.isEmpty = (d.func.block b).instrs.isEmpty := by
    obtain ⟨ν, vs, heq⟩ := hd.1.exists_rename
    rw [heq, Func.block_rename, Block.rename, List.isEmpty_map]
  rw [hinstrs]
  split
  · split
    · exact .refuse line _
    · next hpairs =>
      simp only [Bool.or_eq_true, List.isEmpty_iff_length_eq_zero, bne_iff_ne, ne_eq, not_or,
        not_not] at hpairs
      obtain rfl := eq_none_of_even hpairs.2
      have hpairs' : ¬((pairWords ps' ++ Option.toList none).isEmpty ||
          (pairWords ps' ++ Option.toList none).length % 2 != 0) = true := by
        simp only [Bool.or_eq_true, List.isEmpty_iff_length_eq_zero, bne_iff_ne, ne_eq, not_or,
          not_not, hlength]
        exact hpairs
      rw [if_neg hpairs', Option.toList_none, List.append_nil, List.append_nil]
      refine .bind ((mirrors_inputs h).weaken ?_ fun _ _ _ _ he => he) fun q q' =>
        .edit fun e e' he => he.modify fun ν hν bb => ?_
      · rintro _ _ ⟨rfl, rfl⟩
        exact hd
      · subst hν
        simp [Block.rename]
  · exact .refuse line _

/-- **A switch** may have its pairs in any order. -/
theorem mirrors_switch (v c : String) (h : ps.Perm ps') (spare : Option String) :
    Mirrors (Related fun _ => True) (readSwitch line b (v :: c :: (pairWords ps ++ spare.toList)))
      (readSwitch line' b (v :: c :: (pairWords ps' ++ spare.toList))) fun _ _ => Alike := by
  have hlength := length_pairWords_perm h spare
  rw [readSwitch, readSwitch, hlength]
  split
  · exact .refuse line _
  · next hpairs =>
    obtain rfl := eq_none_of_even (by simpa using hpairs)
    rw [Option.toList_none, List.append_nil, List.append_nil]
    refine .bind mirrors_value fun v v' => .bind mirrors_label fun c c' => .fact fun hc => ?_
    refine .bind (mirrors_cases h) fun t t' => .fact fun ht => mirrors_finish fun ν hν => ?_
    obtain ⟨-, rfl⟩ := hν
    subst hc ht
    simp [Terminator.rename]

theorem mirrors_operation (op : String) (ws : List String) :
    Mirrors (Related fun ν => ν r = r') (readOperation line b r op ws)
      (readOperation line' b r' op ws) fun _ _ => Alike := by
  rw [readOperation, readOperation]
  split_ifs
  · exact mirrors_const ws
  · obtain ⟨ps, spare, rfl⟩ := exists_pairWords ws
    exact mirrors_phi (List.Perm.refl ps) spare
  · refine (mirrors_call ws).weaken (fun d d' hd => ⟨hd.1, fun ν hν => ?_⟩) fun _ _ _ _ h => h
    exact congrArg some (hd.2 ν hν)
  · exact mirrors_binary op ws

/-- **The same words** are read into drafts that are alike. -/
theorem mirrors_instr (ws : List String) :
    Mirrors Alike (readInstr line b ws) (readInstr line' b ws) fun _ _ => Alike := by
  have hrelated : Mirrors (Related fun _ => True) (readInstr line b ws) (readInstr line' b ws)
      fun _ _ => Alike := by
    rw [readInstr.eq_def, readInstr.eq_def]
    split
    · exact .refuse line _
    next w ws =>
    split_ifs
    · exact mirrors_jump ws
    · exact mirrors_branch ws
    · rcases ws with _ | ⟨v, _ | ⟨c, ws⟩⟩
      · exact .refuse line _
      · exact .refuse line _
      · obtain ⟨ps, spare, rfl⟩ := exists_pairWords ws
        exact mirrors_switch v c (List.Perm.refl ps) spare
    · exact mirrors_return ws
    · exact (mirrors_call ws).weaken (fun _ _ hd => ⟨hd.1, fun _ _ => rfl⟩) fun _ _ _ _ h => h
    · split
      · split_ifs
        · refine .bind mirrors_definition fun r r' => (mirrors_operation _ _).weaken ?_
            fun _ _ _ _ h => h
          exact fun d d' hd => ⟨hd.1, fun ν hν => (hd.2 ν hν).2⟩
        · exact .refuse line _
      · exact .refuse line _
  exact hrelated.weaken (fun _ _ => Alike.related) fun _ _ _ _ h => h

/-! ### Lines with pairs in another order -/

/-- **The same words but for the order of pairs**, in a phi or in a switch. There may be a word that
is left over; such a line is refused. -/
inductive PairsMoved : List String → List String → Prop
  | phi {r : String} {ps ps' : List (String × String)} (hr : r.toList.head? = some '%')
    (h : ps.Perm ps') (spare : Option String) :
    PairsMoved (r :: "=" :: "phi" :: (pairWords ps ++ spare.toList))
      (r :: "=" :: "phi" :: (pairWords ps' ++ spare.toList))
  | switch {v c : String} {ps ps' : List (String × String)} (h : ps.Perm ps')
    (spare : Option String) :
    PairsMoved ("switch" :: v :: c :: (pairWords ps ++ spare.toList))
      ("switch" :: v :: c :: (pairWords ps' ++ spare.toList))

theorem PairsMoved.symm {ws ws' : List String} (h : PairsMoved ws ws') : PairsMoved ws' ws := by
  cases h with
  | phi hr h spare => exact .phi hr h.symm spare
  | switch h spare => exact .switch h.symm spare

theorem PairsMoved.length_le {ws ws' : List String} (h : PairsMoved ws ws') : 3 ≤ ws.length := by
  cases h <;> simp

/-- **Lines that differ in the order of pairs** at most: they have the same text, or their words are
the same but for the order of pairs. -/
def Line.Reordered (l l' : Line) : Prop :=
  l'.text = l.text ∨ PairsMoved (words l.text) (words l'.text)

theorem readOperation_phi (ws : List String) :
    readOperation line b r "phi" ws = readPhi line b r ws := by
  rw [readOperation, if_neg (by decide), if_pos rfl]

theorem mirrors_moved {ws ws' : List String} (h : PairsMoved ws ws') :
    Mirrors Alike (readInstr line b ws) (readInstr line' b ws') fun _ _ => Alike := by
  cases h with
  | phi hr h spare =>
    rw [readInstr_of_sign hr, readInstr_of_sign hr]
    refine .bind (mirrors_definition.weaken (fun _ _ => Alike.related) fun _ _ _ _ hd => hd)
      fun r r' => ?_
    rw [readOperation_phi, readOperation_phi]
    refine (mirrors_phi h spare).weaken ?_ fun _ _ _ _ h => h
    exact fun d d' hd => ⟨hd.1, fun ν hν => (hd.2 ν hν).2⟩
  | @switch v c _ _ h spare =>
    rw [readInstr_switch, readInstr_switch]
    exact (mirrors_switch v c h spare).weaken (fun _ _ => Alike.related) fun _ _ _ _ h => h

/-- **Lines that differ in the order of pairs** are read into drafts that are alike. -/
theorem mirrors_line {l l' : Line} (h : l.Reordered l') :
    Mirrors Alike (readInstr l b (words l.text)) (readInstr l' b (words l'.text))
      fun _ _ => Alike := by
  rcases h with h | h
  · rw [h]
    exact mirrors_instr (words l.text)
  · exact mirrors_moved h

/-- It can be seen of both drafts whether a block is terminated. -/
theorem Alike.term_isSome (h : Alike d d') (b : BlockId) :
    (d'.func.block b).term.isSome = (d.func.block b).term.isSome := by
  obtain ⟨ν, vs, heq⟩ := h.exists_rename
  rw [heq, Func.block_rename, Block.rename, Option.isSome_map]

theorem mirrors_body {ls ls' : List Line} (h : List.Forall₂ Line.Reordered ls ls') :
    Mirrors Alike (readBody b ls) (readBody b ls') fun _ _ => Alike := by
  induction h with
  | nil => exact .pure fun _ _ hd => hd
  | @cons l l' ls ls' hl _ ih =>
    rw [readBody, readBody]
    refine .get fun d d' hd => ?_
    rw [hd.term_isSome]
    split
    · exact .refuse l _
    · refine .bind ((mirrors_line hl).weaken ?_ fun _ _ _ _ h => h) fun _ _ => ih
      rintro _ _ ⟨rfl, rfl⟩
      exact hd

/-- The same block, with lines that differ in the order of pairs. -/
def SameBlock (x x' : BlockId × List Line) : Prop :=
  x'.1 = x.1 ∧ List.Forall₂ Line.Reordered x.2 x'.2

/-- **Blocks whose lines differ in the order of pairs** are read into drafts that are alike. -/
theorem mirrors_blocks {bs bs' : List (BlockId × List Line)} (h : List.Forall₂ SameBlock bs bs') :
    ∀ last last' : Line,
      Mirrors Alike (readBlocks last bs) (readBlocks last' bs') fun _ _ => Alike := by
  induction h with
  | nil => exact fun _ _ => .pure fun _ _ hd => hd
  | @cons x x' bs bs' hx _ ih =>
    intro last last'
    obtain ⟨b, own⟩ := x
    obtain ⟨b', own'⟩ := x'
    obtain ⟨rfl, hown⟩ : b' = b ∧ List.Forall₂ Line.Reordered own own' := hx
    rw [readBlocks, readBlocks]
    refine .bind (mirrors_body hown) fun _ _ => .get fun d d' hd => ?_
    have hterm : (d'.func.block b').term.isNone = (d.func.block b').term.isNone := by
      rw [← Option.not_isSome, ← Option.not_isSome, hd.term_isSome]
    dsimp only
    rw [hterm]
    split
    · exact .refuse _ _
    · refine (ih _ _).weaken ?_ fun _ _ _ _ h => h
      rintro _ _ ⟨rfl, rfl⟩
      exact hd

end Source

end BranchFusion
