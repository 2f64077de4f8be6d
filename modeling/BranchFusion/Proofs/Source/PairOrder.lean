import BranchFusion.Proofs.Source.Settled

/-!
# Texts that differ in the order of pairs

If a text can be read, so can every text that differs from it in the order of pairs only
(`BranchFusion.Module.parse_reordered`). What is read are twins: the drafts are alike, and drafts
that are alike have the same names under other numbers, so a value has the value with the same name
for a counterpart (`BranchFusion.Source.Alike.similar`).

Numbers that are not taken are left alone, since passes enter new values under them.
-/

namespace BranchFusion

namespace Source

variable {d d' : Draft} {v : Value}

/-! ### Twins -/

/-- The names of an orderly draft are different. -/
theorem Draft.Orderly.nodup_names (h : d.Orderly) :
    (d.func.values.toList.map Value.name).Nodup := by
  have hids : (d.func.values.toList.map Value.id).Nodup := by
    rw [List.nodup_iff_injective_getElem]
    rintro ⟨i, hi⟩ ⟨j, hj⟩ hij
    rw [List.length_map] at hi hj
    simp only [List.getElem_map, Array.getElem_toList] at hij
    have hvi := (h.numbered i _ (Array.getElem?_eq_getElem hi)).2
    have hvj := (h.numbered j _ (Array.getElem?_eq_getElem hj)).2
    exact Fin.ext (hvi.symm.trans (hij.trans hvj))
  refine List.Nodup.map_on (fun v hv w hw => ?_) hids.of_map
  exact h.unique v (Array.mem_toList_iff.mp hv) w (Array.mem_toList_iff.mp hw)

/-- A value is found in its place. -/
theorem Draft.Orderly.getElem?_id (h : d.Orderly) (hv : v ∈ d.func.values) :
    d.func.values[v.id]? = some v := by
  obtain ⟨i, hi⟩ := Array.mem_iff_getElem?.mp hv
  rwa [(h.numbered i v hi).2]

/-- The number that a value of `fn` has in `fn'`, where it is looked up by its name. -/
def renumber (fn fn' : Func) (i : Nat) : Nat :=
  match fn.values[i]? with
  | some v => (named fn' v.name).id
  | none => i

/-- What stands in `fn'` for a value of `fn`. -/
def counterpart (fn fn' : Func) (v : Value) : Value :=
  if v.func = fn.serial then { v with id := renumber fn fn' v.id } else v

namespace Alike

variable (h : Alike d d')

include h

theorem serial : d'.func.serial = d.func.serial := by
  obtain ⟨ν, vs, heq⟩ := h.exists_rename
  rw [heq]
  rfl

/-- Drafts that are alike have the same names, in some order. -/
theorem perm_names :
    (d'.func.values.toList.map Value.name).Perm (d.func.values.toList.map Value.name) := by
  refine (List.perm_ext_iff_of_nodup h.right.nodup_names h.left.nodup_names).mpr fun name => ?_
  have hnames := h.names name
  rw [taken_iff, taken_iff] at hnames
  simpa [List.mem_map] using hnames

theorem size_values : d'.func.values.size = d.func.values.size := by
  simpa using h.perm_names.length_eq

/-- The value with the name of a value is in the other function. -/
theorem named_mem (hv : v ∈ d.func.values) :
    named d'.func v.name ∈ d'.func.values ∧ (named d'.func v.name).name = v.name :=
  named_of_taken ((h.names _).mpr (taken_iff.mpr ⟨v, hv, rfl⟩))

theorem renumber_injective : Function.Injective (renumber d.func d'.func) := by
  have htaken : ∀ {i : Nat} {v : Value}, d.func.values[i]? = some v →
      renumber d.func d'.func i < d.func.values.size := by
    intro i v hi
    have hmem := (h.named_mem (Array.mem_of_getElem? hi)).1
    obtain ⟨hlt, -⟩ := Array.getElem?_eq_some_iff.mp (h.right.getElem?_id hmem)
    rwa [renumber, hi, ← h.size_values]
  have hfree : ∀ {i : Nat}, d.func.values[i]? = none →
      ¬renumber d.func d'.func i < d.func.values.size := by
    intro i hi
    rw [renumber, hi, Nat.not_lt]
    exact Array.getElem?_eq_none_iff.mp hi
  intro i j hij
  cases hi : d.func.values[i]? with
  | none =>
    cases hj : d.func.values[j]? with
    | none => simpa [renumber, hi, hj] using hij
    | some w => exact absurd (htaken hj) (hij ▸ hfree hi)
  | some v =>
    cases hj : d.func.values[j]? with
    | none => exact absurd (htaken hi) (hij ▸ hfree hj)
    | some w =>
      -- values of the second function with the same number are one value
      have hv := Array.mem_of_getElem? hi
      have hw := Array.mem_of_getElem? hj
      obtain ⟨hv', hvname⟩ := h.named_mem hv
      obtain ⟨hw', hwname⟩ := h.named_mem hw
      have hid : (named d'.func v.name).id = (named d'.func w.name).id := by
        simpa [renumber, hi, hj] using hij
      have hsame := h.right.getElem?_id hv'
      rw [hid, h.right.getElem?_id hw'] at hsame
      have hname : v.name = w.name := by
        rw [← hvname, ← hwname, Option.some.inj hsame]
      obtain rfl := h.left.unique v hv w hw hname
      exact (h.left.numbered i v hi).2.symm.trans (h.left.numbered j v hj).2

theorem counterpart_eq_named (hv : v ∈ d.func.values) :
    counterpart d.func d'.func v = named d'.func v.name := by
  have hplace := h.left.getElem?_id hv
  obtain ⟨hmem, hname⟩ := h.named_mem hv
  have hserial := (h.left.numbered _ v hplace).1
  have hserial' := (h.right.numbered _ _ (h.right.getElem?_id hmem)).1
  rw [counterpart, if_pos hserial, renumber, hplace]
  dsimp only
  generalize named d'.func v.name = v' at hname hserial'
  rw [hserial, ← h.serial, ← hserial', ← hname]

theorem renumbers_counterpart : Func.Renumbers (counterpart d.func d'.func) := by
  refine ⟨fun v w hvw => ?_, fun v => ?_⟩
  · rw [counterpart, counterpart] at hvw
    split_ifs at hvw with hv hw hw
    · obtain ⟨hfunc, hid, hname⟩ := Value.mk.inj hvw
      have hid := h.renumber_injective hid
      cases v
      cases w
      simp_all
    · exact absurd (hvw ▸ hv : w.func = d.func.serial) hw
    · exact absurd (hvw.symm ▸ hw : v.func = d.func.serial) hv
    · exact hvw
  · rw [counterpart]
    split <;> rfl

/-- **The functions of drafts that are alike are twins.** -/
theorem similar : d.func.Similar d'.func := by
  have hmatches : Matches d d' (counterpart d.func d'.func) := fun v hv v' hv' hname => by
    rw [h.counterpart_eq_named hv, ← hname, h.right.named_eq hv']
  refine ⟨_, h.renumbers_counterpart, h.func _ hmatches, ?_, fun n name hn => ?_⟩
  · -- both tables are the names, looked up in the second function
    have hleft : d.func.values.toList.map (counterpart d.func d'.func) =
        (d.func.values.toList.map Value.name).map (named d'.func) := by
      rw [List.map_map]
      exact List.map_congr_left fun v hv => h.counterpart_eq_named (Array.mem_toList_iff.mp hv)
    have hright : (d'.func.values.toList.map Value.name).map (named d'.func) =
        d'.func.values.toList := by
      rw [List.map_map]
      refine (List.map_congr_left fun v hv => ?_).trans (List.map_id _)
      exact h.right.named_eq (Array.mem_toList_iff.mp hv)
    rw [hleft, ← hright]
    exact h.perm_names.map _
  · rw [counterpart, if_pos rfl, renumber, Array.getElem?_eq_none hn]

/-- If all values of the one draft are defined, so are those of the other. -/
theorem defined_of_defined (hdefined : ∀ v ∈ d.func.values, v ∈ d.defined) :
    ∀ v ∈ d'.func.values, v ∈ d'.defined := by
  intro v' hv'
  obtain ⟨hmem, hname⟩ := named_of_taken ((h.names v'.name).mp (taken_iff.mpr ⟨v', hv', rfl⟩))
  have hnames : v'.name ∈ d'.defined.map Value.name := by
    rw [h.defined, ← hname]
    exact List.mem_map_of_mem (hdefined _ hmem)
  obtain ⟨w, hw, hwname⟩ := List.mem_map.mp hnames
  exact h.right.unique w (h.right.known w hw) v' hv' hwname ▸ hw

end Alike

/-! ### Functions -/

variable {header header' : Line} {body body' : List Line} {serial : Nat} {fn : Func}

/-- A draft without values, blocks or parameters is like itself. -/
theorem alike_start (serial : Nat) (name : String) :
    Alike { func := { serial := serial, name := name } }
      { func := { serial := serial, name := name } } := by
  have horderly : Draft.Orderly { func := { serial := serial, name := name } } :=
    ⟨by simp, by simp, by simp, by simp⟩
  exact ⟨horderly, horderly, fun _ => Iff.rfl, rfl, fun ν _ => by simp [Func.rename]⟩

/-- **The same header** is read into drafts that are alike. -/
theorem exists_readHeader (htext : header'.text = header.text)
    (h : readHeader serial header = .ok d) :
    ∃ d', readHeader serial header' = .ok d' ∧ Alike d d' := by
  obtain ⟨hwords, name, u, hname, hrun⟩ := readHeader_eq_ok.mp h
  have hparams : Mirrors Alike (readParams header ((words header.text).drop 2).dropLast)
      (readParams header' ((words header.text).drop 2).dropLast) fun _ _ => Alike :=
    mirrors_params _
  obtain ⟨u', d', hrun', hd'⟩ := hparams _ _ (alike_start serial name) u d hrun
  refine ⟨d', readHeader_eq_ok.mpr ?_, hd'⟩
  rw [htext]
  exact ⟨hwords, name, u', hname, hrun'⟩

/-- **A function whose lines differ in the order of pairs** can be read, too, into a twin. -/
theorem exists_readFunc (hplain : ∀ l ∈ header :: body, l.Plain)
    (htext : header'.text = header.text) (hbody : List.Forall₂ Line.Reordered body body')
    (h : readFunc serial header body = .ok fn) :
    ∃ fn', readFunc serial header' body' = .ok fn' ∧ fn.Similar fn' := by
  obtain ⟨hhead, hplain⟩ := List.forall_mem_cons.mp hplain
  obtain ⟨draft, fn₀, blocks, last, u, d, hheader, hlabels, hblocks, hrun, hdefined, rfl⟩ :=
    readFunc_eq_ok.mp h
  have haligned : List.Forall₂ Line.Aligned body body' := by
    have hstart : Outlined serial (([] : List (BlockId × List Line)).map Prod.fst) draft :=
      outlined_of_readHeader hhead hheader
    have hlines : ∀ l ∈ blocks.flatMap Prod.snd, l.Plain := fun l hl =>
      hplain l ((mem_of_readLabels hlabels hl).resolve_left (by simp))
    have hsettled := reads_blocks_settled blocks last (fun x hx => List.mem_map_of_mem hx) hlines _
      (outlined_of_readLabels hplain hstart hlabels) u d hrun
    refine (List.forall₂_and_left _ _).mpr ⟨fun l hl => hl, hbody⟩ |>.imp fun l l' hl => ?_
    exact aligned_of_reordered hl.2 (hplain l hl.1)
      (fun rev hrev => isLabel_of_readLabels hrev hlabels hl.1)
      fun hcolon => hsettled l (mem_blocks_of_readLabels hcolon hlabels (Or.inr hl.1))
  obtain ⟨draft', hheader', hdraft⟩ := exists_readHeader htext hheader
  obtain ⟨fn₀', blocks', last', hlabels', hd₀, hsame⟩ :=
    exists_readLabels haligned header' hdraft .nil hlabels
  obtain ⟨u', d', hrun', hd⟩ := mirrors_blocks hsame last last' _ _ hd₀ u d hrun
  have hblocks' : blocks' ≠ [] := by
    rintro rfl
    exact hblocks (List.forall₂_nil_right_iff.mp hsame)
  have hvalues : ∀ v ∈ d.func.values, v ∈ d.defined := by
    intro v hv
    obtain ⟨x, hx, rfl⟩ := List.mem_map.mp ((hd.left.mentioned v).mpr hv)
    exact hdefined x hx
  refine ⟨d'.func, readFunc_eq_ok.mpr ⟨draft', fn₀', blocks', last', u', d', hheader', hlabels',
    hblocks', hrun', fun x hx => ?_, rfl⟩, hd.similar⟩
  exact hd.defined_of_defined hvalues x.1
    ((hd.right.mentioned x.1).mp (List.mem_map_of_mem hx))

/-! ### Modules -/

/-- A line with pairs is not a header, -/
theorem not_header_of_moved {s : String} {ws : List String} (h : PairsMoved (words s) ws) :
    ¬Text.startsWith "func " s = true := by
  intro hstart
  rw [Text.startsWith, List.isPrefixOf_iff_prefix] at hstart
  obtain ⟨rest, hrest⟩ := hstart
  have htext : s = "func " ++ String.ofList rest := String.toList_inj.mp (by simp [← hrest])
  have hhead : (words s).head? = some "func" := by
    rw [htext, words_append_of_back rfl]
    rfl
  generalize words s = ws₀ at h hhead
  cases h with
  | phi hr _ _ =>
    obtain rfl := Option.some.inj hhead
    exact absurd hr (by decide)
  | switch _ _ => exact absurd (Option.some.inj hhead) (by decide)

/-- and not the end of a function. -/
theorem ne_brace_of_moved {s : String} {ws : List String} (h : PairsMoved (words s) ws) :
    s ≠ "\x7d" := by
  rintro rfl
  exact absurd h.length_le (by decide)

theorem Line.Reordered.text_eq_of_header {l l' : Line} (h : l.Reordered l')
    (hl : Text.startsWith "func " l.text = true) : l'.text = l.text :=
  h.resolve_right fun hmoved => not_header_of_moved hmoved hl

theorem Line.Reordered.brace_iff {l l' : Line} (h : l.Reordered l') :
    l'.text = "\x7d" ↔ l.text = "\x7d" := by
  rcases h with h | h
  · rw [h]
  · exact iff_of_false (ne_brace_of_moved h.symm) (ne_brace_of_moved h)

/-- The same open function, or none: it has the same header, and lines that differ in the order of
pairs. -/
def SameOpen : Option (Line × List Line) → Option (Line × List Line) → Prop :=
  Option.Rel fun x x' => x'.1.text = x.1.text ∧ List.Forall₂ Line.Reordered x.2 x'.2

theorem any_name_of_similar {fns fns' : List Func} (h : List.Forall₂ Func.Similar fns fns')
    (name : String) : (fns'.any fun f => f.name = name) = fns.any fun f => f.name = name := by
  induction h with
  | nil => rfl
  | cons hfn _ ih => rw [List.any_cons, List.any_cons, hfn.name, ih]

/-- **Functions whose lines differ in the order of pairs** can be read, too, into twins. -/
theorem exists_readFuncs {ls ls' : List Line} (h : List.Forall₂ Line.Reordered ls ls') :
    ∀ {done done' fns : List Func} {o o' : Option (Line × List Line)}, (∀ l ∈ ls, l.Plain) →
      (∀ e ∈ o, ∀ l ∈ e.1 :: e.2, l.Plain) → SameOpen o o' →
      List.Forall₂ Func.Similar done done' → readFuncs serial done o ls = .ok fns →
      ∃ fns', readFuncs serial done' o' ls' = .ok fns' ∧ List.Forall₂ Func.Similar fns fns' := by
  induction h with
  | nil =>
    intro done done' fns o o' _ _ hopen hdone hrun
    cases hopen with
    | none =>
      obtain rfl := Except.ok.inj hrun
      exact ⟨done', rfl, hdone⟩
    | some => exact absurd hrun (by simp [readFuncs])
  | @cons l l' ls ls' hl _ ih =>
    intro done done' fns o o' hplain hopenPlain hopen hdone hrun
    obtain ⟨hlplain, hplain⟩ := List.forall_mem_cons.mp hplain
    cases hopen with
    | none =>
      rw [readFuncs] at hrun
      split at hrun
      · next hstart =>
        have htext := hl.text_eq_of_header hstart
        rw [readFuncs, htext, if_pos hstart]
        refine ih hplain ?_ (.some ⟨htext, .nil⟩) hdone hrun
        rintro _ ⟨⟩
        simpa using hlplain
      · exact absurd hrun (by simp)
    | @some x x' hx =>
      obtain ⟨header, body⟩ := x
      obtain ⟨header', body'⟩ := x'
      have hfunc := hopenPlain (header, body) rfl
      rw [readFuncs] at hrun
      split at hrun
      · next hbrace =>
        have hmore : SameOpen (some (header, body ++ [l])) (some (header', body' ++ [l'])) :=
          .some ⟨hx.1, List.rel_append hx.2 (.cons hl .nil)⟩
        rw [readFuncs, if_pos (hl.brace_iff.not.mpr hbrace)]
        refine ih hplain ?_ hmore hdone hrun
        rintro _ ⟨⟩
        rw [← List.cons_append]
        exact List.forall_mem_append.mpr ⟨hfunc, by simpa using hlplain⟩
      · next hbrace =>
        obtain ⟨fn, hread, hrun⟩ := ok_of_bind hrun
        obtain ⟨fn', hread', hfn⟩ := exists_readFunc hfunc hx.1 hx.2 hread
        split at hrun
        · exact absurd hrun (by simp)
        next hnew =>
        obtain ⟨fns', hrun', hfns⟩ :=
          ih hplain (by simp) .none (List.rel_append hdone (.cons hfn .nil)) hrun
        refine ⟨fns', ?_, hfns⟩
        have hnew' : ¬(done'.any fun f => f.name = fn'.name) = true := by
          rwa [hfn.name, any_name_of_similar hdone]
        rw [readFuncs, if_neg (hl.brace_iff.not.not.mpr hbrace), ← hdone.length_eq, hread']
        simp only [bind, Except.bind]
        rw [if_neg hnew']
        exact hrun'

theorem Line.Reordered.symm {l l' : Line} (h : l.Reordered l') : l'.Reordered l :=
  h.imp Eq.symm PairsMoved.symm

/-- **Texts that differ in the order of pairs** at most. Comments, blank lines and what separates
the words of a line with pairs may differ as well. -/
def Reordered (src src' : String) : Prop :=
  List.Forall₂ Line.Reordered (readLines src) (readLines src')

theorem Reordered.symm {src src' : String} (h : Reordered src src') : Reordered src' src :=
  (List.Forall₂.imp (fun _ _ hl => hl.symm) h).flip

end Source

/-- **A text that differs in the order of pairs** can be read, too, into twins of the functions. -/
theorem Module.parse_reordered {src src' : String} (h : Source.Reordered src src') {serial : Nat}
    {m : Module} (hread : Module.parse src serial = .ok m) :
    ∃ m', Module.parse src' serial = .ok m' ∧ List.Forall₂ Func.Similar m.funcs m'.funcs := by
  obtain ⟨fns', hfns', hsimilar⟩ := Source.exists_readFuncs h
    (fun l => Source.plain_of_mem_readLines) (by simp) .none .nil (Source.parse_eq_ok.mp hread)
  exact ⟨⟨fns'⟩, Source.parse_eq_ok.mpr hfns', hsimilar⟩

end BranchFusion
