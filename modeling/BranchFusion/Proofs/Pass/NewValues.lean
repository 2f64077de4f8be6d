import BranchFusion.Proofs.Pass.Material
import BranchFusion.Proofs.Source.Naming
import Mathlib.Data.List.Perm.Subperm
import Mathlib.Logic.Relation

/-!
# New values

A function remembers every value that it ever named, also those that nothing defines any more, and a
new value gets the next number and a name that is not taken. The rule for the name
(`BranchFusion.Func.NamedFor`) asks for the least number that makes it free. The search for it ends,
because different numbers are written differently and only finitely many names are taken
(`BranchFusion.Func.exists_free_numbered`).

What holds of the table while values are made and passes are run is
`BranchFusion.Func.Registered`: the values are numbered by their places, no two have the same name,
and nothing occurs in the function that is not in the table. A pass that folds branches enters the
conjunctions, and otherwise passes put nothing into blocks that was not there
(`BranchFusion.Func.MadeFrom`). Nothing is ever taken out of the table.
-/

namespace BranchFusion

open Relation (ReflTransGen)

namespace Func

variable {fn fn' fn₀ fn₁ : Func} {v w : Value} {wanted name base : String} {new : List Value}

/-! ### The rule for names -/

/-- A name is free if no value has it. -/
def Free (fn : Func) (name : String) : Prop := ∀ v ∈ fn.values, v.name ≠ name

theorem taken_eq_false_iff : fn.taken name = false ↔ fn.Free name := by
  simp only [taken, Free, Array.any_eq_false', decide_eq_true_eq, ne_eq]

theorem taken_eq_true_iff : fn.taken name = true ↔ ¬fn.Free name := by
  rw [← taken_eq_false_iff, Bool.not_eq_false]

/-- What numbers are put after: the wanted name, or `v` if none is wanted. -/
def stem (wanted : String) : String := if wanted = "" then "v" else wanted

/-- **The rule for the name of a new value**: the wanted name, if it is free and is neither empty
nor `v`, and otherwise the stem with the least positive number that makes it free. -/
inductive NamedFor (fn : Func) (wanted : String) : String → Prop
  | same : wanted ≠ "" → wanted ≠ "v" → fn.Free wanted → NamedFor fn wanted wanted
  | numbered {k : Nat} :
      wanted = "" ∨ wanted = "v" ∨ ¬fn.Free wanted → 0 < k → fn.Free (stem wanted ++ toString k) →
      (∀ j, 0 < j → j < k → ¬fn.Free (stem wanted ++ toString j)) →
      NamedFor fn wanted (stem wanted ++ toString k)

theorem NamedFor.free (h : fn.NamedFor wanted name) : fn.Free name := by
  cases h with
  | same _ _ hfree => exact hfree
  | numbered _ _ hfree _ => exact hfree

/-- The rule allows for one name. -/
theorem NamedFor.unique {name' : String} (h : fn.NamedFor wanted name)
    (h' : fn.NamedFor wanted name') : name = name' := by
  cases h with
  | same hne hv hfree =>
    cases h' with
    | same _ _ _ => rfl
    | numbered hnumber _ _ _ =>
      rcases hnumber with hnumber | hnumber | hnumber
      · exact absurd hnumber hne
      · exact absurd hnumber hv
      · exact absurd hfree hnumber
  | @numbered k hnumber hk hfree hleast =>
    cases h' with
    | same hne hv hfree' =>
      rcases hnumber with hnumber | hnumber | hnumber
      · exact absurd hnumber hne
      · exact absurd hnumber hv
      · exact absurd hfree' hnumber
    | @numbered k' _ hk' hfree' hleast' =>
      rcases Nat.lt_trichotomy k k' with hlt | rfl | hlt
      · exact absurd hfree (hleast' k hk hlt)
      · rfl
      · exact absurd hfree' (hleast k' hk' hlt)

/-! ### The search for a name -/

/-- **Among more numbers than there are values one makes the name free.** -/
theorem exists_free_numbered (fn : Func) (base : String) :
    ∃ k, 1 ≤ k ∧ k ≤ 1 + fn.values.size ∧ fn.Free (base ++ toString k) := by
  by_contra hnone
  let names := (List.range' 1 (fn.values.size + 1)).map fun k => base ++ toString k
  have hnodup : names.Nodup := by
    refine List.Nodup.map (fun j k heq => ?_) (List.nodup_range' ..)
    exact Text.Numeral.toString_inj.mp (String.append_right_inj base |>.mp heq)
  have hsubset : names ⊆ fn.values.toList.map Value.name := by
    intro name hname
    obtain ⟨k, hk, rfl⟩ := List.mem_map.mp hname
    rw [List.mem_range'_1] at hk
    by_contra hfree
    refine hnone ⟨k, hk.1, by omega, fun v hv heq => hfree ?_⟩
    exact List.mem_map.mpr ⟨v, Array.mem_toList_iff.mpr hv, heq⟩
  have hlength := (List.subperm_of_subset hnodup hsubset).length_le
  simp [names] at hlength

/-- The search stops at the least number that makes the name free, if there is one in reach. -/
theorem freeSuffix_spec {taken : String → Bool} :
    ∀ (fuel i : Nat),
      (∃ k, i ≤ k ∧ k ≤ i + fuel ∧ taken (base ++ toString k) = false) →
      ∃ k, i ≤ k ∧ freeSuffix taken base fuel i = base ++ toString k ∧
        taken (base ++ toString k) = false ∧
        ∀ j, i ≤ j → j < k → taken (base ++ toString j) = true
  | 0, i, ⟨k, hik, hki, hfree⟩ => by
    obtain rfl : k = i := by omega
    exact ⟨k, le_rfl, rfl, hfree, fun j hj hjk => by omega⟩
  | fuel + 1, i, ⟨k, hik, hki, hfree⟩ => by
    rw [freeSuffix]
    cases hi : taken (base ++ toString i) with
    | false => exact ⟨i, le_rfl, rfl, hi, fun j hj hji => by omega⟩
    | true =>
      have hne : k ≠ i := by
        rintro rfl
        rw [hi] at hfree
        exact absurd hfree (by simp)
      obtain ⟨k', hk', heq, hfree', hleast⟩ :=
        freeSuffix_spec fuel (i + 1) ⟨k, by omega, by omega, hfree⟩
      refine ⟨k', by omega, heq, hfree', fun j hij hjk => ?_⟩
      rcases Nat.eq_or_lt_of_le hij with rfl | hlt
      · exact hi
      · exact hleast j hlt hjk

/-- **The name that is made up follows the rule.** -/
theorem namedFor_freshName (fn : Func) (wanted : String) :
    fn.NamedFor wanted (fn.freshName wanted) := by
  have hname : fn.freshName wanted =
      if stem wanted ≠ "v" ∧ fn.taken (stem wanted) = false then stem wanted
      else freeSuffix fn.taken (stem wanted) fn.values.size 1 := rfl
  rw [hname]
  split
  · next h =>
    obtain ⟨hv, hfree⟩ := h
    have hne : wanted ≠ "" := by
      rintro rfl
      exact hv rfl
    have hstem : stem wanted = wanted := if_neg hne
    rw [hstem] at hv hfree ⊢
    exact .same hne hv (taken_eq_false_iff.mp hfree)
  · next h =>
    have hsome : ∃ k, 1 ≤ k ∧ k ≤ 1 + fn.values.size ∧
        fn.taken (stem wanted ++ toString k) = false := by
      obtain ⟨k, hk, hks, hfree⟩ := fn.exists_free_numbered (stem wanted)
      exact ⟨k, hk, hks, taken_eq_false_iff.mpr hfree⟩
    obtain ⟨k, hk, heq, hfree, hleast⟩ := freeSuffix_spec fn.values.size 1 hsome
    rw [heq]
    refine .numbered ?_ hk (taken_eq_false_iff.mp hfree)
      fun j hj hjk => taken_eq_true_iff.mp (hleast j hj hjk)
    by_cases hne : wanted = ""
    · exact Or.inl hne
    · have hstem : stem wanted = wanted := if_neg hne
      rw [hstem] at h
      by_cases hv : wanted = "v"
      · exact Or.inr (Or.inl hv)
      · exact Or.inr (Or.inr fun hfree => h ⟨hv, taken_eq_false_iff.mpr hfree⟩)

/-! ### Tables of values -/

/-- A value occurs in a function: it is a parameter, or is defined or used in a live block. -/
def Occurs (fn : Func) (v : Value) : Prop :=
  fn.Defined v ∨ ∃ b, fn.owns b ∧ some v ∈ (fn.block b).uses

/-- **The table of values is in order**: the values are numbered by their places, their names are
different, and all values that occur are there. -/
structure Registered (fn : Func) : Prop where
  numbers : fn.values.toList.map Value.id = List.range fn.values.size
  names : (fn.values.toList.map Value.name).Nodup
  occurs : ∀ v, fn.Occurs v → v ∈ fn.values

theorem Registered.id_lt (h : fn.Registered) (hv : v ∈ fn.values) : v.id < fn.values.size := by
  rw [← List.mem_range, ← h.numbers]
  exact List.mem_map_of_mem (Array.mem_toList_iff.mpr hv)

/-- **A value is known by its number, and by its name.** -/
theorem Registered.eq_of_eq (h : fn.Registered) (hv : v ∈ fn.values) (hw : w ∈ fn.values)
    (heq : v.id = w.id ∨ v.name = w.name) : v = w := by
  have hids : (fn.values.toList.map Value.id).Nodup := h.numbers ▸ List.nodup_range
  rw [← Array.mem_toList_iff] at hv hw
  rcases heq with heq | heq
  · exact List.inj_on_of_nodup_map hids hv hw heq
  · exact List.inj_on_of_nodup_map h.names hv hw heq

/-- A value is entered, and otherwise only what was in the function may be in it now. -/
theorem Registered.push (h : fn.Registered) (hid : v.id = fn.values.size)
    (hfree : fn.Free v.name) (hvalues : fn'.values = fn.values.push v)
    (hoccurs : ∀ w, fn'.Occurs w → w = v ∨ fn.Occurs w) : fn'.Registered := by
  constructor
  case numbers =>
    rw [hvalues, Array.toList_push, Array.size_push, List.map_append, h.numbers, List.range_succ,
      List.map_singleton, hid]
  case names =>
    rw [hvalues, Array.toList_push, List.map_append, List.map_singleton, ← List.concat_eq_append,
      List.nodup_concat]
    refine ⟨fun hmem => ?_, h.names⟩
    obtain ⟨w, hw, heq⟩ := List.mem_map.mp hmem
    exact hfree w (Array.mem_toList_iff.mp hw) heq
  case occurs =>
    intro w hw
    rw [hvalues, Array.mem_push]
    exact (hoccurs w hw).symm.imp_left (h.occurs w)

/-- What occurs in a function that is made from another one. -/
theorem MadeFrom.occurs (h : fn'.MadeFrom fn new) (hv : fn'.Occurs v) : v ∈ new ∨ fn.Occurs v := by
  rcases hv with (hv | ⟨b, hb, hv⟩) | ⟨b, hb, hv⟩
  · exact Or.inr (Or.inl (Or.inl (h.params ▸ hv)))
  · rw [Block.definitions_eq] at hv
    obtain ⟨it, hit, hv⟩ := List.mem_flatMap.mp hv
    exact ((h.item b hb it hit).result v hv).imp_right fun hd => Or.inl (Or.inr hd)
  · rw [Block.uses_eq] at hv
    obtain ⟨it, hit, hv⟩ := List.mem_flatMap.mp hv
    exact ((h.item b hb it hit).operand v hv).imp_right Or.inr

theorem Registered.of_madeFrom (h : fn.Registered) (hm : fn'.MadeFrom fn [])
    (hvalues : fn'.values = fn.values) : fn'.Registered := by
  refine ⟨hvalues ▸ h.numbers, hvalues ▸ h.names, fun v hv => hvalues ▸ h.occurs v ?_⟩
  exact (hm.occurs hv).resolve_left List.not_mem_nil

/-! ### What happens to a function -/

/-- Where functions come from: they are new and have no blocks, or they were read. -/
inductive Origin : Func → Prop
  | empty (serial : Nat) (name : String) : Origin { serial, name }
  | read {src : String} {serial : Nat} {m : Module} {fn : Func} :
      Module.parse src serial = .ok m → fn ∈ m.funcs → Origin fn

/-- What is done to a function: a new value is made, or a pass is run, strict or not and with
whatever analyses are cached. -/
inductive Edit : Func → Func → Prop
  | value (fn : Func) (wanted : String) : Edit fn (fn.freshValue wanted).2
  | pass (fn : Func) (p : Pass) (strict : Bool) (cache : Option AnalysisCache) :
      Edit fn (p.run strict fn cache).func

/-- **What holds of a function at all times**: its table is in order, and unless it has no blocks it
is well built. -/
structure Steady (fn : Func) : Prop where
  registered : fn.Registered
  shape : fn.WellBuilt ∨ fn.blocks = #[] ∧ fn.params = []

theorem Steady.nodup (h : fn.Steady) : fn.definedValues.Nodup := by
  rcases h.shape with hfn | ⟨hblocks, hparams⟩
  · exact hfn.nodup
  · have hnone : fn.definedValues = [] := by simp [definedValues, ids, hblocks, hparams]
    rw [hnone]
    exact List.nodup_nil

/-- **The values that a function defines have different numbers and different names.** -/
theorem Steady.nodup_map (h : fn.Steady) : (fn.definedValues.map Value.id).Nodup ∧
    (fn.definedValues.map Value.name).Nodup := by
  have hmem : ∀ v ∈ fn.definedValues, v ∈ fn.values := fun v hv =>
    h.registered.occurs v (Or.inl (mem_definedValues.mp hv))
  constructor
  · exact h.nodup.map_on fun v hv w hw heq =>
      h.registered.eq_of_eq (hmem v hv) (hmem w hw) (Or.inl heq)
  · exact h.nodup.map_on fun v hv w hw heq =>
      h.registered.eq_of_eq (hmem v hv) (hmem w hw) (Or.inr heq)

end Func

namespace Source

theorem Finished.registered {d : Draft} (h : Finished d) : d.func.Registered := by
  have hnamed := h.drafted.named
  refine ⟨hnamed.numbers, ?_, fun v hv => ?_⟩
  · have hnodup : d.func.values.toList.Nodup := by
      refine List.Nodup.of_map Value.id ?_
      rw [hnamed.numbers]
      exact List.nodup_range
    refine hnodup.map_on fun v hv w hw heq => ?_
    exact hnamed.unique v (Array.mem_toList_iff.mp hv) w (Array.mem_toList_iff.mp hw) heq
  · rcases hv with hv | ⟨b, hb, hv⟩
    · exact h.defined_iff.mp hv
    · obtain ⟨w, hw, heq⟩ := h.mem_values_of_use hb hv
      exact Option.some.inj heq ▸ hw

end Source

theorem Func.Origin.steady {fn : Func} (h : fn.Origin) : fn.Steady := by
  cases h with
  | empty serial name =>
    refine ⟨⟨rfl, List.nodup_nil, fun v hv => ?_⟩, Or.inr ⟨rfl, rfl⟩⟩
    rcases hv with (hv | ⟨b, hb, -⟩) | ⟨b, hb, -⟩
    · exact absurd hv List.not_mem_nil
    all_goals exact absurd hb (by simp [owns, liveAt?])
  | read hread hfn =>
    obtain ⟨d, hd, rfl⟩ := (Source.listed_of_parse hread).finished _ hfn
    exact ⟨hd.registered, Or.inl hd.wellBuilt⟩

/-! ### Passes -/

namespace Pass

variable {fn : Func}

/-- Where there are no blocks, there is nothing to do. -/
theorem func_run_of_blocks_empty (h : fn.blocks = #[]) (p : Pass) (strict : Bool)
    (cache : Option AnalysisCache) : (p.run strict fn cache).func = fn := by
  have hids : fn.ids = [] := by simp [Func.ids, h]
  cases p with
  | nestedIf =>
    have hcandidates : NestedIf.candidates fn = [] := by simp [NestedIf.candidates, hids]
    have hrun : (NestedIf.run strict fn cache).1 = .ok (NestedIf.start strict fn cache).1 := by
      rw [NestedIf.run, hcandidates]
      rfl
    rw [run_nestedIf hrun]
    cases strict <;> rfl
  | blockMerge =>
    have hrun : BlockMerge.run fn = .ok (fn, false) := by
      simp [BlockMerge.run, BlockMerge.sweeps, BlockMerge.sweep, hids]
    rw [run, hrun]
  | deadCode =>
    have hmeasure : fn.measure = 0 := by simp [Func.measure, hids]
    have hrun : DeadCode.run fn = (fn, false) := by
      rw [DeadCode.run, DeadCode.rounds, if_neg (by omega)]
    rw [run, hrun]

/-- **A pass keeps the table in order**, and what was in it stays. -/
theorem registered_run (hfn : fn.WellBuilt) (h : fn.Registered) (p : Pass) (strict : Bool)
    (cache : Option AnalysisCache) : (p.run strict fn cache).func.Registered ∧
      fn.values.toList <+: (p.run strict fn cache).func.values.toList := by
  cases p with
  | nestedIf =>
    obtain ⟨q, hq, -, hregistered, hvalues⟩ : ∃ q, (NestedIf.run strict fn cache).1 = .ok q ∧
        q.func.WellBuilt ∧ q.func.Registered ∧ fn.values.toList <+: q.func.values.toList := by
      refine NestedIf.run_induction (I := fun f _ _ => f.WellBuilt ∧ f.Registered ∧
        fn.values.toList <+: f.values.toList) (fun _ _ _ hI => hI.1.toWired) ?_
        ⟨hfn, h, List.prefix_rfl⟩
      rintro f f' a k b n cond ⟨hf, hregistered, hvalues⟩ hb hfound - hfolded
      refine ⟨hfolded.wellBuilt hfound hf hb, ?_, ?_⟩
      · refine hregistered.push hfolded.cond_id ?_ hfolded.values fun w hw => ?_
        · rw [hfolded.cond_name]
          exact (f.namedFor_freshName _).free
        · have hmade := hfolded.madeFrom hfound hf.toWired hb
          exact (hmade.occurs hw).imp_left List.mem_singleton.mp
      · rw [hfolded.values, Array.toList_push]
        exact hvalues.trans (List.prefix_append _ _)
    rw [run_nestedIf hq]
    exact ⟨hregistered, hvalues⟩
  | blockMerge =>
    obtain ⟨f', c, hrun, -, hregistered, hvalues⟩ := BlockMerge.run_induction
      (I := fun f => f.WellBuilt ∧ f.Registered ∧ f.values = fn.values)
      (fun _ hI => hI.1.toWired) (fun f f' b m hI hb hm hmerged =>
        ⟨hmerged.wellBuilt hm hI.1 hb,
          hI.2.1.of_madeFrom (hmerged.madeFrom hm hI.1.toWired hb) hmerged.values,
          hmerged.values.trans hI.2.2⟩) ⟨hfn, h, rfl⟩
    rw [run, hrun]
    exact ⟨hregistered, by rw [hvalues]⟩
  | deadCode =>
    obtain ⟨hregistered, hvalues⟩ := DeadCode.rounds_induction
      (I := fun f => f.Registered ∧ f.values = fn.values)
      (fun f hI => ⟨hI.1.of_madeFrom DeadCode.madeFrom_round rfl, hI.2⟩)
      (fn.measure + 1) fn false ⟨h, rfl⟩
    refine ⟨hregistered, ?_⟩
    show fn.values.toList <+: (DeadCode.rounds (fn.measure + 1) fn false).1.values.toList
    rw [hvalues]

end Pass

/-! ### Whatever happens -/

namespace Func

variable {fn fn' fn₀ fn₁ : Func} {v w : Value} {wanted name : String}

theorem WellBuilt.freshValue (h : fn.WellBuilt) (wanted : String) :
    (fn.freshValue wanted).2.WellBuilt :=
  { entry := h.entry, terminated := h.terminated, successors := h.successors, preds := h.preds
    nodup := h.nodup, sorted := ⟨h.sorted.phi, h.sorted.term⟩
    entered := fun v hv hfunc => by
      have hlt := h.entered v hv hfunc
      rw [Func.freshValue, define, Array.size_push]
      exact Nat.lt_succ_of_lt hlt }

/-- **Whatever is done to a function**, what held at all times still holds, and what was in the
table stays there. -/
theorem Edit.steady (he : Edit fn fn') (h : fn.Steady) :
    fn'.Steady ∧ fn.values.toList <+: fn'.values.toList := by
  cases he with
  | value wanted =>
    refine ⟨⟨?_, ?_⟩, ?_⟩
    · exact h.registered.push rfl (fn.namedFor_freshName wanted).free rfl fun w hw => Or.inr hw
    · exact h.shape.imp_left fun hfn => hfn.freshValue wanted
    · rw [freshValue, define, Array.toList_push]
      exact List.prefix_append _ _
  | pass p strict cache =>
    rcases h.shape with hfn | ⟨hblocks, hparams⟩
    · obtain ⟨hregistered, hvalues⟩ := Pass.registered_run hfn h.registered p strict cache
      exact ⟨⟨hregistered, Or.inl (Pass.improves_run hfn p strict cache).wellBuilt⟩, hvalues⟩
    · rw [Pass.func_run_of_blocks_empty hblocks]
      exact ⟨h, List.prefix_rfl⟩

theorem steady_of_edits (h : fn.Steady) (he : ReflTransGen Edit fn fn') :
    fn'.Steady ∧ fn.values.toList <+: fn'.values.toList := by
  induction he with
  | refl => exact ⟨h, List.prefix_rfl⟩
  | tail _ he ih =>
    obtain ⟨hsteady, hvalues⟩ := he.steady ih.1
    exact ⟨hsteady, ih.2.trans hvalues⟩

/-- Looking up a name after a value was entered. -/
theorem value?_define (hfree : fn.Free name) (s : String) :
    (fn.define name).2.value? s =
      if Text.dropFront "%" s = name then some (fn.define name).1 else fn.value? s := by
  simp only [value?, define, Array.find?_push, decide_eq_true_eq]
  by_cases hs : Text.dropFront "%" s = name
  · have hnone : fn.values.find? (fun v => decide (v.name = Text.dropFront "%" s)) = none := by
      rw [Array.find?_eq_none]
      intro v hv
      simpa [hs] using hfree v hv
    rw [hnone, if_pos hs, if_pos hs.symm]
    rfl
  · rw [if_neg hs, if_neg (Ne.symm hs), Option.or_none]

/-- **New values are new.** However a function came about, as a new one or by reading, and whatever
values were made and passes run since: all values that occur in it are in its table, no two values
of the table have the same number or the same name, and no two definitions define such values. A
value that is made now gets the one name that the rule allows for. Neither its name nor its number
belonged to any value at any time, be that value still in use or not. Apart from the new entry the
function is as it was, and all other names lead where they led. -/
theorem new_values_are_new (horigin : fn₀.Origin) (hedits : ReflTransGen Edit fn₀ fn) :
    (∀ v, fn.Occurs v → v ∈ fn.values) ∧
    (∀ v ∈ fn.values, ∀ w ∈ fn.values, v.id = w.id ∨ v.name = w.name → v = w) ∧
    (fn.definedValues.map Value.id).Nodup ∧ (fn.definedValues.map Value.name).Nodup ∧
    ∀ wanted, ∃ v fn', fn.freshValue wanted = (v, fn') ∧
      (∀ name, fn.NamedFor wanted name ↔ name = v.name) ∧
      (∀ fn₁, ReflTransGen Edit fn₀ fn₁ → ReflTransGen Edit fn₁ fn →
        ∀ w ∈ fn₁.values, w.name ≠ v.name ∧ w.id ≠ v.id) ∧
      fn' = { fn with values := fn.values.push v } ∧
      ∀ s, fn'.value? s = if Text.dropFront "%" s = v.name then some v else fn.value? s := by
  have hsteady := (steady_of_edits horigin.steady hedits).1
  have hregistered := hsteady.registered
  refine ⟨hregistered.occurs, fun v hv w hw => hregistered.eq_of_eq hv hw, hsteady.nodup_map.1,
    hsteady.nodup_map.2, fun wanted => ⟨_, _, rfl, fun name => ?_, fun fn₁ h₁ h₂ w hw => ?_, rfl,
      value?_define (fn.namedFor_freshName wanted).free⟩⟩
  · refine ⟨fun h => h.unique (fn.namedFor_freshName wanted), ?_⟩
    rintro rfl
    exact fn.namedFor_freshName wanted
  · -- what was in the table at any time is still in it
    have hmem : w ∈ fn.values := by
      rw [← Array.mem_toList_iff] at hw ⊢
      exact (steady_of_edits (steady_of_edits horigin.steady h₁).1 h₂).2.subset hw
    exact ⟨(fn.namedFor_freshName wanted).free w hmem, (hregistered.id_lt hmem).ne⟩

/-- A value takes the name that conjunctions have, and a fold has to number its own. -/
theorem tangled_new_values_are_new : ∃ fn : Func,
    ReflTransGen Edit tangled fn ∧
    fn = (Pass.nestedIf.run false (tangled.freshValue "nested.if.combined").2 none).func ∧
    fn.values.toList.map Value.name =
      ["a", "b", "x", "nested.if.combined", "nested.if.combined1"] ∧
    (fn.definedValues.map Value.name).Nodup ∧
    ∃ v fn', fn.freshValue "nested.if.combined" = (v, fn') ∧ v.name = "nested.if.combined2" ∧
      fn'.value? "%nested.if.combined1" = fn.value? "%nested.if.combined1" := by
  have hedits : ReflTransGen Edit tangled
      (Pass.nestedIf.run false (tangled.freshValue "nested.if.combined").2 none).func :=
    (ReflTransGen.single (.value tangled "nested.if.combined")).tail (.pass _ .nestedIf false none)
  obtain ⟨-, -, -, hnodup, hnew⟩ :=
    new_values_are_new (.read parse_tangledText (by simp)) hedits
  obtain ⟨v, fn', heq, -, -, -, hlookup⟩ := hnew "nested.if.combined"
  have hname : v.name = "nested.if.combined2" := by
    rw [← congrArg (fun r : Value × Func => r.1.name) heq]
    decide +kernel
  refine ⟨_, hedits, rfl, by decide +kernel, hnodup, v, fn', heq, hname, ?_⟩
  rw [hlookup, hname, if_neg (by decide)]

end Func

end BranchFusion
