import BranchFusion.Proofs.Reachability
import BranchFusion.Proofs.Tables
import BranchFusion.Verifier
import Mathlib.Data.List.Count
import Mathlib.Data.List.Pairwise

/-!
# What the verifier guarantees

The verifier is a list of checks, each of which collects defects. Here is what it means that none is
found, block by block and without lists of edges: a function is *wired*
(`BranchFusion.Func.Wired`) when its entry is live, its live blocks are terminated, their successors
are live and the predecessor lists count the edges; it is *valid* (`BranchFusion.Func.Valid`) when
moreover the phis have one input for each predecessor, values are defined once and are defined if
they are used, and every live block is reached.

`BranchFusion.Func.defects_eq_nil_iff` says that the verifier decides validity. Passes are reasoned
about through the fields of `Valid` only.

That is for functions with all their values. Where values may be missing, the checks of the verifier
are the same (`BranchFusion.Func.defects_eq_nil_iff_checks`), but they go by references, and a
missing value passes if it is missing where it would have to be defined as well.
-/

namespace BranchFusion

/-- An instruction that has all its values defines its result. -/
theorem Instr.defined_eq (i : Instr) : i.defined = i.result?.toList.map some := by
  cases i <;> rfl

/-- A block that has all its values defines them. -/
theorem Block.defined_eq (bb : Block) : bb.defined = bb.definitions.map some := by
  rw [defined, definitions, List.map_append, List.map_map, List.filterMap_eq_flatMap_toList,
    List.map_flatMap, List.flatMap_congr fun i _ => i.defined_eq]
  rfl

theorem Block.mem_defined {bb : Block} {u : Option Value} :
    u ∈ bb.defined ↔ ∃ v, u = some v ∧ v ∈ bb.definitions := by
  simp [defined_eq, eq_comm, and_comm]

namespace Func

variable {α β : Type} {fn : Func α} {b c p : BlockId}

/-- **A wired function**: its entry and its branches make sense, and the predecessor lists say what
the branches say, edge for edge. -/
structure Wired (fn : Func α) : Prop where
  entry : ∃ r, fn.root = some r ∧ fn.owns r
  terminated : ∀ b, fn.owns b → (fn.block b).term.isSome
  successors : ∀ a b, fn.owns a → fn.Edge a b → fn.owns b
  preds : ∀ b, fn.owns b → ∀ p, (fn.block b).preds.count p =
    if fn.owns p then (fn.successors p).count b else 0

/-- A value is a parameter, or defined in a live block. -/
def Defined (fn : Func) (v : Value) : Prop :=
  v ∈ fn.params ∨ ∃ d, fn.owns d ∧ v ∈ (fn.block d).definitions

/-- The values that a function defines were entered in its table. Values are told apart by their
numbers, and a new value gets the next number of the table; so all this says is that a new value is
none of those that are defined. -/
def Entered (fn : Func) : Prop :=
  ∀ v, fn.Defined v → v.func = fn.serial → v.id < fn.values.size

/-- **A valid function**: one without defects. -/
structure Valid (fn : Func) : Prop extends Wired fn where
  /-- A phi has an input for each predecessor, and no others. -/
  inputs : ∀ b, fn.owns b → ∀ p ∈ (fn.block b).phis, ∀ q,
    (p.input? q).isSome ↔ q ∈ (fn.block b).preds
  nodup_definitions : ∀ b, fn.owns b → (fn.block b).definitions.Nodup
  /-- Different blocks define different values. -/
  unique_site : ∀ b c v, fn.owns b → fn.owns c → v ∈ (fn.block b).definitions →
    v ∈ (fn.block c).definitions → b = c
  not_param : ∀ b v, fn.owns b → v ∈ (fn.block b).definitions → v ∉ fn.params
  /-- Every value that is used is there, and is defined. -/
  defined : ∀ b, fn.owns b → ∀ v ∈ (fn.block b).uses, ∃ w, v = some w ∧ fn.Defined w
  reached : ∀ b, fn.owns b → fn.Reaches b

theorem Wired.closed (h : fn.Wired) : fn.Closed := by
  obtain ⟨r, hr, hown⟩ := h.entry
  refine ⟨fun r' hr' => ?_, h.successors⟩
  obtain rfl : r = r' := by simpa [hr] using hr'
  exact hown

/-- The predecessors of a block are the live blocks with an edge to it. -/
theorem Wired.mem_preds_iff (h : fn.Wired) (hb : fn.owns b) :
    p ∈ (fn.block b).preds ↔ fn.owns p ∧ fn.Edge p b := by
  rw [← List.count_pos_iff, h.preds b hb p]
  by_cases hp : fn.owns p
  · simp [hp, Edge, List.count_pos_iff]
  · simp [hp]

/-! ### Branches -/

theorem hasEntry_iff : fn.hasEntry = true ↔ ∃ r, fn.root = some r ∧ fn.owns r := by
  simp only [hasEntry]
  cases fn.root with
  | none => simp
  | some r => simp

theorem termDefects_eq_nil_iff : fn.termDefects = [] ↔
    (∀ b, fn.owns b → (fn.block b).term.isSome) ∧
      ∀ a b, fn.owns a → fn.Edge a b → fn.owns b := by
  have hblock : ∀ b, ((if (fn.block b).term.isNone then [.notTerminated b]
      else ((fn.successors b).filter fun s => !fn.owns s).map (.foreignBranch b)) :
        List Defect) = [] ↔ (fn.block b).term.isSome ∧ ∀ s, fn.Edge b s → fn.owns s := by
    intro b
    split
    · next hnone => simp [Option.isNone_iff_eq_none.mp hnone]
    · next hsome =>
      simp [Edge, Option.isSome_iff_ne_none, List.filter_eq_nil_iff,
        Option.isNone_iff_eq_none.not.mp hsome]
  simp only [termDefects, List.flatMap_eq_nil_iff, mem_ids, hblock]
  exact ⟨fun h => ⟨fun b hb => (h b hb).1, fun a b ha => (h a ha).2 b⟩,
    fun h b hb => ⟨h.1 b hb, fun s => h.2 b s hb⟩⟩

/-! ### Predecessor lists -/

/-- In a list of lists, each tagged by a different key, a tagged entry occurs as often as in the
list of its tag. -/
theorem count_flatMap_tagged {ids : List BlockId} (hnodup : ids.Nodup)
    (f : BlockId → List BlockId) (g : BlockId → BlockId → BlockId × BlockId)
    (hg : ∀ a b x y, g a x = g b y → a = b ∧ x = y) (b x : BlockId) :
    (ids.flatMap fun a => (f a).map (g a)).count (g b x) =
      if b ∈ ids then (f b).count x else 0 := by
  induction ids with
  | nil => simp
  | cons a ids ih =>
    obtain ⟨ha, hnodup⟩ := List.nodup_cons.mp hnodup
    rw [List.flatMap_cons, List.count_append, ih hnodup]
    by_cases hab : b = a
    · subst hab
      have hinj : Function.Injective (g b) := fun x y h => (hg b b x y h).2
      simp [List.count_map_of_injective _ _ hinj, ha]
    · -- entries with another tag are not counted
      have hnone : ((f a).map (g a)).count (g b x) = 0 := by
        rw [List.count_eq_zero]
        intro hmem
        obtain ⟨y, -, hy⟩ := List.mem_map.mp hmem
        exact hab (hg a b y x hy).1.symm
      simp [hnone, hab]

theorem count_liveEdges : fn.liveEdges.count (p, b) =
    if fn.owns p ∧ fn.owns b then (fn.successors p).count b else 0 := by
  have h := count_flatMap_tagged fn.nodup_ids (fun a => (fn.successors a).filter fn.owns)
    (fun a s => (a, s)) (fun _ _ _ _ h => by simpa using h) p b
  rw [liveEdges, h]
  simp only [mem_ids]
  by_cases hp : fn.owns p
  · by_cases hb : fn.owns b
    · simp [hp, hb, List.count_filter]
    · have hnone : ((fn.successors p).filter fn.owns).count b = 0 := by
        rw [List.count_eq_zero]
        simp [hb]
      simp [hp, hb, hnone]
  · simp [hp]

theorem count_predEntries : fn.predEntries.count (p, b) =
    if fn.owns b then (fn.block b).preds.count p else 0 := by
  have h := count_flatMap_tagged fn.nodup_ids (fun a => (fn.block a).preds)
    (fun a q => (q, a)) (fun _ _ _ _ h => by simpa [and_comm] using h) b p
  rw [predEntries, h]
  simp only [mem_ids]

theorem edgeDefects_eq_nil_iff : fn.edgeDefects = [] ↔
    ∀ e, fn.predEntries.count e = fn.liveEdges.count e := by
  simp only [edgeDefects, List.append_eq_nil_iff, List.filterMap_eq_nil_iff, List.mem_eraseDups]
  constructor
  · rintro ⟨hedges, hentries⟩ e
    by_cases he : e ∈ fn.liveEdges
    · by_contra hne
      have := hedges e he
      simp [hne] at this
    · have hnot : e ∉ fn.predEntries := fun hmem => by
        have := hentries e hmem
        simp [he] at this
      rw [List.count_eq_zero.mpr he, List.count_eq_zero.mpr hnot]
  · intro h
    refine ⟨fun e _ => by simp [h e], fun e he => ?_⟩
    have hpos : 0 < fn.liveEdges.count e := h e ▸ List.count_pos_iff.mpr he
    simp [List.count_pos_iff.mp hpos]

/-- The predecessor lists are right if they count the edges of each pair of blocks. -/
theorem edgeDefects_eq_nil_iff_count :
    fn.edgeDefects = [] ↔ ∀ b, fn.owns b → ∀ p, (fn.block b).preds.count p =
      if fn.owns p then (fn.successors p).count b else 0 := by
  rw [edgeDefects_eq_nil_iff]
  constructor
  · intro h b hb p
    have := h (p, b)
    rw [count_predEntries, count_liveEdges, if_pos hb] at this
    rw [this]
    simp [hb]
  · rintro h ⟨p, b⟩
    rw [count_predEntries, count_liveEdges]
    by_cases hb : fn.owns b
    · rw [if_pos hb, h b hb p]
      simp [hb]
    · simp [hb]

/-! ### Phis -/

theorem phiDefects_eq_nil_iff [Reference α] : fn.phiDefects = [] ↔
    ∀ b, fn.owns b → ∀ p ∈ (fn.block b).phis, ∀ q,
      (p.input? q).isSome ↔ q ∈ (fn.block b).preds := by
  simp only [phiDefects, List.flatMap_eq_nil_iff, mem_ids, List.append_eq_nil_iff,
    List.map_eq_nil_iff, List.filter_eq_nil_iff]
  refine forall₄_congr fun b _ p _ => ?_
  simp only [Phi.input?, Table.isSome_get?_iff, Table.has_iff, Bool.not_eq_true',
    ← Bool.not_eq_true, not_not, List.contains_iff_mem]
  exact ⟨fun h q => ⟨h.1 q, h.2 q⟩, fun h => ⟨fun q => (h q).mp, fun q => (h q).mpr⟩⟩

/-! ### Values -/

theorem repeated_eq_nil_iff :
    ∀ {sites : List (BlockId × Option Value)} {seen : List (Option Value)},
    repeated seen sites = [] ↔
      (sites.map Prod.snd).Nodup ∧ ∀ u ∈ sites.map Prod.snd, u ∉ seen
  | [], seen => by simp [repeated]
  | (b, u) :: sites, seen => by
    rw [repeated]
    split
    · next hmem => simp [List.contains_iff_mem.mp hmem]
    · next hmem =>
      have hu : u ∉ seen := fun h => hmem (List.contains_iff_mem.mpr h)
      rw [repeated_eq_nil_iff, List.map_cons, List.nodup_cons]
      constructor
      · rintro ⟨hnodup, hall⟩
        refine ⟨⟨fun h => hall u h (by simp), hnodup⟩, fun w hw => ?_⟩
        rcases List.mem_cons.mp hw with rfl | hw
        · exact hu
        · exact fun h => hall w hw (by simp [h])
      · rintro ⟨⟨hnew, hnodup⟩, hall⟩
        refine ⟨hnodup, fun w hw h => ?_⟩
        rcases List.mem_cons.mp h with rfl | h
        · exact hnew hw
        · exact hall w (by simp [hw]) h

/-- What live blocks hold is different if it is different in each of them and in any two. -/
theorem nodup_flatMap_ids_iff {f : BlockId → List β} : (fn.ids.flatMap f).Nodup ↔
    (∀ b, fn.owns b → (f b).Nodup) ∧
      ∀ b c x, fn.owns b → fn.owns c → x ∈ f b → x ∈ f c → b = c := by
  rw [List.nodup_flatMap]
  simp only [mem_ids]
  refine and_congr_right fun _ => ⟨fun h b c x hb hc hxb hxc => ?_, fun h => ?_⟩
  · by_contra hne
    have hsymm : Std.Symm (Function.onFun List.Disjoint f) := ⟨fun _ _ hd _ hx hy => hd hy hx⟩
    exact h.forall (mem_ids.mpr hb) (mem_ids.mpr hc) hne hxb hxc
  · refine fn.nodup_ids.pairwise_of_forall_ne fun b hb c hc hne x hxb hxc => ?_
    exact hne (h b c x (mem_ids.mp hb) (mem_ids.mp hc) hxb hxc)

/-- The same, place by place: what stands at two places of live blocks stands at one. -/
theorem nodup_flatMap_ids_iff_place {f : BlockId → List β} : (fn.ids.flatMap f).Nodup ↔
    ∀ b c (i j : Nat) x, fn.owns b → fn.owns c → (f b)[i]? = some x → (f c)[j]? = some x →
      b = c ∧ i = j := by
  rw [nodup_flatMap_ids_iff]
  constructor
  · rintro ⟨hnodup, hunique⟩ b c i j x hb hc hi hj
    obtain rfl := hunique b c x hb hc (List.mem_of_getElem? hi) (List.mem_of_getElem? hj)
    have hlt : i < (f b).length := by
      by_contra hge
      exact absurd hi (by simp [List.getElem?_eq_none (Nat.le_of_not_lt hge)])
    exact ⟨rfl, List.getElem?_inj hlt (hnodup b hb) |>.mp (hi.trans hj.symm)⟩
  · intro h
    refine ⟨fun b hb => ?_, fun b c x hb hc hxb hxc => ?_⟩
    · refine List.nodup_iff_getElem?_ne_getElem?.mpr fun i j hij hj heq => ?_
      have hx := List.getElem?_eq_getElem hj
      exact absurd (h b b i j _ hb hb (heq.trans hx) hx).2 (Nat.ne_of_lt hij)
    · obtain ⟨i, hi⟩ := List.mem_iff_getElem?.mp hxb
      obtain ⟨j, hj⟩ := List.mem_iff_getElem?.mp hxc
      exact (h b c i j x hb hc hi hj).1

section References

variable [Reference α] {u : Option Value}

theorem map_snd_definitionSites : fn.definitionSites.map Prod.snd =
    fn.ids.flatMap fun b => (fn.block b).defined := by
  simp [definitionSites, List.map_flatMap, Function.comp_def]

theorem isDefined_iff : fn.isDefined u = true ↔
    u ∈ fn.paramRefs ∨ ∃ d, fn.owns d ∧ u ∈ (fn.block d).defined := by
  simp only [isDefined, Bool.or_eq_true, List.contains_iff_mem, map_snd_definitionSites,
    List.mem_flatMap, mem_ids]

/-- The values that are used, as keys of a table. -/
theorem mem_keys_useSites : u ∈ fn.useSites.keys ↔ ∃ b, fn.owns b ∧ u ∈ (fn.block b).uses := by
  rw [useSites, Table.mem_keys_sites]
  simp [Table.keys]

/-- **What the verifier makes of values**: it goes by references, and takes a missing value for a
value. -/
theorem valueDefects_eq_nil_iff : fn.valueDefects = [] ↔
    ((fn.ids.flatMap fun b => (fn.block b).defined).Nodup ∧
      ∀ b u, fn.owns b → u ∈ (fn.block b).defined → u ∉ fn.paramRefs) ∧
    ∀ b, fn.owns b → ∀ u ∈ (fn.block b).uses,
      u ∈ fn.paramRefs ∨ ∃ d, fn.owns d ∧ u ∈ (fn.block d).defined := by
  simp only [valueDefects, List.append_eq_nil_iff, List.map_eq_nil_iff, List.filter_eq_nil_iff]
  refine and_congr ?_ ?_
  · rw [repeated_eq_nil_iff, map_snd_definitionSites]
    simp only [List.mem_flatMap, mem_ids]
    refine and_congr_right fun _ => ?_
    constructor
    · intro h b u hb hu
      exact h u ⟨b, hb, hu⟩
    · rintro h u ⟨b, hb, hu⟩
      exact h b u hb hu
  · simp only [Bool.not_eq_true', ← Bool.not_eq_true, not_not, isDefined_iff]
    constructor
    · intro h b hb u hu
      obtain ⟨e, he, rfl⟩ := List.mem_map.mp (mem_keys_useSites.mpr ⟨b, hb, hu⟩)
      exact h e he
    · intro h e he
      obtain ⟨b, hb, hu⟩ := mem_keys_useSites.mp (List.mem_map_of_mem he)
      exact h b hb e.1 hu

end References

/-! ### The verifier -/

theorem unreachable_eq_nil_iff (hclosed : fn.Closed) :
    fn.unreachable = [] ↔ ∀ b, fn.owns b → fn.Reaches b := by
  simp only [unreachable, List.filter_eq_nil_iff, mem_ids, Bool.not_eq_true', ← Bool.not_eq_true,
    not_not, List.contains_iff_mem]
  exact forall₂_congr fun b hb => mem_reached_iff hclosed (func_of_owns hb)

/-- The wiring of a function shows in the first checks of the verifier. -/
theorem wired_iff :
    fn.Wired ↔ fn.hasEntry = true ∧ fn.termDefects = [] ∧ fn.edgeDefects = [] := by
  rw [hasEntry_iff, termDefects_eq_nil_iff, edgeDefects_eq_nil_iff_count]
  exact ⟨fun h => ⟨h.entry, ⟨h.terminated, h.successors⟩, h.preds⟩,
    fun ⟨he, ⟨ht, hs⟩, hp⟩ => ⟨he, ht, hs, hp⟩⟩

/-- **The checks of the verifier**, one by one: the wiring, the phis, the values, and the way from
the entry. -/
theorem defects_eq_nil_iff_checks [Reference α] : fn.defects = [] ↔
    fn.Wired ∧ (∀ b, fn.owns b → ∀ p ∈ (fn.block b).phis, ∀ q,
      (p.input? q).isSome ↔ q ∈ (fn.block b).preds) ∧
    fn.valueDefects = [] ∧ ∀ b, fn.owns b → fn.Reaches b := by
  rw [defects]
  split
  · next hentry =>
    simp only [List.append_eq_nil_iff, List.map_eq_nil_iff, phiDefects_eq_nil_iff]
    constructor
    · rintro ⟨⟨⟨⟨hterm, hedge⟩, hphi⟩, hvalues⟩, hreach⟩
      have hw : fn.Wired := wired_iff.mpr ⟨hentry, hterm, hedge⟩
      exact ⟨hw, hphi, hvalues, (unreachable_eq_nil_iff hw.closed).mp hreach⟩
    · rintro ⟨hw, hphi, hvalues, hreach⟩
      obtain ⟨-, hterm, hedge⟩ := wired_iff.mp hw
      exact ⟨⟨⟨⟨hterm, hedge⟩, hphi⟩, hvalues⟩, (unreachable_eq_nil_iff hw.closed).mpr hreach⟩
  · next hentry =>
    refine ⟨fun h => absurd h (by simp), fun h => absurd ?_ hentry⟩
    exact (wired_iff.mp h.1).1

/-! ### Functions with all their values -/

section Values

variable {fn : Func}

theorem mem_paramRefs {u : Option Value} : u ∈ fn.paramRefs ↔ ∃ v, u = some v ∧ v ∈ fn.params := by
  simp [paramRefs, eq_comm, and_comm]

/-- A missing value is not defined. -/
theorem defined_iff_of_values {u : Option Value} :
    (u ∈ fn.paramRefs ∨ ∃ d, fn.owns d ∧ u ∈ (fn.block d).defined) ↔
      ∃ v, u = some v ∧ fn.Defined v := by
  simp only [mem_paramRefs, Block.mem_defined, Defined]
  constructor
  · rintro (⟨v, hu, hv⟩ | ⟨d, hd, v, hu, hv⟩)
    · exact ⟨v, hu, Or.inl hv⟩
    · exact ⟨v, hu, Or.inr ⟨d, hd, hv⟩⟩
  · rintro ⟨v, hu, hv | ⟨d, hd, hv⟩⟩
    · exact Or.inl ⟨v, hu, hv⟩
    · exact Or.inr ⟨d, hd, v, hu, hv⟩

theorem valueDefects_eq_nil_iff_values : fn.valueDefects = [] ↔
    ((fn.ids.flatMap fun b => (fn.block b).definitions).Nodup ∧
      ∀ b v, fn.owns b → v ∈ (fn.block b).definitions → v ∉ fn.params) ∧
    ∀ b, fn.owns b → ∀ u ∈ (fn.block b).uses, ∃ v, u = some v ∧ fn.Defined v := by
  have hnodup : (fn.ids.flatMap fun b => (fn.block b).defined).Nodup ↔
      (fn.ids.flatMap fun b => (fn.block b).definitions).Nodup := by
    simp only [Block.defined_eq, ← List.map_flatMap]
    exact List.nodup_map_iff fun _ _ h => Option.some.inj h
  simp only [valueDefects_eq_nil_iff, defined_iff_of_values, hnodup]
  refine and_congr_left fun _ => and_congr_right fun _ => ⟨fun h b v hb hv hp => ?_, ?_⟩
  · exact h b (some v) hb (Block.mem_defined.mpr ⟨v, rfl, hv⟩) (mem_paramRefs.mpr ⟨v, rfl, hp⟩)
  · intro h b u hb hu hp
    obtain ⟨v, rfl, hv⟩ := Block.mem_defined.mp hu
    obtain ⟨w, hw, hp⟩ := mem_paramRefs.mp hp
    obtain rfl := Option.some.inj hw
    exact h b v hb hv hp

/-- **The verifier decides validity.** -/
theorem defects_eq_nil_iff : fn.defects = [] ↔ fn.Valid := by
  rw [defects_eq_nil_iff_checks, valueDefects_eq_nil_iff_values, nodup_flatMap_ids_iff]
  constructor
  · rintro ⟨hw, hphi, ⟨⟨⟨hnodup, hunique⟩, hparam⟩, hdef⟩, hreach⟩
    exact ⟨hw, hphi, hnodup, hunique, hparam, hdef, hreach⟩
  · intro h
    exact ⟨h.toWired, h.inputs, ⟨⟨⟨h.nodup_definitions, h.unique_site⟩, h.not_param⟩, h.defined⟩,
      h.reached⟩

/-! ### Functions that are wired and define what they use -/

theorem kind_of_mem_phiDefects {d : Defect} (h : d ∈ fn.phiDefects) :
    ∃ b r p, d = .strayInput b (some r) p ∨ d = .missingInput b (some r) p := by
  obtain ⟨b, -, h⟩ := List.mem_flatMap.mp h
  obtain ⟨phi, -, h⟩ := List.mem_flatMap.mp h
  rcases List.mem_append.mp h with h | h
  · obtain ⟨q, -, rfl⟩ := List.mem_map.mp h
    exact ⟨b, phi.result, q, Or.inl rfl⟩
  · obtain ⟨q, -, rfl⟩ := List.mem_map.mp h
    exact ⟨b, phi.result, q, Or.inr rfl⟩

/-- Of a function that is wired and defines what it uses, once, the verifier finds fault only with
the inputs of phis and with blocks that are not reached. -/
theorem defects_of_wired (hwired : fn.Wired) (hvalues : fn.valueDefects = []) :
    fn.defects = fn.phiDefects ++ fn.unreachable.map .unreachable := by
  obtain ⟨hentry, hterm, hedge⟩ := wired_iff.mp hwired
  rw [defects, if_pos hentry, hterm, hedge, hvalues]
  simp

end Values

/-! ### Missing values -/

/-- **The verifier is sound and complete** for its specification, written out, whatever is missing
in a function. It finds no defect exactly if

* the entry is a live block, and every live block has a terminator;
* every successor of a live block is live, and the entries of the predecessor lists of live blocks
  are the edges, counted;
* the inputs of a phi are for the predecessors of its block;
* nothing is defined at two places of live blocks, or at one and as a parameter;
* everything that is used in a live block is a parameter or defined in a live block;
* every live block is reached from the entry.

A missing value counts as a value, which is defined where a result or a parameter is missing. An
entry or an input for a block that is missing is one for a block that is not live. -/
theorem verifier_finds_nothing_iff [Reference α] : fn.defects = [] ↔
    (∃ r, fn.root = some r ∧ fn.owns r) ∧
    (∀ b, fn.owns b → ∃ t, (fn.block b).term = some t) ∧
    (∀ a b, fn.owns a → b ∈ fn.successors a → fn.owns b) ∧
    (∀ p b, fn.owns b → (fn.block b).preds.count p =
      if fn.owns p then (fn.successors p).count b else 0) ∧
    (∀ b, fn.owns b → ∀ p ∈ (fn.block b).phis, ∀ q,
      q ∈ p.inputs.keys ↔ q ∈ (fn.block b).preds) ∧
    (∀ b c (i j : Nat) u, fn.owns b → fn.owns c → (fn.block b).defined[i]? = some u →
      (fn.block c).defined[j]? = some u → b = c ∧ i = j) ∧
    (∀ b u, fn.owns b → u ∈ (fn.block b).defined → u ∉ fn.paramRefs) ∧
    (∀ b, fn.owns b → ∀ u ∈ (fn.block b).uses,
      u ∈ fn.paramRefs ∨ ∃ d, fn.owns d ∧ u ∈ (fn.block d).defined) ∧
    ∀ b, fn.owns b → ∃ r, fn.root = some r ∧
      Relation.ReflTransGen (fun x y => y ∈ fn.successors x) r b := by
  rw [defects_eq_nil_iff_checks, valueDefects_eq_nil_iff, nodup_flatMap_ids_iff_place]
  simp only [← Option.isSome_iff_exists, ← Table.isSome_get?_iff]
  constructor
  · rintro ⟨hw, hinputs, ⟨⟨hplace, hparam⟩, hdef⟩, hreach⟩
    exact ⟨hw.entry, hw.terminated, hw.successors, fun p b hb => hw.preds b hb p, hinputs, hplace,
      hparam, hdef, hreach⟩
  · rintro ⟨hentry, hterm, hsucc, hpreds, hinputs, hplace, hparam, hdef, hreach⟩
    exact ⟨⟨hentry, hterm, hsucc, fun b hb p => hpreds p b hb⟩, hinputs,
      ⟨⟨hplace, hparam⟩, hdef⟩, hreach⟩

/-- A constant without a result, and the return of a value that is missing too. -/
def hollow : Func (Option Value) where
  serial := 0
  name := "hollow"
  root := some ⟨0, 0⟩
  blocks := #[{ label := "a", instrs := [.const none 1], term := some (.ret [none]) }]

/-- A value that was defined in a block that has been removed, and is defined anew. -/
def leftover : Func where
  serial := 0
  name := "leftover"
  root := some ⟨0, 0⟩
  blocks := #[{ label := "a", instrs := [.const ⟨0, 0, "x"⟩ 2], term := some (.ret []) },
    { label := "b", instrs := [.const ⟨0, 0, "x"⟩ 1], live := false }]
  values := #[⟨0, 0, "x"⟩]

/-- So the verifier finds nothing wrong with the use of a missing value if a result is missing as
well, nor with a second definition if the block of the first has been removed. -/
theorem defects_hollow_leftover :
    (hollow.defects = [] ∧ hollow.owns ⟨0, 0⟩ ∧ none ∈ (hollow.block ⟨0, 0⟩).uses) ∧
      leftover.defects = [] ∧ (leftover.block ⟨0, 0⟩).definitions = [⟨0, 0, "x"⟩] ∧
        (leftover.block ⟨0, 1⟩).definitions = [⟨0, 0, "x"⟩] := by
  decide

end Func

end BranchFusion
