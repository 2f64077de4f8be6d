import BranchFusion.Proofs.Validity
import Mathlib.Algebra.BigOperators.Group.List.Basic
import Mathlib.Algebra.GroupWithZero.Nat

/-!
# Well-built functions

The verifier rejects functions that can be read: blocks that nothing leads to, and phis that
disagree with the predecessors of their block. What holds of such functions too is that they are
*well built* (`BranchFusion.Func.WellBuilt`): they are wired, define no value twice, and have
entered the values that they define; and the tables in them, the inputs of phis and the cases of
switches, are sorted. This is all that passes need in order not to fail.

Two things are collected over the live blocks of a function, the values that are defined
(`BranchFusion.Func.definedValues`) and the measure (`BranchFusion.Func.measure`). Edits change one
block, or lead from one block to its heir; what that does to such a collection is said here for the
list of live blocks, up to order (`BranchFusion.Func.exists_ids_perm` and
`BranchFusion.Func.exists_ids_perm_removed`).
-/

namespace BranchFusion

namespace Func

variable {fn fn' : Func} {b m : BlockId} {v : Value} {extra : List Value}

/-! ### All definitions -/

/-- **All values that a function defines**: its parameters, and the definitions of its live
blocks. -/
def definedValues (fn : Func) : List Value :=
  fn.params ++ fn.ids.flatMap fun b => (fn.block b).definitions

theorem mem_definedValues : v ∈ fn.definedValues ↔ fn.Defined v := by
  simp [definedValues, Defined]

/-- The tables of a function are sorted: a table stands for a finite map, and sorted tables with the
same entries are equal. -/
structure Sorted (fn : Func) : Prop where
  phi : ∀ b, fn.owns b → ∀ p ∈ (fn.block b).phis, p.Ordered
  term : ∀ b, fn.owns b → ∀ t, (fn.block b).term = some t → t.Ordered

/-- An edit that puts in sorted tables only keeps the others sorted. -/
theorem Sorted.of_blocks (h : fn.Sorted)
    (hphi : ∀ b, fn'.owns b → ∀ p ∈ (fn'.block b).phis,
      p.Ordered ∨ fn.owns b ∧ p ∈ (fn.block b).phis)
    (hterm : ∀ b, fn'.owns b → ∀ t, (fn'.block b).term = some t →
      t.Ordered ∨ fn.owns b ∧ (fn.block b).term = some t) : fn'.Sorted := by
  refine ⟨fun b hb p hp => ?_, fun b hb t ht => ?_⟩
  · rcases hphi b hb p hp with hp | ⟨hb, hp⟩
    · exact hp
    · exact h.phi b hb p hp
  · rcases hterm b hb t ht with ht | ⟨hb, ht⟩
    · exact ht
    · exact h.term b hb t ht

/-- **A well-built function**: it is wired, defines no value twice, has entered its values, and its
tables are sorted. -/
structure WellBuilt (fn : Func) : Prop extends Wired fn where
  nodup : fn.definedValues.Nodup
  entered : fn.Entered
  sorted : fn.Sorted

/-- Different blocks define different values. -/
theorem WellBuilt.unique_site (h : fn.WellBuilt) {c : BlockId} (hb : fn.owns b) (hc : fn.owns c)
    (hvb : v ∈ (fn.block b).definitions) (hvc : v ∈ (fn.block c).definitions) : b = c := by
  have hnodup := (List.nodup_append.mp h.nodup).2.1
  exact (nodup_flatMap_ids_iff.mp hnodup).2 b c v hb hc hvb hvc

/-- What a function defines after an edit was entered, if what it defined before was entered and so
was what the edit adds. -/
theorem Entered.of_perm (h : fn.Entered) (hserial : fn'.serial = fn.serial)
    (hsize : fn.values.size ≤ fn'.values.size)
    (hperm : fn'.definedValues.Perm (extra ++ fn.definedValues))
    (hextra : ∀ v ∈ extra, v.id < fn'.values.size) : fn'.Entered := by
  intro v hv hfunc
  rw [← mem_definedValues, hperm.mem_iff, List.mem_append, mem_definedValues] at hv
  rcases hv with hv | hv
  · exact hextra v hv
  · exact Nat.lt_of_lt_of_le (h v hv (hfunc.trans hserial)) hsize

/-! ### The live blocks, up to order -/

/-- A live block, and the others. -/
theorem exists_ids_perm (hb : fn.owns b) :
    ∃ rest, fn.ids.Perm (b :: rest) ∧ ∀ x ∈ rest, fn.owns x ∧ x ≠ b := by
  refine ⟨fn.ids.erase b, List.perm_cons_erase (mem_ids.mpr hb), fun x hx => ?_⟩
  obtain ⟨hne, hmem⟩ := (fn.nodup_ids.mem_erase_iff).mp hx
  exact ⟨mem_ids.mp hmem, hne⟩

/-- **The live blocks before and after one is removed**: with another live block set apart, the
others are the same. -/
theorem exists_ids_perm_removed (hb : fn.owns b) (hm : fn.owns m) (hne : b ≠ m)
    (howns : ∀ x, fn'.owns x ↔ fn.owns x ∧ x ≠ m) :
    ∃ rest, fn.ids.Perm (b :: m :: rest) ∧ fn'.ids.Perm (b :: rest) ∧
      ∀ x ∈ rest, fn.owns x ∧ x ≠ b ∧ x ≠ m := by
  obtain ⟨rest, hperm, hrest⟩ := exists_ids_perm hb
  have hnodup : (b :: rest).Nodup := hperm.nodup_iff.mp fn.nodup_ids
  have hmem : m ∈ rest := by
    have hmids : m ∈ b :: rest := hperm.mem_iff.mp (mem_ids.mpr hm)
    exact (List.mem_cons.mp hmids).resolve_left (Ne.symm hne)
  have hcons := List.perm_cons_erase hmem
  have hnodup' : (m :: rest.erase m).Nodup := hcons.nodup_iff.mp (List.nodup_cons.mp hnodup).2
  have hleft : ∀ x ∈ rest.erase m, fn.owns x ∧ x ≠ b ∧ x ≠ m := fun x hx =>
    ⟨(hrest x (List.mem_of_mem_erase hx)).1, (hrest x (List.mem_of_mem_erase hx)).2,
      fun hxm => (List.nodup_cons.mp hnodup').1 (hxm ▸ hx)⟩
  refine ⟨rest.erase m, hperm.trans (hcons.cons b), ?_, hleft⟩
  refine (List.perm_ext_iff_of_nodup fn'.nodup_ids ?_).mpr fun x => ?_
  · exact List.nodup_cons.mpr ⟨fun h => (hleft b h).2.1 rfl, (List.nodup_cons.mp hnodup').2⟩
  · rw [mem_ids, howns, ← mem_ids, hperm.mem_iff, List.mem_cons, List.mem_cons]
    constructor
    · rintro ⟨rfl | hx, hxm⟩
      · exact Or.inl rfl
      · exact Or.inr ((List.mem_erase_of_ne hxm).mpr hx)
    · rintro (rfl | hx)
      · exact ⟨Or.inl rfl, hne⟩
      · exact ⟨Or.inr (List.mem_of_mem_erase hx), (hleft x hx).2.2⟩

theorem length_ids_of_removed (hb : fn.owns b) (hm : fn.owns m) (hne : b ≠ m)
    (howns : ∀ x, fn'.owns x ↔ fn.owns x ∧ x ≠ m) : fn'.ids.length + 1 = fn.ids.length := by
  obtain ⟨rest, hperm, hperm', -⟩ := exists_ids_perm_removed hb hm hne howns
  rw [hperm.length_eq, hperm'.length_eq]
  rfl

/-- The parameters make no difference to how definitions are added. -/
theorem definedValues_perm (hparams : fn'.params = fn.params)
    (h : (fn'.ids.flatMap fun x => (fn'.block x).definitions).Perm
      (extra ++ fn.ids.flatMap fun x => (fn.block x).definitions)) :
    fn'.definedValues.Perm (extra ++ fn.definedValues) := by
  rw [definedValues, definedValues, hparams]
  refine (h.append_left _).trans ?_
  rw [← List.append_assoc, ← List.append_assoc]
  exact List.perm_append_comm.append_right _

/-- The definitions after one block got some more. -/
theorem definedValues_perm_of_block (hids : fn'.ids = fn.ids) (hparams : fn'.params = fn.params)
    (hb : fn.owns b)
    (hadd : (fn'.block b).definitions.Perm (extra ++ (fn.block b).definitions))
    (hrest : ∀ x, fn.owns x → x ≠ b → (fn'.block x).definitions = (fn.block x).definitions) :
    fn'.definedValues.Perm (extra ++ fn.definedValues) := by
  obtain ⟨rest, hperm, hne⟩ := exists_ids_perm hb
  have hsame : (rest.flatMap fun x => (fn'.block x).definitions) =
      rest.flatMap fun x => (fn.block x).definitions :=
    List.flatMap_congr fun x hx => hrest x (hne x hx).1 (hne x hx).2
  have hnew : (fn.ids.flatMap fun x => (fn'.block x).definitions).Perm
      (extra ++ fn.ids.flatMap fun x => (fn.block x).definitions) := by
    refine (hperm.flatMap_right _).trans ?_
    refine .trans ?_ ((hperm.flatMap_right fun x => (fn.block x).definitions).symm.append_left _)
    rw [List.flatMap_cons, List.flatMap_cons, hsame, ← List.append_assoc]
    exact hadd.append_right _
  exact definedValues_perm hparams (hids ▸ hnew)

/-- **The parts of a function after a block was led to its heir**: those there were, and what the
heir got on top. -/
theorem flatMap_perm_of_removed {α : Type} {parts parts' : BlockId → List α} (more : List α)
    (hb : fn.owns b) (hm : fn.owns m) (hne : b ≠ m)
    (howns : ∀ x, fn'.owns x ↔ fn.owns x ∧ x ≠ m)
    (hheir : parts' b = parts b ++ (parts m ++ more))
    (hrest : ∀ x, fn.owns x → x ≠ b → x ≠ m → parts' x = parts x) :
    (fn'.ids.flatMap parts').Perm (more ++ fn.ids.flatMap parts) := by
  obtain ⟨rest, hperm, hperm', hother⟩ := exists_ids_perm_removed hb hm hne howns
  have hsame : rest.flatMap parts' = rest.flatMap parts :=
    List.flatMap_congr fun x hx => hrest x (hother x hx).1 (hother x hx).2.1 (hother x hx).2.2
  refine (hperm'.flatMap_right _).trans ?_
  refine .trans ?_ ((hperm.flatMap_right parts).symm.append_left _)
  rw [List.flatMap_cons, List.flatMap_cons, List.flatMap_cons, hsame, hheir,
    ← List.append_assoc, ← List.append_assoc, ← List.append_assoc]
  refine List.Perm.append_right _ ?_
  rw [List.append_assoc more]
  exact List.perm_append_comm

/-- The definitions after a block was led to its heir. -/
theorem definedValues_perm_of_removed (hparams : fn'.params = fn.params) (hb : fn.owns b)
    (hm : fn.owns m) (hne : b ≠ m) (howns : ∀ x, fn'.owns x ↔ fn.owns x ∧ x ≠ m)
    (hheir : (fn'.block b).definitions =
      (fn.block b).definitions ++ ((fn.block m).definitions ++ extra))
    (hrest : ∀ x, fn.owns x → x ≠ b → x ≠ m →
      (fn'.block x).definitions = (fn.block x).definitions) :
    fn'.definedValues.Perm (extra ++ fn.definedValues) :=
  definedValues_perm hparams (flatMap_perm_of_removed extra hb hm hne howns hheir hrest)

/-! ### The measure -/

theorem measure_eq_sum : fn.measure = (fn.ids.map fun b => (fn.block b).size + 1).sum := by
  rw [measure]
  induction fn.ids with
  | nil => rfl
  | cons b bs ih => rw [List.foldr_cons, ih, List.map_cons, List.sum_cons]

/-- **The measure after a block was led to its heir**: of the two blocks only the heir counts. -/
theorem measure_of_removed (hb : fn.owns b) (hm : fn.owns m) (hne : b ≠ m)
    (howns : ∀ x, fn'.owns x ↔ fn.owns x ∧ x ≠ m)
    (hrest : ∀ x, fn.owns x → x ≠ b → x ≠ m → (fn'.block x).size = (fn.block x).size) :
    fn'.measure + (fn.block b).size + (fn.block m).size + 1 =
      fn.measure + (fn'.block b).size := by
  obtain ⟨rest, hperm, hperm', hother⟩ := exists_ids_perm_removed hb hm hne howns
  have hsame : (rest.map fun x => (fn'.block x).size + 1) =
      rest.map fun x => (fn.block x).size + 1 :=
    List.map_congr_left fun x hx =>
      congrArg (· + 1) (hrest x (hother x hx).1 (hother x hx).2.1 (hother x hx).2.2)
  rw [measure_eq_sum, measure_eq_sum, (hperm'.map _).sum_eq, (hperm.map _).sum_eq]
  simp only [List.map_cons, List.sum_cons, hsame]
  omega

end Func

end BranchFusion
