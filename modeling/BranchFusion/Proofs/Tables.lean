import BranchFusion.Block
import Mathlib.Tactic.ByContra

/-!
# What a table holds

A table is a list, and a look-up finds the first entry of a key. Two views of a table matter to
those who use it: what a look-up finds, which `BranchFusion.Table.get?_insert` and
`BranchFusion.Table.get?_erase` say, and which entries there are at all, which is said here. An
insertion adds no entry but its own, and an erasure adds none. A table that is filled by insertions
along an order is sorted (`BranchFusion.Table.Ordered`), and so has no key twice.

The inputs of a phi are such a table; what redirecting an edge does to them is
`BranchFusion.Phi.input?_moveInput`. The predecessors of a block are a plain list, in which a pass
changes one entry at a time; what counts there is how often each block occurs.
-/

namespace BranchFusion

namespace Table

variable {κ ι : Type} [DecidableEq κ] {t : Table κ ι} {k k' : κ} {x : ι}

theorem get?_set : (t.set k x).get? k' = if k = k' then some x else t.get? k' :=
  get?_insert _ _ _ _ _

theorem mem_of_get? (h : t.get? k = some x) : (k, x) ∈ t := by
  obtain ⟨e, he, rfl⟩ := Option.map_eq_some_iff.mp h
  have hk : e.1 = k := by simpa using List.find?_some he
  subst hk
  exact List.mem_of_find?_eq_some he

theorem isSome_get?_iff : (t.get? k).isSome ↔ k ∈ t.keys := by
  simp only [get?, Option.isSome_map, List.find?_isSome, keys, List.mem_map, decide_eq_true_eq]

theorem has_iff : t.has k = true ↔ (t.get? k).isSome := by
  rw [isSome_get?_iff]
  simp [has, keys]

theorem insert_ne_nil (precedes : κ → κ → Bool) (k : κ) (x : ι) (t : Table κ ι) :
    insert precedes k x t ≠ [] := by
  cases t with
  | nil => simp [insert]
  | cons e t =>
    rw [insert]
    split
    · simp
    · split <;> simp

/-- The entries after an insertion: the new one, and old ones. -/
theorem mem_insert {precedes : κ → κ → Bool} {e : κ × ι} (h : e ∈ insert precedes k x t) :
    e = (k, x) ∨ e ∈ t := by
  induction t with
  | nil => exact Or.inl (by simpa [insert] using h)
  | cons e' t ih =>
    obtain ⟨a, y⟩ := e'
    simp only [insert] at h
    split at h
    · rcases List.mem_cons.mp h with rfl | h
      · exact Or.inl rfl
      · exact Or.inr (List.mem_cons_of_mem _ h)
    · split at h
      · exact List.mem_cons.mp h
      · rcases List.mem_cons.mp h with rfl | h
        · exact Or.inr (List.mem_cons_self ..)
        · exact (ih h).imp_right (List.mem_cons_of_mem _)

/-- The keys after an insertion: the new one, and the old ones. -/
theorem mem_keys_set : k' ∈ (t.set k x).keys ↔ k = k' ∨ k' ∈ t.keys := by
  rw [← isSome_get?_iff, ← isSome_get?_iff, get?_set]
  by_cases h : k = k' <;> simp [h]

/-! ### Sorted tables -/

/-- An order on keys that tells any two of them apart. -/
structure StrictOrder (precedes : κ → κ → Bool) : Prop where
  irrefl : ∀ a, precedes a a = false
  trans : ∀ a b c, precedes a b = true → precedes b c = true → precedes a c = true
  total : ∀ a b, a ≠ b → precedes a b = false → precedes b a = true

/-- **A sorted table**: every key precedes those behind it. -/
def Ordered (precedes : κ → κ → Bool) (t : Table κ ι) : Prop :=
  t.Pairwise fun e f => precedes e.1 f.1 = true

variable {precedes : κ → κ → Bool}

theorem Ordered.insert (ho : StrictOrder precedes) (h : t.Ordered precedes) :
    Ordered precedes (Table.insert precedes k x t) := by
  induction t with
  | nil => exact List.pairwise_singleton _ _
  | cons e t ih =>
    obtain ⟨a, y⟩ := e
    obtain ⟨ha, ht⟩ := List.pairwise_cons.mp h
    rw [Table.insert]
    split
    · next hk =>
      subst hk
      exact List.pairwise_cons.mpr ⟨ha, ht⟩
    · next hk =>
      split
      · next hlt =>
        refine List.pairwise_cons.mpr ⟨fun f hf => ?_, h⟩
        rcases List.mem_cons.mp hf with rfl | hf
        · exact hlt
        · exact ho.trans _ _ _ hlt (ha f hf)
      · next hlt =>
        refine List.pairwise_cons.mpr ⟨fun f hf => ?_, ih ht⟩
        rcases mem_insert hf with rfl | hf
        · exact ho.total _ _ hk (by simpa using hlt)
        · exact ha f hf

/-- A key that all others precede goes to the end. -/
theorem insert_of_precedes (ho : StrictOrder precedes)
    (h : ∀ k' ∈ t.keys, precedes k' k = true) :
    Table.insert precedes k x t = t ++ [(k, x)] := by
  induction t with
  | nil => rfl
  | cons e t ih =>
    obtain ⟨a, y⟩ := e
    have ha : precedes a k = true := h a (by simp [keys])
    have hne : k ≠ a := by
      rintro rfl
      rw [ho.irrefl] at ha
      exact absurd ha (by simp)
    have hnot : ¬precedes k a = true := by
      intro hka
      have hself := ho.trans k a k hka ha
      rw [ho.irrefl] at hself
      exact absurd hself (by simp)
    rw [Table.insert, if_neg hne, if_neg hnot, List.cons_append]
    exact congrArg _ (ih fun k' hk' => h k' (List.mem_cons_of_mem a hk'))

theorem insert_comm_of_precedes (ho : StrictOrder precedes) {k₁ k₂ : κ}
    (hlt : precedes k₁ k₂ = true) (x₁ x₂ : ι) (t : Table κ ι) :
    Table.insert precedes k₂ x₂ (Table.insert precedes k₁ x₁ t) =
      Table.insert precedes k₁ x₁ (Table.insert precedes k₂ x₂ t) := by
  have hne : k₁ ≠ k₂ := by
    rintro rfl
    rw [ho.irrefl] at hlt
    exact absurd hlt (by simp)
  have hnot : precedes k₂ k₁ = false := by
    by_contra hgt
    have hself := ho.trans k₁ k₂ k₁ hlt (by simpa using hgt)
    rw [ho.irrefl] at hself
    exact absurd hself (by simp)
  induction t with
  | nil => simp [Table.insert, hne, hne.symm, hlt, hnot]
  | cons e t ih =>
    obtain ⟨a, y⟩ := e
    by_cases h₁ : k₁ = a
    · subst h₁
      simp [Table.insert, hne.symm, hnot]
    · by_cases h₂ : k₂ = a
      · subst h₂
        simp [Table.insert, hne, hne.symm, hlt, hnot]
      · by_cases hp₁ : precedes k₁ a = true
        · by_cases hp₂ : precedes k₂ a = true
          · simp [Table.insert, hne, hne.symm, hlt, hnot, h₁, h₂, hp₁, hp₂]
          · simp [Table.insert, hne.symm, hnot, h₁, h₂, hp₁, hp₂]
        · -- a place in front of which the smaller key does not go is none for the greater one
          have hp₂ : ¬precedes k₂ a = true := fun h => hp₁ (ho.trans k₁ k₂ a hlt h)
          simp [Table.insert, h₁, h₂, hp₁, hp₂, ih]

/-- **Insertions under different keys may come in any order.** -/
theorem insert_comm (ho : StrictOrder precedes) {k₁ k₂ : κ} (hne : k₁ ≠ k₂) (x₁ x₂ : ι)
    (t : Table κ ι) : Table.insert precedes k₂ x₂ (Table.insert precedes k₁ x₁ t) =
      Table.insert precedes k₁ x₁ (Table.insert precedes k₂ x₂ t) := by
  cases hlt : precedes k₁ k₂ with
  | true => exact insert_comm_of_precedes ho hlt x₁ x₂ t
  | false => exact (insert_comm_of_precedes ho (ho.total k₁ k₂ hne hlt) x₂ x₁ t).symm

theorem Ordered.erase (h : t.Ordered precedes) : Ordered precedes (t.erase k) :=
  List.Pairwise.filter _ h

/-! ### Tables of sites

The table that tells for each key one of the places that list it. -/

theorem mem_keys_setAll (ks : List κ) : ∀ t : Table κ ι,
    k ∈ (ks.foldl (fun t a => t.set a x) t).keys ↔ k ∈ ks ∨ k ∈ t.keys := by
  induction ks with
  | nil => simp
  | cons a ks ih =>
    intro t
    rw [List.foldl_cons, ih, mem_keys_set, List.mem_cons, eq_comm (a := a), ← or_assoc,
      or_comm (a := k ∈ ks)]

theorem get?_setAll {y : ι} (ks : List κ) : ∀ t : Table κ ι,
    (ks.foldl (fun t a => t.set a x) t).get? k = some y → y = x ∧ k ∈ ks ∨ t.get? k = some y := by
  induction ks with
  | nil => exact fun t ht => Or.inr ht
  | cons a ks ih =>
    intro t ht
    rcases ih _ ht with ⟨hy, hmem⟩ | ht
    · exact Or.inl ⟨hy, List.mem_cons_of_mem a hmem⟩
    · rw [get?_set] at ht
      split at ht
      · next ha => exact Or.inl ⟨(Option.some.inj ht).symm, by simp [ha]⟩
      · exact Or.inr ht

theorem mem_keys_sites {f : ι → List κ} (xs : List ι) : ∀ t : Table κ ι,
    k ∈ (xs.foldl (fun t x => (f x).foldl (fun t a => t.set a x) t) t).keys ↔
      (∃ x ∈ xs, k ∈ f x) ∨ k ∈ t.keys := by
  induction xs with
  | nil => simp
  | cons x xs ih =>
    intro t
    rw [List.foldl_cons, ih, mem_keys_setAll, ← or_assoc]
    simp only [List.mem_cons, exists_eq_or_imp]
    rw [or_comm (a := k ∈ f x)]

/-- A place that is found for a key lists it. -/
theorem get?_sites {f : ι → List κ} {y : ι} (xs : List ι) : ∀ t : Table κ ι,
    (xs.foldl (fun t x => (f x).foldl (fun t a => t.set a x) t) t).get? k = some y →
      y ∈ xs ∧ k ∈ f y ∨ t.get? k = some y := by
  induction xs with
  | nil => exact fun t ht => Or.inr ht
  | cons x xs ih =>
    intro t ht
    rcases ih _ ht with ⟨hy, hmem⟩ | ht
    · exact Or.inl ⟨List.mem_cons_of_mem x hy, hmem⟩
    · rcases get?_setAll (f x) t ht with ⟨rfl, hmem⟩ | ht
      · exact Or.inl ⟨List.mem_cons_self .., hmem⟩
      · exact Or.inr ht

end Table

theorem BlockId.strictOrder_precedes : Table.StrictOrder BlockId.precedes where
  irrefl a := by simp [BlockId.precedes]
  trans a b c := by
    simp only [BlockId.precedes, Bool.or_eq_true, Bool.and_eq_true, decide_eq_true_eq, beq_iff_eq]
    omega
  total a b hne h := by
    obtain ⟨s, i⟩ := a
    obtain ⟨t, j⟩ := b
    have hne' : ¬(s = t ∧ i = j) := fun ⟨hs, hi⟩ => hne (by rw [hs, hi])
    simp only [BlockId.precedes, Bool.or_eq_false_iff, Bool.and_eq_false_iff,
      decide_eq_false_iff_not, beq_eq_false_iff_ne] at h
    simp only [BlockId.precedes, Bool.or_eq_true, Bool.and_eq_true, decide_eq_true_eq, beq_iff_eq]
    omega

theorem strictOrder_words : Table.StrictOrder fun x y : Int64 => decide (x < y) where
  irrefl a := by simp
  trans a b c := by
    simp only [decide_eq_true_eq]
    exact Int64.lt_trans
  total a b hne h := by
    simp only [decide_eq_false_iff_not, decide_eq_true_eq] at h ⊢
    exact Int64.lt_of_le_of_ne (Int64.not_lt.mp h) (Ne.symm hne)

/-- The cases of a switch are sorted. -/
def Terminator.Ordered : Terminator → Prop
  | .switch _ _ cases => Table.Ordered (fun x y => decide (x < y)) cases
  | _ => True

instance : DecidablePred Terminator.Ordered
  | .switch _ _ cases => inferInstanceAs (Decidable (List.Pairwise _ cases))
  | .jump _ | .branch .. | .ret _ => inferInstanceAs (Decidable True)

namespace Phi

variable {p : Phi} {b q old new : BlockId} {v : Option Value}

/-- The inputs of a phi are sorted. -/
def Ordered (p : Phi) : Prop := p.inputs.Ordered BlockId.precedes

instance : DecidablePred Phi.Ordered := fun p =>
  inferInstanceAs (Decidable (List.Pairwise _ p.inputs))

theorem Ordered.setInput (h : p.Ordered) : (p.setInput b v).Ordered :=
  Table.Ordered.insert BlockId.strictOrder_precedes h

theorem Ordered.dropInput (h : p.Ordered) : (p.dropInput b).Ordered := Table.Ordered.erase h

theorem Ordered.moveInput (h : p.Ordered) : (p.moveInput old new).Ordered :=
  h.setInput.dropInput

theorem input?_setInput : (p.setInput b v).input? q = if b = q then some v else p.input? q :=
  Table.get?_insert _ _ _ _ _

theorem input?_dropInput : (p.dropInput b).input? q = if b = q then none else p.input? q :=
  Table.get?_erase _ _ _

/-- **Redirecting an edge**: what came from `old` comes from `new`. -/
theorem input?_moveInput : (p.moveInput old new).input? q =
    if old = q then none else if new = q then some (p.valueFrom old) else p.input? q := by
  rw [moveInput, input?_dropInput, input?_setInput]

/-- An input that is there is the value read. -/
theorem input?_eq_valueFrom (h : (p.input? b).isSome) : p.input? b = some (p.valueFrom b) := by
  obtain ⟨w, hw⟩ := Option.isSome_iff_exists.mp h
  rw [valueFrom, hw]
  rfl

theorem mem_operands_of_input? {w : Option Value} (h : p.input? b = some w) : w ∈ p.operands :=
  List.mem_map.mpr ⟨(b, w), Table.mem_of_get? h, rfl⟩

theorem mem_operands_dropInput {w : Option Value} (h : w ∈ (p.dropInput b).operands) :
    w ∈ p.operands := by
  obtain ⟨e, he, rfl⟩ := List.mem_map.mp h
  exact List.mem_map.mpr ⟨e, (List.mem_filter.mp he).1, rfl⟩

/-- A redirected phi uses what it used, and the moved value. -/
theorem mem_operands_moveInput {w : Option Value} (h : w ∈ (p.moveInput old new).operands) :
    w = p.valueFrom old ∨ w ∈ p.operands := by
  obtain ⟨e, he, rfl⟩ := List.mem_map.mp (mem_operands_dropInput h)
  rcases Table.mem_insert he with rfl | he
  · exact Or.inl rfl
  · exact Or.inr (List.mem_map.mpr ⟨e, he, rfl⟩)

end Phi

/-! ### Changing one entry of a list -/

section Entries

variable {α : Type} [DecidableEq α] {old : α} {l : List α}

/-- An entry that is there can be replaced, and then occurs once less than before. -/
theorem exists_replaceFirst (new : α) (h : old ∈ l) : ∃ l', replaceFirst old new l = some l' ∧
    ∀ x, l'.count x + (if x = old then 1 else 0) = l.count x + (if x = new then 1 else 0) := by
  induction l with
  | nil => exact absurd h (by simp)
  | cons a l ih =>
    by_cases ha : a = old
    · subst ha
      refine ⟨new :: l, by simp [replaceFirst], fun x => ?_⟩
      simp only [List.count_cons, beq_iff_eq, eq_comm (a := x)]
      omega
    · obtain ⟨l', hl', hcount⟩ := ih (by simpa [Ne.symm ha] using h)
      refine ⟨a :: l', by simp [replaceFirst, ha, hl'], fun x => ?_⟩
      have := hcount x
      simp only [List.count_cons]
      omega

/-- An entry that is there can be removed, and then occurs once less than before. -/
theorem exists_removeFirst (h : old ∈ l) : ∃ l', removeFirst old l = some l' ∧
    ∀ x, l'.count x + (if x = old then 1 else 0) = l.count x := by
  induction l with
  | nil => exact absurd h (by simp)
  | cons a l ih =>
    by_cases ha : a = old
    · subst ha
      refine ⟨l, by simp [removeFirst], fun x => ?_⟩
      simp only [List.count_cons, beq_iff_eq, eq_comm (a := x)]
    · obtain ⟨l', hl', hcount⟩ := ih (by simpa [Ne.symm ha] using h)
      refine ⟨a :: l', by simp [removeFirst, ha, hl'], fun x => ?_⟩
      have := hcount x
      simp only [List.count_cons]
      omega

end Entries

end BranchFusion
