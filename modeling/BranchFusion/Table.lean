/-!
# Tables

A table maps keys to entries and keeps them in a list. Inserting takes an order on keys: a new key
is put in front of the first key that it precedes, so a table filled in this way is sorted and two
tables with the same entries are the same list. With the empty order, which precedes nothing, a
table keeps its keys in the order in which they first appeared.

The facts a reader needs are `get?_insert` and `get?_erase`: what a look-up sees.
-/

namespace BranchFusion

/-- A finite map, as a list of keys and entries. -/
abbrev Table (κ ι : Type) := List (κ × ι)

namespace Table

variable {κ ι : Type} [DecidableEq κ]

/-- The entry of a key. -/
def get? (t : Table κ ι) (k : κ) : Option ι :=
  (t.find? fun e => e.1 = k).map Prod.snd

/-- Whether the key has an entry. -/
def has (t : Table κ ι) (k : κ) : Bool :=
  t.any fun e => e.1 = k

/-- Sets the entry of a key: in place if the key is there, otherwise in front of the first key that
it precedes. -/
def insert (precedes : κ → κ → Bool) (k : κ) (x : ι) : Table κ ι → Table κ ι
  | [] => [(k, x)]
  | (k', x') :: t =>
    if k = k' then (k, x) :: t
    else if precedes k k' then (k, x) :: (k', x') :: t
    else (k', x') :: insert precedes k x t

/-- Sets the entry of a key; a new key goes to the end. -/
def set (k : κ) (x : ι) (t : Table κ ι) : Table κ ι :=
  insert (fun _ _ => false) k x t

/-- Removes a key. -/
def erase (k : κ) (t : Table κ ι) : Table κ ι :=
  t.filter fun e => !decide (e.1 = k)

/-- The keys, in order. -/
def keys (t : Table κ ι) : List κ :=
  t.map Prod.fst

/-- A look-up after an insertion sees the new entry at its key and the old ones elsewhere. -/
theorem get?_insert (precedes : κ → κ → Bool) (k k' : κ) (x : ι) (t : Table κ ι) :
    get? (insert precedes k x t) k' = if k = k' then some x else get? t k' := by
  induction t with
  | nil => by_cases h : k = k' <;> simp [insert, get?, h]
  | cons e t ih =>
    obtain ⟨a, y⟩ := e
    simp only [insert]
    split
    · next h =>
      subst h
      by_cases hk : k = k' <;> simp [get?, hk]
    · next h =>
      split
      · by_cases hk : k = k' <;> simp [get?, hk]
      · by_cases ha : a = k'
        · have hk : ¬ k = k' := fun h' => h (h'.trans ha.symm)
          simp [get?, ha, hk]
        · simp only [get?, List.find?_cons, ha, decide_false] at ih ⊢
          exact ih

/-- A look-up after an erasure misses the erased key and sees the others. -/
theorem get?_erase (k k' : κ) (t : Table κ ι) :
    get? (erase k t) k' = if k = k' then none else get? t k' := by
  induction t with
  | nil => simp [erase, get?]
  | cons e t ih =>
    obtain ⟨a, y⟩ := e
    by_cases ha : a = k
    · subst ha
      by_cases hk : a = k'
      · simp_all [erase, get?]
      · simp_all [erase, get?]
    · by_cases hk : a = k'
      · have : ¬ k = k' := fun h => ha (hk.trans h.symm)
        simp_all [erase, get?]
      · simp_all [erase, get?]

end Table

end BranchFusion
