import BranchFusion.Proofs.Dominance.Tree

/-!
# Questions to the forest

Every question to the forest rewrites it, and the search for dominators asks many. What is done to
the forest in the course of a search is a list of *moves* (`BranchFusion.Forest.Move`): a question,
an offer – a question whose answer may lower a key – or a link. A list of moves is *played*
(`BranchFusion.Forest.Played`) when vertices are linked in descending order and a key is offered to
a vertex only before it is linked; what a search has done up to some point is such a list
(`BranchFusion.DominatorSearch.played_of_prefix`), and it stays one when questions are put in.

Questions change pointers and labels only, and the answer depends on the keys only
(`BranchFusion.Forest.Tracks.keyOf_eval_congr`). So whatever else is asked in between, the keys and
the answers of a search are the same (`BranchFusion.Forest.Played.key_erase`).

To find its answer the forest follows pointers. `BranchFusion.Forest.Compresses` says how, with no
rule for a pointer that is not there, and `BranchFusion.Forest.Tracks.compresses` says that the
rules always lead to an end.
-/

namespace BranchFusion

open BranchFusion.Graph

namespace Forest

variable {f f' g : Forest} {parent : Nat → Nat} {linked : Nat → Prop} {n m v w x : Nat}

/-! ### Following pointers -/

/-- **Path compression, pointer by pointer.** There is no rule for a vertex without an ancestor. The
ancestor is looked up once more when its own way has been shortened. -/
inductive Compresses : Forest → Nat → Forest → Prop
  | short {f : Forest} {v a : Nat} :
      f.ancestorOf v = some a → f.ancestorOf a = none → Compresses f v f
  | long {f f' : Forest} {v a b c : Nat} :
      f.ancestorOf v = some a → f.ancestorOf a = some b → Compresses f a f' →
        f'.ancestorOf v = some c → Compresses f v (f'.adopt v c)

theorem Compresses.unique (h : Compresses f v f') (h' : Compresses f v g) : f' = g := by
  induction h generalizing g with
  | short ha hb =>
    cases h' with
    | short _ _ => rfl
    | long ha' hb' _ _ =>
      obtain rfl := Option.some.inj (ha.symm.trans ha')
      exact absurd (hb.symm.trans hb') (by simp)
  | long ha hb _ hc ih =>
    cases h' with
    | short ha' hb' =>
      obtain rfl := Option.some.inj (ha.symm.trans ha')
      exact absurd (hb.symm.trans hb') (by simp)
    | long ha' _ hcomp hc' =>
      obtain rfl := Option.some.inj (ha.symm.trans ha')
      obtain rfl := ih hcomp
      obtain rfl := Option.some.inj (hc.symm.trans hc')
      rfl

/-- **From a linked vertex the rules lead to an end**: every pointer on the way is there, and the
ancestors decrease. -/
theorem Tracks.compresses (hp : ParentsFirst n parent) :
    ∀ (fuel : Nat) {f : Forest} {v : Nat}, Tracks parent n m f → v ≤ fuel → m < v → v < n →
      Compresses f v (Forest.compress fuel f v)
  | 0, _, _, _, hv, hmv, _ => absurd hmv (by omega)
  | fuel + 1, f, v, h, hv, hmv, hvn => by
    obtain ⟨a, ha, hs⟩ := h.shortcut v hmv hvn
    have hlt := hs.lt
    rw [Forest.compress, ha]
    dsimp only
    cases hb : f.ancestorOf a with
    | none => exact .short ha hb
    | some b =>
      obtain ⟨hma, -⟩ := h.linked_of_ancestorOf hb
      have hcomp := Tracks.compresses hp fuel h (v := a) (by omega) hma (by omega)
      -- the way of a lesser vertex is none of the business of `v`
      obtain ⟨-, -, hsame, -⟩ := Tracks.compress hp fuel h (v := a) (by omega) (by omega)
      exact .long ha hb hcomp ((hsame v hlt).trans ha)

/-! ### Answers -/

/-- `x` is on the way from a vertex up to, but without, the first ancestor that is not linked. -/
inductive OnWay (parent : Nat → Nat) (linked : Nat → Prop) (x : Nat) : Nat → Prop
  | here : linked x → OnWay parent linked x x
  | up {v : Nat} : linked v → OnWay parent linked x (parent v) → OnWay parent linked x v

/-- On the way are the ancestors that are linked. -/
theorem onWay_iff (hp : ParentsFirst n parent) (hlinked : ∀ x, linked x ↔ m < x ∧ x < n) :
    OnWay parent linked x v ↔ m < x ∧ Ancestor parent x v ∧ v < n := by
  constructor
  · intro h
    induction h with
    | here hx => exact ⟨((hlinked x).mp hx).1, .refl, ((hlinked x).mp hx).2⟩
    | @up v hv _ ih =>
      obtain ⟨hmv, hvn⟩ := (hlinked v).mp hv
      exact ⟨ih.1, .up (by omega) ih.2.1, hvn⟩
  · rintro ⟨hx, hanc, hvn⟩
    induction hanc with
    | refl => exact .here ((hlinked x).mpr ⟨hx, hvn⟩)
    | @up v hv0 hanc ih =>
      have hxv := hp.le_of_ancestor (.up hv0 hanc) hvn
      have hlt := hp v hv0 hvn
      exact .up ((hlinked v).mpr ⟨by omega, hvn⟩) (ih (by omega))

/-- **What a forest answers for a vertex.** A vertex that is not linked is its own answer, and
nothing is changed. For a linked vertex, paths are compressed without following a pointer that is
not there, and the answer is a vertex of least key on the way up to, but without, the first ancestor
that is not linked. -/
structure Answers (parent : Nat → Nat) (linked : Nat → Prop) (f : Forest) (v : Nat) : Prop where
  self : ¬linked v → f.eval v = (v, f)
  compresses : linked v → ∀ f', Compresses f v f' ↔ f' = (f.eval v).2
  onWay : linked v → OnWay parent linked (f.eval v).1 v
  least : linked v → ∀ x, OnWay parent linked x v → f.keyOf (f.eval v).1 ≤ f.keyOf x

/-- A vertex without an ancestor is its own answer. -/
theorem Tracks.eval_of_not_linked (h : Tracks parent n m f) (hv : ¬(m < v ∧ v < n)) :
    f.eval v = (v, f) := by
  rw [Forest.eval]
  split
  · rfl
  · next a ha => exact absurd (h.linked_of_ancestorOf ha) hv

theorem Tracks.eval_of_linked (hp : ParentsFirst n parent) (h : Tracks parent n m f) (hmv : m < v)
    (hvn : v < n) : Compresses f v (f.eval v).2 := by
  obtain ⟨a, ha, -⟩ := h.shortcut v hmv hvn
  rw [Forest.eval, ha]
  exact Tracks.compresses hp f.size h (by rw [size, h.key_size]; omega) hmv hvn

/-- A question keeps the invariant and the keys, whatever vertex is asked about. -/
theorem Tracks.ask (hp : ParentsFirst n parent) (h : Tracks parent n m f) (v : Nat) :
    Tracks parent n m (f.eval v).2 ∧ (f.eval v).2.key = f.key := by
  by_cases hv : m < v ∧ v < n
  · obtain ⟨h1, hkey, -, -⟩ := h.eval hp hv.2
    exact ⟨h1, hkey⟩
  · rw [h.eval_of_not_linked hv]
    exact ⟨h, rfl⟩

theorem Tracks.answers (hp : ParentsFirst n parent) (h : Tracks parent n m f)
    (hlinked : ∀ x, linked x ↔ m < x ∧ x < n) (v : Nat) : Answers parent linked f v := by
  have hleast : linked v → Least parent f m v (f.eval v).1 := fun hv => by
    obtain ⟨hmv, hvn⟩ := (hlinked v).mp hv
    exact (h.eval hp hvn).2.2.2 hmv
  constructor
  case self => exact fun hv => h.eval_of_not_linked fun hmv => hv ((hlinked v).mpr hmv)
  case compresses =>
    intro hv f'
    obtain ⟨hmv, hvn⟩ := (hlinked v).mp hv
    have hcomp := h.eval_of_linked hp hmv hvn
    exact ⟨fun h' => h'.unique hcomp, fun heq => heq ▸ hcomp⟩
  case onWay =>
    intro hv
    exact (onWay_iff hp hlinked).mpr
      ⟨(hleast hv).above, (hleast hv).ancestor, ((hlinked v).mp hv).2⟩
  case least =>
    intro hv x hx
    obtain ⟨hmx, hanc, -⟩ := (onWay_iff hp hlinked).mp hx
    exact (hleast hv).least x hmx hanc

/-- **The key of the answer depends on the keys only**, not on the shortcuts. -/
theorem Tracks.keyOf_eval_congr (hp : ParentsFirst n parent) (hf : Tracks parent n m f)
    (hg : Tracks parent n m g) (hkey : f.key = g.key) (v : Nat) :
    f.keyOf (f.eval v).1 = g.keyOf (g.eval v).1 := by
  have hk : ∀ x, f.keyOf x = g.keyOf x := fun x => by rw [keyOf, keyOf, hkey]
  by_cases hv : m < v ∧ v < n
  · have hlf := (hf.eval hp hv.2).2.2.2 hv.1
    have hlg := (hg.eval hp hv.2).2.2.2 hv.1
    refine le_antisymm ?_ ?_
    · rw [← hk (g.eval v).1]
      exact hlf.least _ hlg.above hlg.ancestor
    · rw [hk (f.eval v).1]
      exact hlg.least _ hlf.above hlf.ancestor
  · rw [hf.eval_of_not_linked hv, hg.eval_of_not_linked hv]
    exact hk v

/-! ### Moves -/

/-- What is done to a forest. -/
inductive Move
  /-- A vertex is asked about. -/
  | ask (v : Nat)
  /-- `v` is asked about, and the key of `w` is lowered to that of the answer, if that is less. -/
  | offer (v w : Nat)
  /-- A vertex is linked to its parent. -/
  | link (w : Nat)
deriving DecidableEq, Repr

namespace Move

/-- Whether a move is a mere question. -/
def isAsk : Move → Bool
  | .ask _ => true
  | _ => false

/-- The forest after a move. -/
def apply (parent : Nat → Nat) (f : Forest) : Move → Forest
  | .ask v => (f.eval v).2
  | .offer v w =>
    let (q, f) := f.eval v
    if f.keyOf q < f.keyOf w then f.setKey w (f.keyOf q) else f
  | .link w => f.link w (parent w)

end Move

/-- The moves that are not mere questions. -/
def erase (ms : List Move) : List Move := ms.filter fun x => !x.isAsk

/-- **The forest after moves**, which begin with all vertices for themselves. -/
def after (parent : Nat → Nat) (n : Nat) (ms : List Move) : Forest :=
  ms.foldl (Move.apply parent) (.discrete n)

variable {ms ms' : List Move} {y : Move}

theorem after_concat : after parent n (ms ++ [y]) = y.apply parent (after parent n ms) := by
  rw [after, List.foldl_append]
  rfl

theorem erase_concat_ask : erase (ms ++ [.ask v]) = erase ms := by
  rw [erase, List.filter_append]
  simp [erase, Move.isAsk]

theorem erase_concat_of_not_isAsk (hy : y.isAsk = false) : erase (ms ++ [y]) = erase ms ++ [y] := by
  rw [erase, List.filter_append]
  simp [erase, hy]

/-- **Moves that have been played** when the vertices greater than `m` are linked: they are linked
in descending order, a key is offered only to a vertex that is not linked, and anything may be asked
at any time. -/
inductive Played (n : Nat) : List Move → Nat → Prop
  | start : Played n [] (n - 1)
  | ask {ms : List Move} {m : Nat} (v : Nat) : Played n ms m → Played n (ms ++ [.ask v]) m
  | offer {ms : List Move} {m w : Nat} (v : Nat) :
      Played n ms m → w ≤ m → Played n (ms ++ [.offer v w]) m
  | link {ms : List Move} {m : Nat} :
      Played n ms (m + 1) → m + 1 < n → Played n (ms ++ [.link (m + 1)]) m

/-- The keys after an offer. -/
theorem Tracks.key_offer (hp : ParentsFirst n parent) (h : Tracks parent n m f) (v w : Nat) :
    ((Move.offer v w).apply parent f).key =
      if f.keyOf (f.eval v).1 < f.keyOf w then f.key.setIfInBounds w (f.keyOf (f.eval v).1)
      else f.key := by
  have hkey := (h.ask hp v).2
  have hk : ∀ x, (f.eval v).2.keyOf x = f.keyOf x := fun x => by rw [keyOf, keyOf, hkey]
  simp only [Move.apply, hk]
  split
  · rw [Forest.setKey, hkey]
  · exact hkey

namespace Played

/-- **The invariant holds after all moves that can be played.** -/
theorem tracks (hp : ParentsFirst n parent) (h : Played n ms m) :
    Tracks parent n m (after parent n ms) := by
  induction h with
  | start => exact .discrete
  | ask v _ ih =>
    rw [after_concat]
    exact (ih.ask hp v).1
  | offer v _ hw ih =>
    have hask := (ih.ask hp v).1
    rw [after_concat]
    dsimp only [Move.apply]
    split
    · exact hask.setKey hw
    · exact hask
  | link _ hm ih =>
    rw [after_concat]
    exact ih.link hp hm

/-- Linked are the vertices greater than `m`. -/
theorem link_mem_iff (h : Played n ms m) : .link v ∈ ms ↔ m < v ∧ v < n := by
  induction h with
  | start =>
    simp only [List.not_mem_nil, false_iff]
    omega
  | ask _ _ ih => simpa using ih
  | offer _ _ _ ih => simpa using ih
  | link _ hm ih =>
    simp only [List.mem_append, ih, List.mem_singleton, Move.link.injEq]
    omega

/-- What has been played at some point has been played before. -/
theorem of_prefix (h : Played n ms m) (hpre : ms' <+: ms) : ∃ m', Played n ms' m' := by
  induction h with
  | start =>
    rw [List.prefix_nil.mp hpre]
    exact ⟨_, .start⟩
  | ask v h ih =>
    rcases List.prefix_concat_iff.mp hpre with rfl | hpre
    · exact ⟨_, h.ask v⟩
    · exact ih hpre
  | offer v h hw ih =>
    rcases List.prefix_concat_iff.mp hpre with rfl | hpre
    · exact ⟨_, h.offer v hw⟩
    · exact ih hpre
  | link h hm ih =>
    rcases List.prefix_concat_iff.mp hpre with rfl | hpre
    · exact ⟨_, h.link hm⟩
    · exact ih hpre

/-- Questions may be left out. -/
theorem erase (h : Played n ms m) : Played n (Forest.erase ms) m := by
  induction h with
  | start => exact .start
  | ask v _ ih => rwa [erase_concat_ask]
  | offer v _ hw ih =>
    rw [erase_concat_of_not_isAsk rfl]
    exact ih.offer v hw
  | link _ hm ih =>
    rw [erase_concat_of_not_isAsk rfl]
    exact ih.link hm

/-- How the last move has been played. -/
theorem of_concat : Played n (ms ++ [y]) m →
    match y with
    | .ask _ => Played n ms m
    | .offer _ w => Played n ms m ∧ w ≤ m
    | .link w => w = m + 1 ∧ Played n ms w ∧ w < n := by
  intro h
  generalize hms : ms ++ [y] = l at h
  cases h with
  | start => simp at hms
  | ask v h =>
    obtain ⟨rfl, hy⟩ := List.append_inj' hms rfl
    obtain rfl := List.singleton_injective hy
    exact h
  | offer v h hw =>
    obtain ⟨rfl, hy⟩ := List.append_inj' hms rfl
    obtain rfl := List.singleton_injective hy
    exact ⟨h, hw⟩
  | link h hm =>
    obtain ⟨rfl, hy⟩ := List.append_inj' hms rfl
    obtain rfl := List.singleton_injective hy
    exact ⟨rfl, h, hm⟩

/-- Questions may be put in anywhere. -/
theorem of_erase (h : Played n (Forest.erase ms) m) : Played n ms m := by
  induction ms using List.reverseRecOn generalizing m with
  | nil => exact h
  | append_singleton ms y ih =>
    cases y with
    | ask v =>
      rw [erase_concat_ask] at h
      exact (ih h).ask v
    | offer v w =>
      rw [erase_concat_of_not_isAsk rfl] at h
      obtain ⟨h, hw⟩ := h.of_concat
      exact (ih h).offer v hw
    | link w =>
      rw [erase_concat_of_not_isAsk rfl] at h
      obtain ⟨rfl, h, hm⟩ := h.of_concat
      exact (ih h).link hm

/-- **Questions change no key**, now or later: with all of them left out the keys are the same. -/
theorem key_erase (hp : ParentsFirst n parent) (h : Played n ms m) :
    (after parent n (Forest.erase ms)).key = (after parent n ms).key := by
  induction h with
  | start => rfl
  | ask v h ih =>
    rw [erase_concat_ask, after_concat, ih]
    exact ((h.tracks hp).ask hp v).2.symm
  | @offer _ _ w v h _ ih =>
    have hans := Tracks.keyOf_eval_congr hp (h.erase.tracks hp) (h.tracks hp) ih v
    have hw : (after parent n (Forest.erase _)).keyOf w = (after parent n _).keyOf w :=
      congrArg (fun key : Array Nat => key[w]?.getD 0) ih
    rw [erase_concat_of_not_isAsk rfl, after_concat, after_concat,
      (h.erase.tracks hp).key_offer hp, (h.tracks hp).key_offer hp, hans, hw, ih]
  | link h hm ih =>
    rw [erase_concat_of_not_isAsk rfl, after_concat, after_concat]
    exact ih

end Played

/-- One vertex may be offered the keys of many. -/
theorem Played.offers (hw : w ≤ m) :
    ∀ {ms : List Move} (vs : List Nat), Played n ms m →
      Played n (ms ++ vs.map (Move.offer · w)) m
  | _, [], h => by simpa using h
  | _, v :: vs, h => by simpa using Played.offers hw vs (h.offer v hw)

theorem Played.asks :
    ∀ {ms : List Move} (vs : List Nat), Played n ms m → Played n (ms ++ vs.map Move.ask) m
  | _, [], h => by simpa using h
  | _, v :: vs, h => by simpa using Played.asks vs (h.ask v)

end Forest

/-! ### The moves of a search -/

namespace DominatorSearch

open Forest (Move Played Answers)

variable {fn : Func} {t : Spanning} {s : DominatorSearch} {parent : Nat → Nat} {n m w : Nat}
  {ms : List Move}

/-- What is done to the forest when a vertex is taken. -/
def visitMoves (fn : Func) (t : Spanning) (s : DominatorSearch) (w : Nat) : List Move :=
  let p := t.parentOf w
  let f := (lower w s.forest (t.preds fn w)).link w p
  let waiting := s.waiting.modify (f.keyOf w) (· ++ [w])
  (t.preds fn w).map (.offer · w) ++ .link w :: (waiting[p]?.getD []).map .ask

/-- What is done to the forest when the vertices from `w` down to one are taken. -/
def descendMoves (fn : Func) (t : Spanning) : Nat → DominatorSearch → List Move
  | 0, _ => []
  | w + 1, s => visitMoves fn t s (w + 1) ++ descendMoves fn t w (visit fn t s (w + 1))

/-- **What the search for the dominators of a function does to its forest.** -/
def moves (fn : Func) : List Move :=
  let t := Spanning.build fn
  descendMoves fn t (t.size - 1) (.start t.size)

theorem lower_eq_foldl (parent : Nat → Nat) (w : Nat) :
    ∀ (f : Forest) (vs : List Nat),
      lower w f vs = (vs.map (Move.offer · w)).foldl (Move.apply parent) f
  | _, [] => rfl
  | f, v :: vs => lower_eq_foldl parent w (Move.apply parent f (.offer v w)) vs

theorem forest_settle (parent : Nat → Nat) (p : Nat) :
    ∀ (s : DominatorSearch) (vs : List Nat),
      (settle p s vs).forest = (vs.map Move.ask).foldl (Move.apply parent) s.forest
  | _, [] => rfl
  | s, v :: vs => forest_settle parent p { s with forest := (s.forest.eval v).2, dom := _ } vs

theorem forest_visit :
    (visit fn t s w).forest = (visitMoves fn t s w).foldl (Move.apply t.parentOf) s.forest := by
  rw [visitMoves, List.foldl_append, ← lower_eq_foldl, List.foldl_cons, Move.apply, visit]
  exact forest_settle t.parentOf _ _ _

theorem forest_descend :
    ∀ (m : Nat) (s : DominatorSearch),
      (descend fn t m s).forest =
        (descendMoves fn t m s).foldl (Move.apply t.parentOf) s.forest
  | 0, _ => rfl
  | m + 1, s => by
    rw [descendMoves, List.foldl_append, ← forest_visit]
    exact forest_descend m _

/-- Taking the vertex that is linked next. -/
theorem played_visit (h : Played n ms (m + 1)) (hm : m + 1 < n) :
    Played n (ms ++ visitMoves fn t s (m + 1)) m := by
  have hlink := (Forest.Played.offers le_rfl (t.preds fn (m + 1)) h).link hm
  simpa [visitMoves] using Forest.Played.asks _ hlink

theorem played_descend :
    ∀ (m : Nat) {ms : List Move} (s : DominatorSearch), m ≤ n - 1 → Played n ms m →
      Played n (ms ++ descendMoves fn t m s) 0
  | 0, _, _, _, h => by simpa [descendMoves] using h
  | m + 1, _, s, hm, h => by
    rw [descendMoves, ← List.append_assoc]
    exact played_descend m _ (by omega) (played_visit h (by omega))

/-- **What a search has done at any point has been played.** -/
theorem played_of_prefix (h : ms <+: moves fn) : ∃ m, Played (Spanning.build fn).size ms m :=
  Forest.Played.of_prefix (played_descend _ (.start _) le_rfl .start) h

/-- **Path compression is transparent.** The moves of a search lead to the forest that it ends with,
and at every point of a search what has been done has been played. Whatever has been played, in a
search or with the predecessors in any other order, and whatever has been asked before and in
between: every vertex is answered as `BranchFusion.Forest.Answers` says, the keys are the same, and
so is the key of every answer. -/
theorem questions_transparent (fn : Func) :
    let t := Spanning.build fn
    let after := Forest.after t.parentOf t.size
    (descend fn t (t.size - 1) (.start t.size)).forest = after (moves fn) ∧
    (∀ ms, ms <+: moves fn → ∃ m, Played t.size ms m) ∧
    ∀ ms m, Played t.size ms m → ∀ asked, Forest.erase asked = Forest.erase ms →
      (after asked).key = (after ms).key ∧
      ∀ v, Answers t.parentOf (fun x => .link x ∈ ms) (after asked) v ∧
        (after asked).keyOf ((after asked).eval v).1 =
          (after ms).keyOf ((after ms).eval v).1 := by
  intro t after
  refine ⟨forest_descend _ _, fun ms h => played_of_prefix h, fun ms m h asked herase => ?_⟩
  have hp : ParentsFirst t.size t.parentOf := Spanning.parentsFirst_build fn
  have hasked : Played t.size asked m := .of_erase (herase ▸ h.erase)
  have hkey : (after asked).key = (after ms).key := by
    rw [← hasked.key_erase hp, ← h.key_erase hp, herase]
  refine ⟨hkey, fun v => ⟨?_, ?_⟩⟩
  · exact (hasked.tracks hp).answers hp (fun _ => h.link_mem_iff) v
  · exact Forest.Tracks.keyOf_eval_congr hp (hasked.tracks hp) (h.tracks hp) hkey v

/-- In the loop with two entries, a question about the exit once the blocks of the loop are linked
moves its pointer up to the entry, and changes no answer. -/
theorem questions_transparent_twoEntryLoop :
    let t := Spanning.build DominatorTree.twoEntryLoop
    let after := Forest.after t.parentOf t.size
    let ms : List Move := (moves DominatorTree.twoEntryLoop).take 9
    let asked := ms ++ [.ask 3, .ask 0]
    ms = [.offer 2 3, .link 3, .ask 3, .offer 0 2, .offer 1 2, .link 2, .offer 0 1, .offer 2 1,
      .link 1] ∧
    (after ms).ancestorOf 3 = some 2 ∧ (after asked).ancestorOf 3 = some 0 ∧
    ms <+: moves DominatorTree.twoEntryLoop ∧ Forest.erase asked = Forest.erase ms ∧
    ∀ v, Answers t.parentOf (fun x => .link x ∈ ms) (after asked) v ∧
      (after asked).keyOf ((after asked).eval v).1 = (after ms).keyOf ((after ms).eval v).1 := by
  intro t after ms asked
  have hpre : ms <+: moves DominatorTree.twoEntryLoop := List.take_prefix _ _
  have herase : Forest.erase asked = Forest.erase ms := by
    simp [asked, Forest.erase, Forest.Move.isAsk]
  obtain ⟨-, hplayed, htransparent⟩ := questions_transparent DominatorTree.twoEntryLoop
  obtain ⟨m, h⟩ := hplayed ms hpre
  exact ⟨by decide +kernel, by decide +kernel, by decide +kernel, hpre, herase,
    (htransparent ms m h asked herase).2⟩

end DominatorSearch

end BranchFusion
