import BranchFusion.Proofs.Pipeline.Composition

/-!
# Where pipelines cannot be read

A reader that refuses a text points at a place in it. For the reader of pipelines this is the first
place where the text goes wrong: what stands in front of it can still be completed to a pipeline.
The one exception is an empty group, which is only reported behind its closing bracket; there the
text goes wrong at the bracket (`BranchFusion.Pipeline.failure_is_first_offence`).

The proof follows the reader. Where a part of it gives up, what this part has read so far is
completed by hand (`BranchFusion.Pipeline.Breaks`): a missing pass by the verifier, which every
registry knows, a missing sign by this sign and what has to follow it. What was read in front of the
part stays in front (`BranchFusion.Pipeline.Covers.breaks`), and what has to follow the part is put
behind it (`BranchFusion.Pipeline.Breaks.append`). Completions never start in the middle of a word,
so they cannot make one longer that was read already.
-/

namespace BranchFusion

namespace Text.Bytes

/-- The first bytes. -/
def take (b : Bytes) (n : Nat) : Bytes := ⟨b.codes.take n⟩

theorem length_chars (b : Bytes) : b.chars.length = b.codes.length := List.length_map _

theorem chars_take (b : Bytes) (n : Nat) : (b.take n).chars = b.chars.take n :=
  List.map_take

end Text.Bytes

namespace Pipeline

variable {reg : Registry} {c c' : Cursor} {e : Failure} {ts us : List Token} {ds : List Char}
  {reason : Refusal} {s : Char}

/-! ### Giving up -/

/-- The place that a failure points at, if reading stopped after `n` bytes and in front of `rest`:
this place, or the one behind the bracket that makes a group empty. -/
def PointsAt (e : Failure) (n : Nat) (rest : List Char) : Prop :=
  (e.reason ≠ .emptyGroup ∧ e.pos = n) ∨
    (e.reason = .emptyGroup ∧ e.pos = n + 1 ∧ rest.head? = some ')')

/-- **Reading gives up, but not too late.** What was read can still become a text that spells the
tokens. -/
def Breaks (c : Cursor) (e : Failure) (ts : List Token) : Prop :=
  ∃ taken rest more, c.rest = taken ++ rest ∧ PointsAt e (c.pos + taken.length) rest ∧
    Parted more ∧ Spells ts (taken ++ more)

/-- Where nothing was read yet, everything is still to come. -/
theorem breaks_here (hreason : reason ≠ .emptyGroup) (hds : Parted ds) (h : Spells ts ds) :
    Breaks c ⟨c.pos, reason⟩ ts :=
  ⟨[], c.rest, ds, rfl, .inl ⟨hreason, rfl⟩, hds, h⟩

/-- What was read before stays in front. -/
theorem Covers.breaks (h : Covers c c' ts) (h' : Breaks c' e us) : Breaks c e (ts ++ us) := by
  obtain ⟨taken, hrest, hpos, hspells⟩ := h
  obtain ⟨taken', rest, more, hrest', hplace, hmore, hspells'⟩ := h'
  refine ⟨taken ++ taken', rest, more, ?_, ?_, hmore, ?_⟩
  · rw [hrest, hrest', List.append_assoc]
  · rwa [List.length_append, ← Nat.add_assoc, ← hpos]
  · rw [List.append_assoc]
    refine hspells us _ ?_ hspells'
    rw [hrest']
    exact Parted.append fun _ => hmore

/-- What has to follow is put behind. -/
theorem Breaks.append (h : Breaks c e ts) (hus : Spells us ds) (hds : Parted ds) :
    Breaks c e (ts ++ us) := by
  obtain ⟨taken, rest, more, hrest, hplace, hmore, hspells⟩ := h
  refine ⟨taken, rest, more ++ ds, hrest, hplace, ?_, ?_⟩
  · cases more with
    | nil => exact hds
    | cons x more => exact hmore
  · rw [← List.append_assoc]
    exact hspells.append hus hds

theorem parted_nil : Parted [] := by simp [Parted]

theorem parted_cons {x : Char} {xs : List Char} (h : Registry.isNameChar x = false) :
    Parted (x :: xs) := by
  rintro _ ⟨⟩
  exact h

/-- A sign that is missing is put there, with what has to follow it. -/
theorem breaks_of_expect (h : c.expect s = .error e) (hs : isSign s)
    (hspells : Spells (.sign s :: ts) (s :: ds)) : Breaks c e (.sign s :: ts) := by
  rw [Cursor.expect] at h
  split at h
  · exact absurd h (by simp)
  · obtain rfl := Except.error.inj h
    exact covers_skip.breaks
      (breaks_here nofun (parted_cons (not_isNameChar_of_isSign hs).1) hspells)

/-- A word that is missing, or that is no good, is put there behind a blank. -/
theorem breaks_of_word {w : String} (hreason : reason ≠ .emptyGroup) (hw : Registry.isName w)
    (hds : Parted ds) (h : Spells ts ds) : Breaks c ⟨c.pos, reason⟩ (.word w :: ts) :=
  breaks_here hreason (parted_cons (x := ' ') rfl) (.gap rfl (.word hw hds h))

/-- Where no word comes next, the reader of words stops behind the gaps. -/
theorem word_eq_empty {after : Cursor} (h : c.word = ("", after)) : after = c.skip := by
  rw [Cursor.word] at h
  obtain ⟨hw, rfl⟩ := Prod.mk.inj h
  have hnone : c.skip.rest.takeWhile Registry.isNameChar = [] := by
    simpa [Cursor.span] using hw
  have hall := List.takeWhile_append_dropWhile (p := Registry.isNameChar) (l := c.skip.rest)
  rw [hnone, List.nil_append] at hall
  simp [hnone, hall]

/-- A group is empty if its closing bracket comes next. -/
theorem breaks_of_empty (h : c.eat? ')' = some c') :
    Breaks c ⟨c'.pos, .emptyGroup⟩ [.word Registry.verifierName, .sign ')'] := by
  obtain ⟨hrest, hpos⟩ := skip_of_eat h
  exact covers_skip.breaks ⟨[], c.skip.rest, " verify)".toList, rfl,
    .inr ⟨rfl, hpos, by rw [hrest, List.head?_cons]⟩, parted_cons rfl,
    .gap rfl (.word_sign (w := Registry.verifierName) rfl rfl .done)⟩

/-! ### The shortest completions -/

/-- A pass that every registry knows. -/
theorem item_verifier : Item reg (.pass Registry.verifierName) [.word Registry.verifierName] :=
  .pass ⟨.inr rfl, by decide, by decide⟩

theorem spells_closing : Spells [.sign ')'] [')'] := .sign rfl .done

theorem spells_body :
    Spells [.sign '(', .word Registry.verifierName, .sign ')'] "(verify)".toList :=
  .sign rfl (Spells.word_sign (w := Registry.verifierName) rfl rfl .done)

theorem spells_body_of_times :
    Spells [.sign '>', .sign '(', .word Registry.verifierName, .sign ')'] ">(verify)".toList :=
  .sign rfl spells_body

theorem isCount_one : IsCount "1" 1 := isCount_toString le_rfl (by decide)

/-! ### Every failure points at the first offence -/

mutual

theorem item_breaks : ∀ {fuel : Nat} {c : Cursor} {e : Failure}, item reg fuel c = .error e →
    ∃ node ts, Item reg node ts ∧ Breaks c e ts
  | 0, c, _, h => by
    rw [item] at h
    obtain rfl := Except.error.inj h
    exact ⟨_, _, item_verifier, breaks_of_word nofun rfl parted_nil .done⟩
  | fuel + 1, c, e, h => by
    rw [item] at h
    rcases hword : c.word with ⟨w, after⟩
    simp only [hword] at h
    split at h
    · next hempty =>
      subst hempty
      obtain rfl := word_eq_empty hword
      obtain rfl := Except.error.inj h
      exact ⟨_, _, item_verifier, covers_skip.breaks (breaks_of_word nofun rfl parted_nil .done)⟩
    next hne =>
    have hcovers := covers_word hword hne
    split at h
    · next hrepeat =>
      subst hrepeat
      rcases error_of_bind h with hless | ⟨c₁, hless, h⟩
      · exact ⟨_, _, .times isCount_one (.one item_verifier),
          hcovers.breaks (breaks_of_expect hless rfl
            (.sign rfl (.word_sign (w := "1") rfl rfl spells_body)))⟩
      have hopened := covers_sign (s := '<') rfl (expect_eq_ok_iff.mp hless)
      rcases hnum : c₁.word with ⟨num, c₂⟩
      simp only [hnum] at h
      split at h
      · obtain rfl := Except.error.inj h
        exact ⟨_, _, .times isCount_one (.one item_verifier),
          hcovers.breaks (hopened.breaks (covers_skip.breaks
            (breaks_of_word nofun rfl (parted_cons rfl) spells_body_of_times)))⟩
      next n hn =>
      have hcount := count?_eq_some_iff.mp hn
      have hnumber := covers_word hnum hcount.nonempty
      rcases error_of_bind h with hgreater | ⟨c₃, hgreater, h⟩
      · exact ⟨_, _, .times hcount (.one item_verifier), hcovers.breaks (hopened.breaks
          (hnumber.breaks (breaks_of_expect hgreater rfl spells_body_of_times)))⟩
      have hclosed := covers_sign (s := '>') rfl (expect_eq_ok_iff.mp hgreater)
      rcases error_of_bind h with hbody | ⟨_, _, h⟩
      · obtain ⟨nodes, ts, hts, hbreaks⟩ := body_breaks hbody
        exact ⟨_, _, .times hcount hts,
          hcovers.breaks (hopened.breaks (hnumber.breaks (hclosed.breaks hbreaks)))⟩
      · exact absurd h (by simp [pure, Except.pure])
    split at h
    · next hfixpoint =>
      subst hfixpoint
      rcases error_of_bind h with hbody | ⟨_, _, h⟩
      · obtain ⟨nodes, ts, hts, hbreaks⟩ := body_breaks hbody
        exact ⟨_, _, .fixpoint hts, hcovers.breaks hbreaks⟩
      · exact absurd h (by simp [pure, Except.pure])
    split at h
    · exact absurd h (by simp)
    · obtain rfl := Except.error.inj h
      exact ⟨_, _, item_verifier, covers_skip.breaks (breaks_of_word nofun rfl parted_nil .done)⟩

theorem body_breaks : ∀ {fuel : Nat} {c : Cursor} {e : Failure}, body reg fuel c = .error e →
    ∃ nodes ts, Items reg nodes ts ∧ Breaks c e (.sign '(' :: ts ++ [.sign ')'])
  | 0, c, _, h => by
    rw [body] at h
    obtain rfl := Except.error.inj h
    exact ⟨_, _, .one item_verifier, breaks_here nofun (parted_cons rfl) spells_body⟩
  | fuel + 1, c, e, h => by
    rw [body] at h
    rcases error_of_bind h with hopen | ⟨c₁, hopen, h⟩
    · exact ⟨_, _, .one item_verifier, breaks_of_expect hopen rfl spells_body⟩
    have hopened := covers_sign (s := '(') rfl (expect_eq_ok_iff.mp hopen)
    split at h
    · next c₂ hclose =>
      obtain rfl := Except.error.inj h
      exact ⟨_, _, .one item_verifier, hopened.breaks (breaks_of_empty hclose)⟩
    rcases error_of_bind h with hlist | ⟨⟨nodes, c₂⟩, hlist, h⟩
    · obtain ⟨nodes, ts, hts, hbreaks⟩ := list_breaks hlist
      exact ⟨_, _, hts, hopened.breaks (hbreaks.append spells_closing (parted_cons rfl))⟩
    obtain ⟨ts, hts, hcovers⟩ := list_sound hlist
    rcases error_of_bind h with hclose | ⟨_, _, h⟩
    · exact ⟨_, _, hts, hopened.breaks (hcovers.breaks
        (breaks_of_expect hclose rfl spells_closing))⟩
    · exact absurd h (by simp [pure, Except.pure])

/-- **Where a list is not read, it could still have become one.** -/
theorem list_breaks : ∀ {fuel : Nat} {c : Cursor} {e : Failure}, list reg fuel c = .error e →
    ∃ nodes ts, Items reg nodes ts ∧ Breaks c e ts
  | 0, c, _, h => by
    rw [list] at h
    obtain rfl := Except.error.inj h
    exact ⟨_, _, .one item_verifier, breaks_of_word nofun rfl parted_nil .done⟩
  | fuel + 1, c, e, h => by
    rw [list] at h
    rcases error_of_bind h with hitem | ⟨⟨node, c₁⟩, hitem, h⟩
    · obtain ⟨node, ts, hts, hbreaks⟩ := item_breaks hitem
      exact ⟨_, _, .one hts, hbreaks⟩
    obtain ⟨ts, hts, hcovers⟩ := item_sound hitem
    dsimp only at h
    split at h
    · exact absurd h (by simp [pure, Except.pure])
    next c₂ hcomma =>
    rcases error_of_bind h with hlist | ⟨_, _, h⟩
    · obtain ⟨nodes, us, hus, hbreaks⟩ := list_breaks hlist
      exact ⟨_, _, .more hts hus,
        hcovers.breaks ((covers_sign (s := ',') rfl hcomma).breaks hbreaks)⟩
    · exact absurd h (by simp [pure, Except.pure])

end

/-- **Where a text is not read, it could still have become a pipeline.** -/
theorem read_breaks {src : List Char} (h : read reg src = .error e) :
    ∃ nodes ts, Items reg nodes ts ∧ Breaks ⟨0, src⟩ e ts := by
  rw [read] at h
  rcases error_of_bind h with hlist | ⟨⟨nodes, c⟩, hlist, h⟩
  · exact list_breaks hlist
  obtain ⟨ts, hts, hcovers⟩ := list_sound hlist
  dsimp only at h
  split at h
  · exact absurd h (by simp [pure, Except.pure])
  · -- the list itself is a pipeline, so nothing has to be put behind it
    obtain rfl := Except.error.inj h
    exact ⟨nodes, ts ++ [], by rwa [List.append_nil],
      hcovers.breaks (covers_skip.breaks (breaks_here (by simp) parted_nil .done))⟩

/-! ### The whole text -/

/-- A text that something can be put behind to make it the text of a pipeline. -/
def Completable (reg : Registry) (src : Text.Bytes) : Prop :=
  ∃ rest nodes, parse reg (src ++ rest) = .ok nodes

/-- Where reading gave up, what stands in front can be completed. -/
theorem Breaks.exists_take {src : Text.Bytes} {nodes : List Node}
    (h : Breaks ⟨0, src.chars⟩ e ts) (hts : Items reg nodes ts) :
    ∃ n ≤ src.codes.length, PointsAt e n (src.chars.drop n) ∧ Completable reg (src.take n) := by
  obtain ⟨taken, rest, more, hsrc, hplace, -, hspells⟩ := h
  have hsrc : src.chars = taken ++ rest := hsrc
  have htake : (src.take taken.length).chars = taken := by
    rw [Text.Bytes.chars_take, hsrc, List.take_left]
  have hmore : (Text.Bytes.ofString (String.ofList more)).chars = more := by
    refine (Text.Bytes.chars_ofString fun x hx => ?_).trans String.toList_ofList
    rw [String.toList_ofList] at hx
    exact hspells.ascii x (List.mem_append_right _ hx)
  refine ⟨taken.length, ?_, ?_, .ofString (String.ofList more), nodes,
    parse_eq_ok_iff.mpr ⟨ts, ?_, hts⟩⟩
  · rw [← Text.Bytes.length_chars, hsrc, List.length_append]
    exact Nat.le_add_right _ _
  · rwa [hsrc, List.drop_left, ← Nat.zero_add taken.length]
  · rwa [Text.Bytes.chars_append, htake, hmore]

/-- **A failure points at the first offence.** Whatever text is refused, the error carries the text
and a place in it. What stands in front of that place can be completed to the text of a pipeline,
unless a group was found to be empty; then the place is behind a closing bracket, and what stands in
front of this bracket can be completed. -/
theorem failure_is_first_offence (reg : Registry) (src : Text.Bytes) (e : Error)
    (h : parse reg src = .error e) :
    e.src = src ∧ e.pos ≤ src.codes.length ∧
      (e.reason ≠ .emptyGroup → Completable reg (src.take e.pos)) ∧
      (e.reason = .emptyGroup → 0 < e.pos ∧ src.chars[e.pos - 1]? = some ')' ∧
        Completable reg (src.take (e.pos - 1))) := by
  rw [parse] at h
  split at h
  · exact absurd h (by simp)
  next f hread =>
  obtain rfl := Except.error.inj h
  obtain ⟨nodes, ts, hts, hbreaks⟩ := read_breaks hread
  obtain ⟨n, hn, ⟨hreason, rfl⟩ | ⟨hreason, hpos, hbracket⟩, hcompletable⟩ :=
    hbreaks.exists_take hts
  · exact ⟨rfl, hn, fun _ => hcompletable, fun hempty => absurd hempty hreason⟩
  · rw [List.head?_drop] at hbracket
    have hlt : n + 1 ≤ src.codes.length := by
      rw [← Text.Bytes.length_chars]
      exact (List.getElem?_eq_some_iff.mp hbracket).1
    refine ⟨rfl, by rwa [← hpos] at hlt, fun hne => absurd hreason hne, fun _ => ?_⟩
    simp only [hpos, Nat.add_sub_cancel]
    exact ⟨Nat.succ_pos n, hbracket, hcompletable⟩

/-- A text with an empty group inside another group. -/
def hollowText : Text.Bytes := "fixpoint(tdce, repeat<2>( ), verify)"

theorem parse_hollowText : parse .builtin hollowText = .error ⟨27, hollowText, .emptyGroup⟩ := by
  rfl

/-- The place is behind the bracket, and what stands in front of the bracket can be completed. -/
theorem hollowText_points_at_bracket :
    parse .builtin hollowText = .error ⟨27, hollowText, .emptyGroup⟩ ∧
      hollowText.chars[26]? = some ')' ∧ Completable .builtin (hollowText.take 26) :=
  ⟨parse_hollowText,
    ((failure_is_first_offence .builtin hollowText _ parse_hollowText).2.2.2 rfl).2⟩

end Pipeline

end BranchFusion
