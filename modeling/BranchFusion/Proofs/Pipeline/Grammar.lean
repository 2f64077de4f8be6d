import BranchFusion.Pipeline.Parser
import BranchFusion.Proofs.Outcome
import BranchFusion.Proofs.Text.Numeral
import Mathlib.Data.List.TakeWhile

/-!
# The grammar of pipelines

What the text of a pipeline is, said without a reader. A text *spells* tokens, which are words and
signs (`BranchFusion.Pipeline.Spells`): blanks, tabs and line ends may stand between tokens, and a
word is as long as it can be. Tokens form items, and items with commas between them form a list
(`BranchFusion.Pipeline.Item` and `BranchFusion.Pipeline.Items`):

```
list := item (',' item)*
item := NAME | 'repeat' '<' COUNT '>' '(' list ')' | 'fixpoint' '(' list ')'
```

The reader is right about this grammar in both directions. Whatever it reads has a derivation
(`BranchFusion.Pipeline.list_sound`), and whatever has a derivation it reads, up to the token that
does not belong to it any more (`BranchFusion.Pipeline.list_complete`). The bound on its calls is
twice the number of tokens, so it is never met. Reading is a function, so a text is the text of one
pipeline at most; `BranchFusion.Pipeline.parse_accepts_exactly_the_grammar` puts this together.
-/

namespace BranchFusion.Pipeline

/-! ### Tokens -/

/-- A token of the text of a pipeline. -/
inductive Token
  /-- A run of characters of names. -/
  | word (w : String)
  | sign (c : Char)
deriving DecidableEq, Repr

/-- The signs of pipelines. -/
def isSign (c : Char) : Bool := c == ',' || c == '(' || c == ')' || c == '<' || c == '>'

/-- **A text spells tokens.** Gaps stand where they like; a word ends where the characters of names
end. -/
inductive Spells : List Token → List Char → Prop
  | done : Spells [] []
  | gap {ts : List Token} {c : Char} {cs : List Char} (hc : Cursor.isGap c) (h : Spells ts cs) :
    Spells ts (c :: cs)
  | sign {ts : List Token} {c : Char} {cs : List Char} (hc : isSign c) (h : Spells ts cs) :
    Spells (.sign c :: ts) (c :: cs)
  | word {ts : List Token} {w : String} {cs : List Char} (hw : Registry.isName w)
    (hmax : ∀ c ∈ cs.head?, Registry.isNameChar c = false) (h : Spells ts cs) :
    Spells (.word w :: ts) (w.toList ++ cs)

/-! ### Derivations -/

/-- A word that stands for a pass: a known name, and not the word of a group. -/
structure IsPassName (reg : Registry) (w : String) : Prop where
  known : (∃ p, reg.find? w = some p) ∨ w = Registry.verifierName
  not_repeat : w ≠ "repeat"
  not_fixpoint : w ≠ "fixpoint"

/-- A word that stands for the count of a group: a decimal numeral for a number from one to
`2 ^ 63 - 1`. -/
structure IsCount (w : String) (n : Nat) : Prop where
  nonempty : w ≠ ""
  digits : ∀ c ∈ w.toList, c.isDigit
  value : Nat.ofDigitChars 10 w.toList 0 = n
  positive : 1 ≤ n
  bounded : n ≤ 2 ^ 63 - 1

mutual

/-- **The tokens of an item.** -/
inductive Item (reg : Registry) : Node → List Token → Prop
  | pass {w : String} (hw : IsPassName reg w) : Item reg (.pass w) [.word w]
  | times {w : String} {n : Nat} {nodes : List Node} {ts : List Token} (hw : IsCount w n)
    (h : Items reg nodes ts) : Item reg (.times n nodes)
      (.word "repeat" :: .sign '<' :: .word w :: .sign '>' :: .sign '(' :: ts ++ [.sign ')'])
  | fixpoint {nodes : List Node} {ts : List Token} (h : Items reg nodes ts) :
    Item reg (.fixpoint nodes) (.word "fixpoint" :: .sign '(' :: ts ++ [.sign ')'])

/-- **The tokens of a list**: one item, or an item, a comma and a list. -/
inductive Items (reg : Registry) : List Node → List Token → Prop
  | one {node : Node} {ts : List Token} (h : Item reg node ts) : Items reg [node] ts
  | more {node : Node} {nodes : List Node} {ts us : List Token} (h : Item reg node ts)
    (h' : Items reg nodes us) : Items reg (node :: nodes) (ts ++ .sign ',' :: us)

end

variable {reg : Registry} {c c' : Cursor} {ts us : List Token} {cs : List Char} {w : String}
  {s : Char} {node : Node} {nodes : List Node}

theorem knows_iff : reg.knows w ↔ (∃ p, reg.find? w = some p) ∨ w = Registry.verifierName := by
  simp [Registry.knows, Option.isSome_iff_exists]

/-- The counts that are read are the counts of the grammar. -/
theorem count?_eq_some_iff {n : Nat} : count? w = some n ↔ IsCount w n := by
  rw [count?]
  constructor
  · intro h
    split at h
    · next m hm =>
      split at h
      · next hbounds =>
        obtain rfl := Option.some.inj h
        obtain ⟨hne, hdigits, hvalue, -⟩ := Text.Numeral.readDecimal_eq_ok_iff.mp hm
        refine ⟨?_, hdigits, hvalue, hbounds.1, ?_⟩
        · simpa using hne
        · have := hbounds.2
          norm_num at this ⊢
          omega
      · exact absurd h (by simp)
    · exact absurd h (by simp)
  · rintro ⟨hne, hdigits, hvalue, hpos, hbound⟩
    have hn : n < Text.Numeral.signedBound := by
      norm_num at hbound ⊢
      omega
    have hread : Text.Numeral.readDecimal w.toList = .ok n := by
      refine Text.Numeral.readDecimal_eq_ok_iff.mpr ⟨by simpa using hne, hdigits, hvalue, ?_⟩
      exact hn.trans (by decide)
    rw [hread]
    exact if_pos ⟨hpos, hn⟩

/-! ### Three kinds of characters -/

theorem not_isNameChar_of_isGap {x : Char} (h : Cursor.isGap x) :
    Registry.isNameChar x = false ∧ isSign x = false := by
  simp only [Cursor.isGap, Bool.or_eq_true, beq_iff_eq] at h
  rcases h with ((rfl | rfl) | rfl) | rfl <;> decide

theorem not_isNameChar_of_isSign {x : Char} (h : isSign x) :
    Registry.isNameChar x = false ∧ Cursor.isGap x = false := by
  simp only [isSign, Bool.or_eq_true, beq_iff_eq] at h
  rcases h with (((rfl | rfl) | rfl) | rfl) | rfl <;> decide

/-- A name is a first character, and characters of names. -/
theorem exists_cons_of_isName (hw : Registry.isName w) :
    ∃ x xs, w.toList = x :: xs ∧ ∀ y ∈ x :: xs, Registry.isNameChar y := by
  rw [Registry.isName, Bool.and_eq_true, List.all_eq_true] at hw
  obtain ⟨x, xs, hx⟩ := List.exists_cons_of_ne_nil (l := w.toList) (by simpa using hw.1)
  exact ⟨x, xs, hx, hx ▸ hw.2⟩

/-- What follows a word has no more characters of it. -/
theorem takeWhile_word (hw : Registry.isName w)
    (hmax : ∀ x ∈ cs.head?, Registry.isNameChar x = false) :
    (w.toList ++ cs).takeWhile Registry.isNameChar = w.toList ∧
      (w.toList ++ cs).dropWhile Registry.isNameChar = cs := by
  obtain ⟨x, xs, hxs, hall⟩ := exists_cons_of_isName hw
  rw [← hxs] at hall
  have hstop : cs.takeWhile Registry.isNameChar = [] ∧ cs.dropWhile Registry.isNameChar = cs := by
    cases cs with
    | nil => exact ⟨rfl, rfl⟩
    | cons d ds => simp [hmax d rfl]
  rw [List.takeWhile_append_of_pos hall, List.dropWhile_append_of_pos hall, hstop.1, hstop.2,
    List.append_nil]
  exact ⟨rfl, rfl⟩

namespace Spells

/-- There are no more tokens than characters. -/
theorem length_le (h : Spells ts cs) : ts.length ≤ cs.length := by
  induction h with
  | done => exact le_rfl
  | gap _ _ ih => exact ih.trans (Nat.le_succ _)
  | sign _ _ ih => exact Nat.succ_le_succ ih
  | word hw _ _ ih =>
    obtain ⟨x, xs, hxs, -⟩ := exists_cons_of_isName hw
    rw [hxs, List.length_cons, List.length_append, List.length_cons]
    omega

/-- A gap in front makes no difference. -/
theorem of_gap {x : Char} (hx : Cursor.isGap x) (h : Spells ts (x :: cs)) : Spells ts cs := by
  generalize hall : x :: cs = all at h
  cases h with
  | done => exact absurd hall (by simp)
  | gap _ h =>
    obtain ⟨-, rfl⟩ := List.cons.inj hall
    exact h
  | sign hc _ =>
    obtain ⟨rfl, -⟩ := List.cons.inj hall
    simp [(not_isNameChar_of_isGap hx).2] at hc
  | word hw _ _ =>
    obtain ⟨y, ys, hys, hname⟩ := exists_cons_of_isName hw
    rw [hys, List.cons_append] at hall
    obtain ⟨rfl, -⟩ := List.cons.inj hall
    simpa [(not_isNameChar_of_isGap hx).1] using hname x (by simp)

theorem dropWhile_isGap : Spells ts (cs.dropWhile Cursor.isGap) ↔ Spells ts cs := by
  induction cs with
  | nil => rfl
  | cons x cs ih =>
    rw [List.dropWhile_cons]
    split
    · next hx => exact ih.trans ⟨.gap hx, of_gap hx⟩
    · rfl

/-- The skipping of gaps makes no difference. -/
theorem skip_iff : Spells ts c.skip.rest ↔ Spells ts c.rest := dropWhile_isGap

/-- A text that starts with a sign spells this sign first. -/
theorem of_isSign (hs : isSign s) (h : Spells ts (s :: cs)) :
    ∃ us, ts = .sign s :: us ∧ Spells us cs := by
  generalize hall : s :: cs = all at h
  cases h with
  | done => exact absurd hall (by simp)
  | gap hc _ =>
    obtain ⟨rfl, -⟩ := List.cons.inj hall
    simp [(not_isNameChar_of_isSign hs).2] at hc
  | sign _ h =>
    obtain ⟨rfl, rfl⟩ := List.cons.inj hall
    exact ⟨_, rfl, h⟩
  | word hw _ _ =>
    obtain ⟨y, ys, hys, hname⟩ := exists_cons_of_isName hw
    rw [hys, List.cons_append] at hall
    obtain ⟨rfl, -⟩ := List.cons.inj hall
    simpa [(not_isNameChar_of_isSign hs).1] using hname s (by simp)

/-- Behind the gaps stands the first token: nothing, if there is none, -/
theorem nothing_first (h : Spells [] cs) : cs.dropWhile Cursor.isGap = [] := by
  generalize hall : ([] : List Token) = all at h
  induction h with
  | done => rfl
  | gap hc _ ih =>
    rw [List.dropWhile_cons_of_pos hc]
    exact ih hall
  | sign => exact absurd hall (by simp)
  | word => exact absurd hall (by simp)

/-- or a sign, and the text of the others, -/
theorem sign_first (h : Spells (.sign s :: ts) cs) :
    ∃ rest, cs.dropWhile Cursor.isGap = s :: rest ∧ Spells ts rest := by
  generalize hall : Token.sign s :: ts = all at h
  induction h with
  | done => exact absurd hall (by simp)
  | gap hc _ ih =>
    rw [List.dropWhile_cons_of_pos hc]
    exact ih hall
  | @sign us x rest hx h =>
    obtain ⟨hsign, rfl⟩ := List.cons.inj hall
    obtain rfl := Token.sign.inj hsign
    exact ⟨rest, List.dropWhile_cons_of_neg (by simp [not_isNameChar_of_isSign hx]), h⟩
  | word => exact absurd hall (by simp)

/-- or a word, as long as it can be, and the text of the others. -/
theorem word_first (h : Spells (.word w :: ts) cs) :
    ∃ rest, cs.dropWhile Cursor.isGap = w.toList ++ rest ∧ Registry.isName w ∧
      (∀ x ∈ rest.head?, Registry.isNameChar x = false) ∧ Spells ts rest := by
  generalize hall : Token.word w :: ts = all at h
  induction h with
  | done => exact absurd hall (by simp)
  | gap hc _ ih =>
    rw [List.dropWhile_cons_of_pos hc]
    exact ih hall
  | sign => exact absurd hall (by simp)
  | @word us w' rest hw hmax h =>
    obtain ⟨hword, rfl⟩ := List.cons.inj hall
    obtain rfl := Token.word.inj hword
    obtain ⟨y, ys, hys, hname⟩ := exists_cons_of_isName hw
    refine ⟨rest, ?_, hw, hmax, h⟩
    rw [hys, List.cons_append]
    refine List.dropWhile_cons_of_neg fun hgap => ?_
    simpa [(not_isNameChar_of_isGap hgap).1] using hname y (by simp)

/-- **A text spells one row of tokens at most.** -/
theorem unique (h : Spells ts cs) (h' : Spells us cs) : ts = us := by
  induction h generalizing us with
  | done =>
    generalize hall : ([] : List Char) = all at h'
    cases h' with
    | done => rfl
    | gap => exact absurd hall (by simp)
    | sign => exact absurd hall (by simp)
    | word hw _ _ =>
      obtain ⟨y, ys, hys, -⟩ := exists_cons_of_isName hw
      exact absurd hall (by simp [hys])
  | gap hc _ ih => exact ih (of_gap hc h')
  | sign hc _ ih =>
    obtain ⟨us, rfl, hus⟩ := of_isSign hc h'
    rw [ih hus]
  | @word ts w cs hw hmax _ ih =>
    obtain ⟨y, ys, hys, hname⟩ := exists_cons_of_isName hw
    have hy := hname y (by simp)
    generalize hall : w.toList ++ cs = all at h'
    cases h' with
    | done => exact absurd hall (by simp [hys])
    | gap hc _ =>
      rw [hys, List.cons_append] at hall
      obtain ⟨rfl, -⟩ := List.cons.inj hall
      simp [(not_isNameChar_of_isGap hc).1] at hy
    | sign hc _ =>
      rw [hys, List.cons_append] at hall
      obtain ⟨rfl, -⟩ := List.cons.inj hall
      simp [(not_isNameChar_of_isSign hc).1] at hy
    | @word us w' cs' hw' hmax' h' =>
      -- both words are the first run of characters of names
      have hword := takeWhile_word hw hmax
      rw [hall, (takeWhile_word hw' hmax').1, (takeWhile_word hw' hmax').2] at hword
      obtain ⟨hw, rfl⟩ := hword
      rw [String.toList_injective hw, ih h']

end Spells

/-! ### Reading tokens -/

theorem expect_eq_ok_iff : c.expect s = .ok c' ↔ c.eat? s = some c' := by
  rw [Cursor.expect]
  cases c.eat? s with
  | none => simp [Cursor.fail]
  | some d => simp

/-- A word in front of the text does not go on in it. -/
def Parted (cs : List Char) : Prop := ∀ x ∈ cs.head?, Registry.isNameChar x = false

theorem Parted.append {ds xs : List Char} (h : Parted cs → Parted ds) :
    Parted (xs ++ cs) → Parted (xs ++ ds) := by
  cases xs with
  | nil => exact h
  | cons x xs => exact id

/-- **The tokens that a cursor has moved over.** The text between the two places spells them, and
would do so if something else followed: only a word must not get longer. -/
def Covers (c c' : Cursor) (ts : List Token) : Prop :=
  ∃ taken, c.rest = taken ++ c'.rest ∧ c'.pos = c.pos + taken.length ∧
    ∀ us cs, (Parted c'.rest → Parted cs) → Spells us cs → Spells (ts ++ us) (taken ++ cs)

/-- In front of what is left stand the tokens that were read. -/
theorem Covers.spells (h : Covers c c' ts) (hus : Spells us c'.rest) :
    Spells (ts ++ us) c.rest := by
  obtain ⟨taken, hrest, -, hspells⟩ := h
  rw [hrest]
  exact hspells us c'.rest id hus

theorem Covers.trans {c'' : Cursor} (h : Covers c c' ts) (h' : Covers c' c'' us) :
    Covers c c'' (ts ++ us) := by
  obtain ⟨taken, hrest, hpos, hspells⟩ := h
  obtain ⟨taken', hrest', hpos', hspells'⟩ := h'
  refine ⟨taken ++ taken', ?_, ?_, fun vs cs hcs hvs => ?_⟩
  · rw [hrest, hrest', List.append_assoc]
  · rw [hpos', hpos, List.length_append, Nat.add_assoc]
  · rw [List.append_assoc, List.append_assoc]
    refine hspells _ _ ?_ (hspells' vs cs hcs hvs)
    rw [hrest']
    exact Parted.append hcs

theorem covers_skip : Covers c c.skip [] := by
  refine ⟨c.rest.takeWhile Cursor.isGap, (List.takeWhile_append_dropWhile ..).symm, rfl,
    fun us cs _ hus => ?_⟩
  have hgaps : ∀ x ∈ c.rest.takeWhile Cursor.isGap, Cursor.isGap x :=
    fun _ => List.mem_takeWhile_imp
  generalize c.rest.takeWhile Cursor.isGap = gaps at hgaps
  induction gaps with
  | nil => exact hus
  | cons x gaps ih =>
    obtain ⟨hx, hgaps⟩ := List.forall_mem_cons.mp hgaps
    exact .gap hx (ih hgaps)

/-- A sign that is read stands behind the gaps. -/
theorem skip_of_eat (h : c.eat? s = some c') :
    c.skip.rest = s :: c'.rest ∧ c'.pos = c.skip.pos + 1 := by
  rw [Cursor.eat?] at h
  split at h
  · next d rest hd =>
    split at h
    · next heq =>
      obtain rfl := Option.some.inj h
      exact ⟨heq ▸ hd, rfl⟩
    · exact absurd h (by simp)
  · exact absurd h (by simp)

theorem covers_sign (hs : isSign s) (h : c.eat? s = some c') : Covers c c' [.sign s] := by
  obtain ⟨hrest, hpos⟩ := skip_of_eat h
  exact covers_skip.trans ⟨[s], hrest, hpos, fun us cs _ hus => .sign hs hus⟩

theorem covers_word (h : c.word = (w, c')) (hne : w ≠ "") : Covers c c' [.word w] := by
  rw [Cursor.word] at h
  obtain ⟨hw, rfl⟩ := Prod.mk.inj h
  have hlist : c.skip.rest.takeWhile Registry.isNameChar = w.toList := by
    rw [← hw, String.toList_ofList]
  refine covers_skip.trans ⟨w.toList, ?_, ?_, fun us cs hcs hus => ?_⟩
  · rw [← hlist]
    exact (List.takeWhile_append_dropWhile ..).symm
  · rw [← hlist]
  · refine .word ?_ (hcs fun x hx => ?_) hus
    · rw [Registry.isName, Bool.and_eq_true, List.all_eq_true, ← hlist]
      exact ⟨by simpa using hne, fun x hx => List.mem_takeWhile_imp hx⟩
    · have hhead := List.head?_dropWhile_not Registry.isNameChar c.skip.rest
      rw [Option.mem_def.mp hx] at hhead
      simpa using hhead

/-- A sign that comes next is read. -/
theorem exists_eat (h : Spells (.sign s :: ts) c.rest) :
    ∃ c', c.eat? s = some c' ∧ Spells ts c'.rest := by
  obtain ⟨rest, hrest, h⟩ := h.sign_first
  have hskip : c.skip.rest = s :: rest := hrest
  rw [Cursor.eat?, hskip]
  exact ⟨_, if_pos rfl, h⟩

/-- Where another token comes next, a sign is not read. -/
theorem eat?_eq_none (hs : isSign s) (h : Spells ts c.rest) (hts : ts.head? ≠ some (.sign s)) :
    c.eat? s = none := by
  rw [← Spells.skip_iff] at h
  rw [Cursor.eat?]
  split
  · next d rest hd =>
    refine if_neg ?_
    rintro rfl
    rw [hd] at h
    obtain ⟨us, rfl, -⟩ := Spells.of_isSign hs h
    exact hts rfl
  · rfl

/-- A word that comes next is read, to its end. -/
theorem exists_word (h : Spells (.word w :: ts) c.rest) :
    ∃ c', c.word = (w, c') ∧ Spells ts c'.rest := by
  obtain ⟨rest, hrest, hw, hmax, h⟩ := h.word_first
  have hskip : c.skip.rest = w.toList ++ rest := hrest
  obtain ⟨htake, hdrop⟩ := takeWhile_word hw hmax
  refine ⟨⟨c.skip.pos + w.toList.length, rest⟩, ?_, h⟩
  rw [Cursor.word, Cursor.span, hskip, htake, hdrop]
  simp only [String.ofList_toList]

/-! ### Everything that is read has a derivation -/

mutual

theorem item_sound : ∀ {fuel : Nat} {c c' : Cursor} {node : Node},
    item reg fuel c = .ok (node, c') → ∃ ts, Item reg node ts ∧ Covers c c' ts
  | 0, c, _, _, h => absurd h (by simp [item, Cursor.fail])
  | fuel + 1, c, c', node, h => by
    rw [item] at h
    rcases hword : c.word with ⟨w, after⟩
    simp only [hword] at h
    split at h
    · exact absurd h (by simp [Cursor.fail])
    next hne =>
    have hcovers := covers_word hword hne
    split at h
    · next hrepeat =>
      subst hrepeat
      obtain ⟨c₁, hless, h⟩ := ok_of_bind h
      rcases hnum : c₁.word with ⟨num, c₂⟩
      simp only [hnum] at h
      split at h
      · exact absurd h (by simp [Cursor.fail])
      next n hn =>
      obtain ⟨c₃, hgreater, h⟩ := ok_of_bind h
      obtain ⟨⟨nodes, c₄⟩, hbody, h⟩ := ok_of_bind h
      obtain ⟨rfl, rfl⟩ := Prod.mk.inj (Except.ok.inj h)
      obtain ⟨ts, hts, hgroup⟩ := body_sound hbody
      have hcount := count?_eq_some_iff.mp hn
      have hopened := covers_sign (s := '<') rfl (expect_eq_ok_iff.mp hless)
      have hclosed := covers_sign (s := '>') rfl (expect_eq_ok_iff.mp hgreater)
      have hnumber := covers_word hnum hcount.nonempty
      exact ⟨_, .times hcount hts,
        hcovers.trans (hopened.trans (hnumber.trans (hclosed.trans hgroup)))⟩
    split at h
    · next hfixpoint =>
      subst hfixpoint
      obtain ⟨⟨nodes, c₁⟩, hbody, h⟩ := ok_of_bind h
      obtain ⟨rfl, rfl⟩ := Prod.mk.inj (Except.ok.inj h)
      obtain ⟨ts, hts, hcovers'⟩ := body_sound hbody
      exact ⟨_, .fixpoint hts, hcovers.trans hcovers'⟩
    next hrepeat hfixpoint =>
    split at h
    · next hknown =>
      obtain ⟨rfl, rfl⟩ := Prod.mk.inj (Except.ok.inj h)
      exact ⟨_, .pass ⟨knows_iff.mp hknown, hrepeat, hfixpoint⟩, hcovers⟩
    · exact absurd h (by simp [Cursor.fail])

theorem body_sound : ∀ {fuel : Nat} {c c' : Cursor} {nodes : List Node},
    body reg fuel c = .ok (nodes, c') →
      ∃ ts, Items reg nodes ts ∧ Covers c c' (.sign '(' :: ts ++ [.sign ')'])
  | 0, c, _, _, h => absurd h (by simp [body, Cursor.fail])
  | fuel + 1, c, c', nodes, h => by
    rw [body] at h
    obtain ⟨c₁, hopen, h⟩ := ok_of_bind h
    split at h
    · exact absurd h (by simp [Cursor.fail])
    obtain ⟨⟨nodes', c₂⟩, hlist, h⟩ := ok_of_bind h
    obtain ⟨c₃, hclose, h⟩ := ok_of_bind h
    obtain ⟨rfl, rfl⟩ := Prod.mk.inj (Except.ok.inj h)
    obtain ⟨ts, hts, hcovers⟩ := list_sound hlist
    refine ⟨ts, hts, ?_⟩
    have hopened := covers_sign (s := '(') rfl (expect_eq_ok_iff.mp hopen)
    have hclosed := covers_sign (s := ')') rfl (expect_eq_ok_iff.mp hclose)
    exact hopened.trans (hcovers.trans hclosed)

/-- **A list that is read has a derivation.** -/
theorem list_sound : ∀ {fuel : Nat} {c c' : Cursor} {nodes : List Node},
    list reg fuel c = .ok (nodes, c') → ∃ ts, Items reg nodes ts ∧ Covers c c' ts
  | 0, c, _, _, h => absurd h (by simp [list, Cursor.fail])
  | fuel + 1, c, c', nodes, h => by
    rw [list] at h
    obtain ⟨⟨node, c₁⟩, hitem, h⟩ := ok_of_bind h
    obtain ⟨ts, hts, hcovers⟩ := item_sound hitem
    dsimp only at h
    split at h
    · obtain ⟨rfl, rfl⟩ := Prod.mk.inj (Except.ok.inj h)
      exact ⟨ts, .one hts, by simpa using hcovers.trans covers_skip⟩
    · next c₂ hcomma =>
      obtain ⟨⟨nodes', c₃⟩, hlist, h⟩ := ok_of_bind h
      obtain ⟨rfl, rfl⟩ := Prod.mk.inj (Except.ok.inj h)
      obtain ⟨us, hus, hcovers'⟩ := list_sound hlist
      exact ⟨_, .more hts hus, hcovers.trans ((covers_sign (s := ',') rfl hcomma).trans hcovers')⟩

end

/-! ### Everything with a derivation is read -/

theorem Item.exists_word (h : Item reg node ts) : ∃ w us, ts = .word w :: us := by
  cases h with
  | pass => exact ⟨_, _, rfl⟩
  | times => exact ⟨_, _, rfl⟩
  | fixpoint => exact ⟨_, _, rfl⟩

/-- A list starts with a word, so the brackets around one are never taken for an empty group. -/
theorem Items.exists_word (h : Items reg nodes ts) : ∃ w us, ts = .word w :: us := by
  cases h with
  | one h => exact h.exists_word
  | more h _ =>
    obtain ⟨w, us, rfl⟩ := h.exists_word
    exact ⟨w, _, rfl⟩

/-- A group is read if the list in it is. -/
theorem body_complete (fuel : Nat) (hitems : Items reg nodes ts)
    (hlist : ∀ {c : Cursor} {us : List Token}, us.head? ≠ some (.sign ',') →
      Spells (ts ++ us) c.rest → ∃ c', list reg fuel c = .ok (nodes, c') ∧ Spells us c'.rest)
    (h : Spells (.sign '(' :: ts ++ .sign ')' :: us) c.rest) :
    ∃ c', body reg (fuel + 1) c = .ok (nodes, c') ∧ Spells us c'.rest := by
  obtain ⟨c₁, hopen, h⟩ := exists_eat h
  obtain ⟨c₂, hnodes, h'⟩ := hlist (by simp) h
  obtain ⟨c₃, hclose, h'⟩ := exists_eat h'
  obtain ⟨w, vs, rfl⟩ := hitems.exists_word
  have hempty : c₁.eat? ')' = none := eat?_eq_none rfl h (by simp)
  refine ⟨c₃, ?_, h'⟩
  rw [body, expect_eq_ok_iff.mpr hopen]
  simp only [bind, Except.bind, hempty, hnodes, expect_eq_ok_iff.mpr hclose]
  rfl

mutual

/-- **An item with a derivation is read.** An item takes at most two calls for each of its tokens,
less one. -/
theorem item_complete : ∀ {node : Node} {ts : List Token}, Item reg node ts →
    ∀ (fuel : Nat) {c : Cursor} {us : List Token}, 2 * ts.length ≤ fuel + 1 →
      Spells (ts ++ us) c.rest → ∃ c', item reg fuel c = .ok (node, c') ∧ Spells us c'.rest
  | _, _, .pass (w := w) hw, fuel, c, us, hfuel, h => by
    obtain ⟨fuel, rfl⟩ : ∃ f, fuel = f + 1 := ⟨fuel - 1, by simp at hfuel; omega⟩
    obtain ⟨-, -, hname, -⟩ := h.word_first
    have hne : w ≠ "" := by
      rintro rfl
      exact absurd hname (by decide)
    obtain ⟨c', hword, h⟩ := exists_word h
    refine ⟨c', ?_, h⟩
    rw [item]
    simp only [hword, if_neg hne, if_neg hw.not_repeat, if_neg hw.not_fixpoint,
      if_pos (knows_iff.mpr hw.known)]
  | _, _, .times hw hitems, fuel, c, us, hfuel, h => by
    simp only [List.cons_append, List.length_cons, List.length_append, List.length_nil] at hfuel
    obtain ⟨fuel, rfl⟩ : ∃ f, fuel = f + 2 := ⟨fuel - 2, by omega⟩
    simp only [List.cons_append, List.append_assoc, List.nil_append] at h
    obtain ⟨c₁, hrepeat, h⟩ := exists_word h
    obtain ⟨c₂, hless, h⟩ := exists_eat h
    obtain ⟨c₃, hcount, h⟩ := exists_word h
    obtain ⟨c₄, hgreater, h⟩ := exists_eat h
    obtain ⟨c₅, hbody, h⟩ := body_complete fuel hitems (list_complete hitems fuel (by omega)) h
    refine ⟨c₅, ?_, h⟩
    rw [item]
    simp only [hrepeat, if_neg (show "repeat" ≠ "" by decide), if_true, bind, Except.bind,
      expect_eq_ok_iff.mpr hless, hcount, count?_eq_some_iff.mpr hw, expect_eq_ok_iff.mpr hgreater,
      hbody]
    rfl
  | _, _, .fixpoint hitems, fuel, c, us, hfuel, h => by
    simp only [List.cons_append, List.length_cons, List.length_append, List.length_nil] at hfuel
    obtain ⟨fuel, rfl⟩ : ∃ f, fuel = f + 2 := ⟨fuel - 2, by omega⟩
    simp only [List.cons_append, List.append_assoc, List.nil_append] at h
    obtain ⟨c₁, hfixpoint, h⟩ := exists_word h
    obtain ⟨c₂, hbody, h⟩ := body_complete fuel hitems (list_complete hitems fuel (by omega)) h
    refine ⟨c₂, ?_, h⟩
    rw [item]
    simp only [hfixpoint, if_neg (show "fixpoint" ≠ "" by decide),
      if_neg (show "fixpoint" ≠ "repeat" by decide), if_true, bind, Except.bind, hbody]
    rfl

/-- **A list with a derivation is read**, if no comma follows it. -/
theorem list_complete : ∀ {nodes : List Node} {ts : List Token}, Items reg nodes ts →
    ∀ (fuel : Nat) {c : Cursor} {us : List Token}, 2 * ts.length ≤ fuel →
      us.head? ≠ some (.sign ',') → Spells (ts ++ us) c.rest →
        ∃ c', list reg fuel c = .ok (nodes, c') ∧ Spells us c'.rest
  | _, _, .one hitem, fuel, c, us, hfuel, hus, h => by
    obtain ⟨w, vs, rfl⟩ := hitem.exists_word
    obtain ⟨fuel, rfl⟩ : ∃ f, fuel = f + 1 := ⟨fuel - 1, by simp at hfuel; omega⟩
    obtain ⟨c₁, hread, h⟩ := item_complete hitem fuel hfuel h
    have hcomma : c₁.eat? ',' = none := eat?_eq_none rfl h hus
    refine ⟨c₁.skip, ?_, Spells.skip_iff.mpr h⟩
    rw [list, hread]
    simp only [bind, Except.bind, hcomma]
    rfl
  | _, _, .more hitem hitems, fuel, c, us, hfuel, hus, h => by
    rw [List.length_append, List.length_cons] at hfuel
    obtain ⟨fuel, rfl⟩ : ∃ f, fuel = f + 1 := ⟨fuel - 1, by omega⟩
    rw [List.append_assoc, List.cons_append] at h
    obtain ⟨c₁, hread, h⟩ := item_complete hitem fuel (by omega) h
    obtain ⟨c₂, hcomma, h⟩ := exists_eat h
    obtain ⟨c₃, hrest, h⟩ := list_complete hitems fuel (by omega) hus h
    refine ⟨c₃, ?_, h⟩
    rw [list, hread]
    simp only [bind, Except.bind, hcomma, hrest]
    rfl

end

/-! ### The whole text -/

/-- **A text is read as a pipeline just when the grammar says so.** -/
theorem read_eq_ok_iff {src : List Char} :
    read reg src = .ok nodes ↔ ∃ ts, Spells ts src ∧ Items reg nodes ts := by
  rw [read]
  constructor
  · intro h
    obtain ⟨⟨nodes', c'⟩, hlist, h⟩ := ok_of_bind h
    dsimp only at h
    split at h
    · next hrest =>
      obtain rfl := Except.ok.inj h
      obtain ⟨ts, hts, hcovers⟩ := list_sound hlist
      refine ⟨ts, ?_, hts⟩
      have hend : Spells [] c'.rest := by
        rw [← Spells.skip_iff, hrest]
        exact .done
      simpa using hcovers.spells hend
    · exact absurd h (by simp [Cursor.fail])
  · rintro ⟨ts, hspells, hts⟩
    have hlength := hspells.length_le
    have hall : Spells (ts ++ []) (Cursor.mk 0 src).rest := by simpa using hspells
    obtain ⟨c', hlist, hend⟩ := list_complete hts (3 * src.length + 3) (by omega) (by simp) hall
    have hrest : c'.skip.rest = [] := hend.nothing_first
    rw [hlist]
    simp only [bind, Except.bind, hrest]
    rfl

/-- **The reader accepts exactly the grammar.** For every registry and every row of bytes, a
pipeline is read from the text if and only if the text spells tokens that derive it. The derivation
is unique: a text spells one row of tokens at most, and these derive one pipeline at most. -/
theorem parse_accepts_exactly_the_grammar (reg : Registry) (src : Text.Bytes) :
    (∀ nodes, parse reg src = .ok nodes ↔ ∃ ts, Spells ts src.chars ∧ Items reg nodes ts) ∧
      ∀ ts ts' nodes nodes', Spells ts src.chars → Items reg nodes ts →
        Spells ts' src.chars → Items reg nodes' ts' → ts = ts' ∧ nodes = nodes' := by
  have hread : ∀ nodes, parse reg src = .ok nodes ↔
      ∃ ts, Spells ts src.chars ∧ Items reg nodes ts := by
    intro nodes
    rw [← read_eq_ok_iff, parse]
    cases read reg src.chars with
    | ok nodes' => simp
    | error e => simp
  refine ⟨hread, fun ts ts' nodes nodes' hts hnodes hts' hnodes' => ⟨hts.unique hts', ?_⟩⟩
  have hparse := (hread nodes).mpr ⟨ts, hts, hnodes⟩
  have hparse' := (hread nodes').mpr ⟨ts', hts', hnodes'⟩
  exact Except.ok.inj (hparse.symm.trans hparse')

/-- A text with gaps where they may be, and a count with leading zeros. -/
def gappedText : Text.Bytes := " repeat< 007 >(\ttdce ,\r\nfixpoint(verify) )"

theorem parse_gappedText : parse .builtin gappedText =
    .ok [.times 7 [.pass "tdce", .fixpoint [.pass "verify"]]] := by
  rfl

/-- It has a derivation, and no other. -/
theorem gappedText_derived_once :
    ∃ ts, (Spells ts gappedText.chars ∧
        Items .builtin [.times 7 [.pass "tdce", .fixpoint [.pass "verify"]]] ts) ∧
      ∀ ts' nodes, Spells ts' gappedText.chars → Items .builtin nodes ts' →
        ts' = ts ∧ nodes = [.times 7 [.pass "tdce", .fixpoint [.pass "verify"]]] := by
  obtain ⟨haccepts, hunique⟩ := parse_accepts_exactly_the_grammar .builtin gappedText
  obtain ⟨ts, hts, hnodes⟩ := (haccepts _).mp parse_gappedText
  refine ⟨ts, ⟨hts, hnodes⟩, fun ts' nodes hts' hnodes' => ?_⟩
  exact hunique ts' ts nodes _ hts' hnodes' hts hnodes

end BranchFusion.Pipeline
