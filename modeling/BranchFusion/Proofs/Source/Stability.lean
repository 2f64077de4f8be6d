import BranchFusion.Proofs.Source.Naming
import BranchFusion.Proofs.Source.RoundTrip

/-!
# Printing is stable but for colons

What was read is spellable, so it can be printed and read again, with the same text the second time.
One thing is in the way. A value may have a name that ends in a colon, since a reader of words takes
all signs but separators; and a line that ends in a colon is taken for a label. Brackets and commas
are dropped when a line is read and put where the printer wants them, so the colon may come to stand
at the end of a line that was read without one there.

`BranchFusion.Module.stable_iff_colonless` says that this is all: the text of a module that was read
can be read again if and only if no line in it that is not a label ends in a colon, and if it can be
read, printing it again gives the same text.
-/

namespace BranchFusion

namespace Source

variable {fn : Func} {serial : Nat} {b : BlockId}

/-! ### Lines that end in a colon -/

/-- The first pass takes every line that ends in a colon for a label. -/
theorem isLabel_of_readLabels {l : Line} {rev : List Char}
    (hrev : l.text.toList.reverse = ':' :: rev) :
    ∀ {ls : List Line} {f : Func} {done : List (BlockId × List Line)} {last : Line}
      {r : Func × List (BlockId × List Line) × Line},
    readLabels f done last ls = .ok r → l ∈ ls → isLabel rev.reverse = true
  | [], _, _, _, _, _, hl => absurd hl (by simp)
  | x :: ls, f, done, _, r, h, hl => by
    rw [readLabels] at h
    rcases List.mem_cons.mp hl with rfl | hl
    · rw [hrev] at h
      simp only at h
      split at h
      · next hlabel => exact hlabel
      · exact absurd h (by simp)
    · split at h
      · split at h
        · dsimp only at h
          split at h
          · exact absurd h (by simp)
          · exact isLabel_of_readLabels hrev h hl
        · exact absurd h (by simp)
      · split at h
        · exact absurd h (by simp)
        · exact isLabel_of_readLabels hrev h hl

/-- A text that is a label and a colon is a word. -/
theorem isWord_of_isLabel {s : String} (hs : ';' ∉ s.toList) {rev : List Char}
    (hrev : s.toList.reverse = ':' :: rev) (hlabel : isLabel rev.reverse = true) : IsWord s := by
  have htext : s.toList = rev.reverse ++ [':'] := by
    rw [← List.reverse_reverse s.toList, hrev, List.reverse_cons]
  have hsemi : ';' ∉ (String.ofList rev.reverse).toList := by
    rw [String.toList_ofList]
    exact fun hmem => hs (htext ▸ List.mem_append_left _ hmem)
  have hfront := isName_label (s := String.ofList rev.reverse) (by simpa using hlabel) hsemi
  refine ⟨by simp [htext], fun c hc => ?_⟩
  rw [htext] at hc
  rcases List.mem_append.mp hc with hc | hc
  · exact hfront.plain c (by simpa using hc)
  · rw [List.mem_singleton.mp hc]
    decide

/-- A line of a block is not a label. If it ended in a colon and the rest were a label it would be a
single word, but the only such line is a return. -/
theorem not_isLabel_of_item {it : Item} (h : it.Writable fn.label) {rev : List Char}
    (hrev : (it.text fn.label).toList.reverse = ':' :: rev) : ¬isLabel rev.reverse = true := by
  intro hlabel
  have hword := isWord_of_isLabel (Item.isLine_text h).clean.2 hrev hlabel
  have hone : it.spelling fn.label = [it.text fn.label] := by
    rw [← Item.words_text h, words_of_isWord hword]
  rw [eq_ret_of_spelling hone] at hrev
  exact absurd hrev (by simp)

/-- **A function whose text can be read** has no line that ends in a colon. -/
theorem colonless_of_readFunc (hfn : fn.Spellable) {header : Line} {body : List Line} {fn' : Func}
    (hbody : body.map Line.text = fn.ids.flatMap (blockTexts fn))
    (h : readFunc serial header body = .ok fn') : fn.Colonless := by
  obtain ⟨draft, fn₀, blocks, last, u, d, -, hlabels, -⟩ := readFunc_eq_ok.mp h
  intro b hb s hs hlast
  obtain ⟨rev, hrev⟩ : ∃ rev, s.toList.reverse = ':' :: rev := by
    rw [← List.head?_reverse] at hlast
    exact List.head?_eq_some_iff.mp hlast
  have hmem : s ∈ body.map Line.text := by
    rw [hbody]
    exact List.mem_flatMap.mpr ⟨b, Func.mem_ids.mpr hb, List.mem_cons_of_mem _ hs⟩
  obtain ⟨l, hl, rfl⟩ := List.mem_map.mp hmem
  have hlabel := isLabel_of_readLabels hrev hlabels hl
  rw [Func.blockLines_eq] at hs
  obtain ⟨it, hit, htext⟩ := List.mem_map.mp hs
  rw [← htext] at hrev
  exact not_isLabel_of_item (hfn.writable hb hit) hrev hlabel

theorem colonless_of_readFuncs : ∀ {fns done fns' : List Func} {ls : List Line},
    (∀ fn ∈ fns, fn.Spellable) → ls.map Line.text = fns.flatMap funcTexts →
    readFuncs serial done none ls = .ok fns' → ∀ fn ∈ fns, fn.Colonless
  | [], _, _, _, _, _, _ => by simp
  | fn :: fns, done, fns', ls, hfns, hls, h => by
    obtain ⟨hfn, hfns⟩ := List.forall_mem_cons.mp hfns
    obtain ⟨header, body, brace, rest, rfl, hheader, hbody, hbrace, hls⟩ :=
      exists_lines_of_funcTexts hls
    rw [readFuncs_func hfn hheader hbody hbrace] at h
    cases hread : readFunc (serial + done.length) header body with
    | error e => simp [hread, bind, Except.bind] at h
    | ok fn' =>
      simp only [hread, bind, Except.bind] at h
      split at h
      · exact absurd h (by simp)
      · exact List.forall_mem_cons.mpr
          ⟨colonless_of_readFunc hfn hbody hread, colonless_of_readFuncs hfns hls h⟩

end Source

/-! ### Modules -/

/-- **Printing is stable but for colons.** The text of a module that was read can be read again,
with any serial numbers, if and only if no line of a block ends in a colon; and whatever is read
then has the same text. -/
theorem Module.stable_iff_colonless {src : String} {serial : Nat} {m : Module}
    (h : Module.parse src serial = .ok m) (serial' : Nat) :
    ((∃ m', Module.parse m.text serial' = .ok m') ↔ ∀ fn ∈ m.funcs, fn.Colonless) ∧
      ∀ m', Module.parse m.text serial' = .ok m' → m'.text = m.text := by
  have hspellable := Source.spellable_of_parse h
  have hcolonless : ∀ {m'}, Module.parse m.text serial' = .ok m' →
      ∀ fn ∈ m.funcs, fn.Colonless := by
    intro m' hparse
    rw [Module.parse] at hparse
    cases hread : Source.readFuncs serial' [] none (Source.readLines m.text) with
    | error e =>
      rw [hread] at hparse
      exact absurd hparse (by simp [Except.map])
    | ok fns' =>
      exact Source.colonless_of_readFuncs hspellable (Source.lineTexts_moduleText hspellable) hread
  have hstable := fun hcolon => Module.exists_parse_text hspellable hcolon
    (Source.listed_of_parse h).names serial'
  refine ⟨⟨?_, fun hcolon => ?_⟩, fun m' hparse => ?_⟩
  · rintro ⟨m', hparse⟩
    exact hcolonless hparse
  · obtain ⟨m', hparse, -, -⟩ := hstable hcolon
    exact ⟨m', hparse⟩
  · obtain ⟨m'', hparse', -, htext⟩ := hstable (hcolonless hparse)
    obtain rfl : m'' = m' := Except.ok.inj (hparse'.symm.trans hparse)
    exact htext

/-- A program with a value whose name ends in a colon, and does not come last on its line. -/
def innerColonText : String :=
  "func @f(%x:, %y) \x7b\na:\n  ret (%x:) %y\n\x7d\n"

/-- The function of this program. -/
def innerColon : Func where
  serial := 0
  name := "f"
  root := some ⟨0, 0⟩
  params := [⟨0, 0, "x:"⟩, ⟨0, 1, "y"⟩]
  values := #[⟨0, 0, "x:"⟩, ⟨0, 1, "y"⟩]
  blocks := #[{ label := "a", term := some (.ret [⟨0, 0, "x:"⟩, ⟨0, 1, "y"⟩]) }]

theorem parse_innerColonText : Module.parse innerColonText = .ok ⟨[innerColon]⟩ := by
  decide +kernel

/-- Its text is stable, although it has other brackets and commas than the program. -/
theorem innerColon_stable : ∃ m', Module.parse (Module.text ⟨[innerColon]⟩) = .ok m' ∧
    m'.text = Module.text ⟨[innerColon]⟩ := by
  have hlines : ∀ b ∈ innerColon.ids, ∀ s ∈ innerColon.blockLines b,
      s.toList.getLast? ≠ some ':' := by
    decide +kernel
  have hcolonless : ∀ fn ∈ [innerColon], fn.Colonless := by
    intro fn hfn b hb
    obtain rfl : fn = innerColon := by simpa using hfn
    exact hlines b (Func.mem_ids.mpr hb)
  obtain ⟨hiff, htext⟩ := Module.stable_iff_colonless parse_innerColonText 0
  obtain ⟨m', hparse⟩ := hiff.mpr hcolonless
  exact ⟨m', hparse, htext m' hparse⟩

/-! ### A colon that moves to the end of its line -/

/-- A program with a value whose name ends in a colon, and which comes last on its line but for a
bracket. -/
def hiddenColonText : String :=
  "func @f(%x:) \x7b\na:\n  ret (%x:)\n\x7d\n"

/-- The function of this program. -/
def hiddenColon : Func where
  serial := 0
  name := "f"
  root := some ⟨0, 0⟩
  params := [⟨0, 0, "x:"⟩]
  values := #[⟨0, 0, "x:"⟩]
  blocks := #[{ label := "a", term := some (.ret [⟨0, 0, "x:"⟩]) }]

/-- The printer drops the bracket, and the reader takes the line for a label. -/
theorem hiddenColon_not_stable :
    Module.parse hiddenColonText = .ok ⟨[hiddenColon]⟩ ∧
      Module.text ⟨[hiddenColon]⟩ = "func @f(%x:) \x7b\na:\n    ret %x:\n\x7d\n" ∧
      Module.parse (Module.text ⟨[hiddenColon]⟩) =
        .error ⟨⟨3, "ret %x:"⟩, .invalidLabel "ret %x"⟩ := by
  decide +kernel

end BranchFusion
