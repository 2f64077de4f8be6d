import BranchFusion.Proofs.ControlFlow
import BranchFusion.Proofs.Text.Cutting
import BranchFusion.Proofs.Text.Numeral
import BranchFusion.Source.Parser

/-!
# The words of a printed line

A printed line is put together from names and signs. If the names are words, and none of them could
be taken for something else, then the words that a reader sees in the line are the names it was made
of (`BranchFusion.Source.Item.words_text`). And it is a line: it has no blank at its ends, and a
comment does not start in it (`BranchFusion.Source.Item.isLine_text`).

There is one thing that can go wrong. A line that ends in a colon is taken for a label, and the line
ends in a colon if its last word is a value whose name does
(`BranchFusion.Source.Item.noColon_text`).

A line of a block is a phi, an instruction or the terminator. They are put under one type
(`BranchFusion.Source.Item`), so that what is said about every line is said once.
-/

namespace BranchFusion

/-- The function that an instruction calls. -/
def Instr.callee? : Instr → Option String
  | .call _ f _ => some f
  | _ => none

namespace Source

variable {a b s : String}

/-! ### Words -/

/-- **A word**: it is not empty, and has no separator and no semicolon in it. -/
structure IsWord (s : String) : Prop where
  ne_nil : s.toList ≠ []
  plain : ∀ c ∈ s.toList, isSeparator c = false ∧ c ≠ ';'

/-- **A name** that may stand at the end of a line: a word that does not end in a colon. -/
structure IsName (s : String) : Prop extends IsWord s where
  noColon : s.toList.getLast? ≠ some ':'

instance : DecidablePred IsWord := fun s =>
  decidable_of_iff (s.toList ≠ [] ∧ s.toList.all (fun c => !isSeparator c && c != ';') = true)
    ⟨fun h => ⟨h.1, by simpa using h.2⟩, fun h => ⟨h.ne_nil, by simpa using h.plain⟩⟩

instance : DecidablePred IsName := fun s =>
  decidable_of_iff (IsWord s ∧ s.toList.getLast? ≠ some ':')
    ⟨fun h => ⟨h.1, h.2⟩, fun h => ⟨h.toIsWord, h.noColon⟩⟩

theorem not_isBlank_of_not_isSeparator {c : Char} (h : isSeparator c = false) :
    Text.isBlank c = false := by
  simp only [isSeparator, Bool.or_eq_false_iff] at h
  exact h.1.1.1.1.1

theorem words_of_isWord (h : IsWord s) : words s = [s] := by
  rw [words, Text.fields_of_word h.ne_nil fun c hc => (h.plain c hc).1, List.map_singleton,
    String.ofList_toList]

/-- What a reader takes for a word is one, if there is no semicolon in the line. -/
theorem isWord_of_mem_words (hs : ';' ∉ s.toList) {w : String} (h : w ∈ words s) : IsWord w := by
  obtain ⟨cs, hcs, rfl⟩ := List.mem_map.mp h
  obtain ⟨hne, hplain⟩ := Text.mem_fields hcs
  refine ⟨by simpa using hne, fun c hc => ?_⟩
  rw [String.toList_ofList] at hc
  refine ⟨(hplain c hc).1, ?_⟩
  rintro rfl
  exact hs (hplain _ hc).2

/-- A separator at the front of the second text separates words. -/
theorem words_append_of_front (h : b.toList.head?.any isSeparator = true) :
    words (a ++ b) = words a ++ words b := by
  cases hb : b.toList with
  | nil => simp [hb] at h
  | cons c cs =>
    have hc : isSeparator c = true := by simpa [hb] using h
    rw [words, words, words, String.toList_append, hb, Text.fields_append hc,
      Text.fields_cons_of_sep hc, List.map_append]

/-- So does a separator at the end of the first. -/
theorem words_append_of_back (h : a.toList.getLast?.any isSeparator = true) :
    words (a ++ b) = words a ++ words b := by
  rcases List.eq_nil_or_concat a.toList with ha | ⟨cs, c, ha⟩
  · simp [ha] at h
  · have hc : isSeparator c = true := by simpa [ha] using h
    have hcs : Text.fields isSeparator (cs ++ [c]) = Text.fields isSeparator cs := by
      rw [Text.fields_append hc]
      exact List.append_nil _
    rw [words, words, words, String.toList_append, ha, List.concat_eq_append, List.append_assoc,
      List.singleton_append, Text.fields_append hc, hcs, List.map_append]

/-- A text with separators at both of its ends separates words. -/
theorem words_between (mid : String) (hfront : mid.toList.head?.any isSeparator = true)
    (hback : mid.toList.getLast?.any isSeparator = true) :
    words (a ++ mid ++ b) = words a ++ words mid ++ words b := by
  rw [String.append_assoc, words_append_of_front, words_append_of_back hback, List.append_assoc]
  cases hmid : mid.toList with
  | nil => simp [hmid] at hfront
  | cons c cs => simpa [String.toList_append, hmid] using hfront

theorem words_commaList (ss : List String) : words (commaList ss) = ss.flatMap words := by
  induction ss with
  | nil => rfl
  | cons s ss ih =>
    cases ss with
    | nil => rw [commaList, Text.join_singleton, List.flatMap_singleton]
    | cons t ss =>
      have hnone : words ", " = [] := rfl
      rw [commaList, Text.join_cons_cons, words_between ", " rfl rfl, hnone, List.append_nil]
      exact congrArg (words s ++ ·) ih

/-- A list of words is spelled by these words. -/
theorem words_commaList_of_isWord {ss : List String} (h : ∀ s ∈ ss, IsWord s) :
    words (commaList ss) = ss := by
  rw [words_commaList]
  induction ss with
  | nil => rfl
  | cons s ss ih =>
    rw [List.flatMap_cons, words_of_isWord (h s (by simp)), List.singleton_append,
      ih fun t ht => h t (List.mem_cons_of_mem s ht)]

/-- `[a, b]` is spelled by two words. -/
theorem words_pair (ha : IsWord a) (hb : IsWord b) :
    words ("[" ++ a ++ ", " ++ b ++ "]") = [a, b] := by
  have hnone : words ", " = [] ∧ words "[" = [] ∧ words "]" = [] := ⟨rfl, rfl, rfl⟩
  rw [words_append_of_front rfl, words_between ", " rfl rfl, words_append_of_back rfl,
    words_of_isWord ha, words_of_isWord hb, hnone.1, hnone.2.1, hnone.2.2]
  rfl

/-! ### Names -/

/-- A sign in front of a word makes a word. -/
theorem IsWord.sign (h : IsWord s) {c : Char} (hc : isSeparator c = false ∧ c ≠ ';')
    {sign : String} (hsign : sign.toList = [c]) : IsWord (sign ++ s) := by
  refine ⟨by simp [String.toList_append, hsign], fun x hx => ?_⟩
  rw [String.toList_append, hsign, List.singleton_append] at hx
  rcases List.mem_cons.mp hx with rfl | hx
  · exact hc
  · exact h.plain x hx

theorem isWord_value {v : Value} (h : IsWord v.name) : IsWord v.text :=
  h.sign (c := '%') (by decide) rfl

theorem isName_value {v : Value} (h : IsName v.name) : IsName v.text := by
  refine ⟨isWord_value h.toIsWord, ?_⟩
  have hlast : v.text.toList.getLast? = v.name.toList.getLast? := by
    rw [Value.text, String.toList_append]
    exact List.getLast?_append_of_ne_nil _ h.ne_nil
  rw [hlast]
  exact h.noColon

theorem isWord_callee {f : String} (h : IsWord f) : IsWord ("@" ++ f) :=
  h.sign (c := '@') (by decide) rfl

theorem isSeparator_of_isDigit {c : Char} (h : c.isDigit) : isSeparator c = false := by
  obtain ⟨hlow, hhigh⟩ := Char.isDigit_iff_toNat.mp h
  simp only [Char.reduceToNat] at hlow hhigh
  have hblank : Text.isBlank c = false := by
    simp only [Text.isBlank, Bool.or_eq_false_iff, Bool.and_eq_false_iff, decide_eq_false_iff_not,
      beq_eq_false_iff_ne]
    omega
  have hne : ∀ {x : Char}, x.isDigit = false → (c == x) = false := by
    intro x hx
    rw [beq_eq_false_iff_ne]
    rintro rfl
    exact absurd h (by simp [hx])
  simp only [isSeparator, hblank, hne (x := ',') rfl, hne (x := '(') rfl, hne (x := ')') rfl,
    hne (x := '[') rfl, hne (x := ']') rfl, Bool.or_self]

theorem isName_decimal (w : Int64) : IsName (decimal w) := by
  have hdigits : ∀ c ∈ (decimal w).toList, isSeparator c = false ∧ c ≠ ';' ∧ c ≠ ':' := by
    intro c hc
    rcases Text.Numeral.mem_decimal hc with rfl | hdigit
    · decide
    · refine ⟨isSeparator_of_isDigit hdigit, ?_, ?_⟩
      all_goals
        rintro rfl
        exact absurd hdigit (by decide)
  refine ⟨⟨Text.Numeral.decimal_ne_empty w, fun c hc => ?_⟩, fun h => ?_⟩
  · exact ⟨(hdigits c hc).1, (hdigits c hc).2.1⟩
  · exact (hdigits ':' (List.mem_of_getLast? h)).2.2 rfl

/-- A label is a name, if there is no semicolon in it. -/
theorem isName_label (h : isLabel s.toList = true) (hsemi : ';' ∉ s.toList) : IsName s := by
  simp only [isLabel, Bool.and_eq_true, Bool.not_eq_true', List.all_eq_true, bne_iff_ne] at h
  obtain ⟨hne, hall⟩ := h
  refine ⟨⟨by simpa using hne, fun c hc => ⟨?_, ?_⟩⟩, fun hlast => ?_⟩
  · have hc' := hall c hc
    simp only [isSeparator, Bool.or_eq_false_iff, beq_eq_false_iff_ne]
    tauto
  · rintro rfl
    exact hsemi hc
  · exact (hall ':' (List.mem_of_getLast? hlast)).2 rfl

/-! ### Items -/

/-- **What stands on a line of a block**: a phi, an instruction or the terminator. -/
inductive Item
  | phi (p : Phi)
  | instr (i : Instr)
  | term (t : Terminator)

namespace Item

variable {label : BlockId → String} {it : Item}

/-- The written form. -/
def text (label : BlockId → String) : Item → String
  | .phi p => p.text label
  | .instr i => i.text
  | .term t => t.text label

/-- The value that is defined, if any. -/
def results : Item → List Value
  | .phi p => [p.result]
  | .instr i => i.result?.toList
  | .term _ => []

/-- The values that are used. -/
def operands : Item → List (Option Value)
  | .phi p => p.operands
  | .instr i => i.operands.map some
  | .term t => t.operands.map some

/-- The blocks that are mentioned. -/
def targets : Item → List BlockId
  | .phi p => p.inputs.keys
  | .instr _ => []
  | .term t => t.successors

/-- The words of the written form. -/
def spelling (label : BlockId → String) : Item → List String
  | .phi p =>
    p.result.text :: "=" :: "phi" :: p.inputs.flatMap fun e => [Value.textOf? e.2, label e.1]
  | .instr (.const r w) => [r.text, "=", "const", decimal w]
  | .instr (.binary r op x y) => [r.text, "=", op.name, x.text, y.text]
  | .instr (.call (some r) f args) =>
    r.text :: "=" :: "call" :: ("@" ++ f) :: args.map Value.text
  | .instr (.call none f args) => "call" :: ("@" ++ f) :: args.map Value.text
  | .term (.jump c) => ["jmp", label c]
  | .term (.branch v c d) => ["br", v.text, label c, label d]
  | .term (.switch v d cases) =>
    "switch" :: v.text :: label d :: cases.flatMap fun e => [decimal e.1, label e.2]
  | .term (.ret vs) => "ret" :: vs.map Value.text

/-- **What can be written and read back**: names will do, and the inputs of a phi are there. -/
structure Writable (label : BlockId → String) (it : Item) : Prop where
  result : ∀ v ∈ it.results, IsWord v.name
  operand : ∀ u ∈ it.operands, ∃ v, u = some v ∧ IsWord v.name
  target : ∀ c ∈ it.targets, IsName (label c)
  callee : ∀ r f args, it = .instr (.call r f args) → IsWord f
  nonempty : ∀ p, it = .phi p → p.inputs ≠ []

theorem Writable.name (h : it.Writable label) {v : Value} (hv : some v ∈ it.operands) :
    IsWord v.name := by
  obtain ⟨w, hw, hname⟩ := h.operand _ hv
  rwa [Option.some.inj hw]

theorem isWord_operator (op : Operator) : IsWord op.name := by
  cases op <;> decide

theorem words_phi {p : Phi} (h : Writable label (.phi p)) :
    words (p.text label) = spelling label (.phi p) := by
  have hphi : words " = phi " = ["=", "phi"] := rfl
  have hresult := isWord_value (h.result p.result (by simp [results]))
  have hinputs : ∀ e ∈ p.inputs,
      words ("[" ++ Value.textOf? e.2 ++ ", " ++ label e.1 ++ "]") =
        [Value.textOf? e.2, label e.1] := by
    intro e he
    obtain ⟨v, hv, hname⟩ := h.operand e.2 (List.mem_map_of_mem he)
    rw [hv]
    exact words_pair (isWord_value hname) (h.target e.1 (List.mem_map_of_mem he)).toIsWord
  rw [Phi.text, words_between " = phi " rfl rfl, words_of_isWord hresult, hphi, words_commaList,
    List.flatMap_map, List.flatMap_congr hinputs]
  rfl

theorem words_instr {i : Instr} (h : Writable label (.instr i)) :
    words i.text = spelling label (.instr i) := by
  have hvalue : ∀ v ∈ i.operands, IsWord v.text := fun v hv =>
    isWord_value (h.name (List.mem_map_of_mem hv))
  cases i with
  | const r w =>
    have hconst : words " = const " = ["=", "const"] := rfl
    have hr := isWord_value (h.result r (by simp [results, Instr.result?]))
    rw [Instr.text, words_between " = const " rfl rfl, words_of_isWord hr, hconst,
      words_of_isWord (isName_decimal w).toIsWord]
    rfl
  | binary r op x y =>
    have hsigns : words " = " = ["="] ∧ words " " = [] ∧ words ", " = [] := ⟨rfl, rfl, rfl⟩
    have hr := isWord_value (h.result r (by simp [results, Instr.result?]))
    have hx := hvalue x (by simp [Instr.operands])
    have hy := hvalue y (by simp [Instr.operands])
    rw [Instr.text, words_between ", " rfl rfl, words_between " " rfl rfl,
      words_between " = " rfl rfl, words_of_isWord hr, words_of_isWord hx, words_of_isWord hy,
      words_of_isWord (isWord_operator op), hsigns.1, hsigns.2.1, hsigns.2.2]
    rfl
  | call r f args =>
    have hf := isWord_callee (h.callee r f args rfl)
    have hargs : words (commaList (args.map Value.text)) = args.map Value.text :=
      words_commaList_of_isWord (by simpa [Instr.operands] using hvalue)
    have hcall : words ("call @" ++ f ++ "(" ++ commaList (args.map Value.text) ++ ")") =
        ["call", "@" ++ f] ++ args.map Value.text := by
      have hsigns : words "call " = ["call"] ∧ words "(" = [] ∧ words ")" = [] := ⟨rfl, rfl, rfl⟩
      -- the sign belongs to the word behind it
      have hsplit : "call @" ++ f = "call " ++ ("@" ++ f) := by
        rw [← String.append_assoc]
        rfl
      rw [hsplit, words_append_of_front rfl, words_between "(" rfl rfl, words_append_of_back rfl,
        words_of_isWord hf, hargs, hsigns.1, hsigns.2.1, hsigns.2.2, List.append_nil,
        List.append_nil]
      rfl
    cases r with
    | none =>
      have hnothing : Instr.text (.call none f args) =
          "call @" ++ f ++ "(" ++ commaList (args.map Value.text) ++ ")" := by
        simp only [Instr.text, String.empty_append]
      rw [hnothing, hcall]
      rfl
    | some v =>
      have hsigns : words " = " = ["="] := rfl
      have hv := isWord_value (h.result v (by simp [results, Instr.result?]))
      have hresult : Instr.text (.call (some v) f args) = v.text ++ " = " ++
          ("call @" ++ f ++ "(" ++ commaList (args.map Value.text) ++ ")") := by
        simp only [Instr.text, String.append_assoc]
      rw [hresult, words_between " = " rfl rfl, words_of_isWord hv, hsigns, hcall]
      rfl

theorem words_term {t : Terminator} (h : Writable label (.term t)) :
    words (t.text label) = spelling label (.term t) := by
  have hvalue : ∀ v ∈ t.operands, IsWord v.text := fun v hv =>
    isWord_value (h.name (List.mem_map_of_mem hv))
  have htarget : ∀ c ∈ t.successors, IsWord (label c) := fun c hc => (h.target c hc).toIsWord
  have hcomma : words ", " = [] := rfl
  cases t with
  | jump c =>
    have hjump : words "jmp " = ["jmp"] := rfl
    rw [Terminator.text, words_append_of_back rfl, hjump,
      words_of_isWord (htarget c (by simp))]
    rfl
  | branch v c d =>
    have hbranch : words "br " = ["br"] := rfl
    have hc := htarget c (by simp)
    have hd := htarget d (by simp)
    rw [Terminator.text, words_between ", " rfl rfl, words_between ", " rfl rfl,
      words_append_of_back rfl, hbranch, hcomma, words_of_isWord hc, words_of_isWord hd,
      words_of_isWord (hvalue v (by simp [Terminator.operands]))]
    rfl
  | switch v d cases =>
    have hswitch : words "switch " = ["switch"] := rfl
    have hd := htarget d (by simp)
    have hcases : ∀ e ∈ cases, words ("[" ++ decimal e.1 ++ ", " ++ label e.2 ++ "]") =
        [decimal e.1, label e.2] := by
      intro e he
      refine words_pair (isName_decimal e.1).toIsWord (htarget e.2 ?_)
      rw [Terminator.successors_switch]
      exact List.mem_append_left _ (List.mem_map_of_mem he)
    rw [Terminator.text, words_between ", " rfl rfl, words_append_of_back rfl, hswitch, hcomma,
      words_of_isWord (hvalue v (by simp [Terminator.operands])), words_commaList,
      List.flatMap_cons, words_of_isWord hd, List.flatMap_map, List.flatMap_congr hcases]
    rfl
  | ret vs =>
    cases vs with
    | nil =>
      rw [Terminator.text]
      rfl
    | cons v vs =>
      have hret : words "ret " = ["ret"] := rfl
      rw [Terminator.text, words_append_of_back rfl, hret,
        words_commaList_of_isWord (by simpa [Terminator.operands] using hvalue)]
      · rfl
      · simp

/-- **A written line is spelled by its names.** -/
theorem words_text (h : it.Writable label) : words (it.text label) = it.spelling label := by
  cases it with
  | phi p => exact words_phi h
  | instr i => exact words_instr h
  | term t => exact words_term h

end Item

/-! ### Lines -/

/-- A text without newlines and semicolons. -/
abbrev Clean (s : String) : Prop := '\n' ∉ s.toList ∧ ';' ∉ s.toList

/-- **A line** as it is written, apart from the indentation. -/
structure IsLine (s : String) : Prop where
  tight : Text.Tight s.toList
  clean : Clean s

/-- A text with no blank in front. -/
def Opens (s : String) : Prop := ∃ c rest, s.toList = c :: rest ∧ Text.isBlank c = false

/-- A text with no blank at its end. -/
def Closes (s : String) : Prop := ∃ rest c, s.toList = rest ++ [c] ∧ Text.isBlank c = false

theorem Opens.append (h : Opens a) : Opens (a ++ b) := by
  obtain ⟨c, rest, ha, hc⟩ := h
  exact ⟨c, rest ++ b.toList, by rw [String.toList_append, ha]; rfl, hc⟩

theorem Closes.append (h : Closes b) : Closes (a ++ b) := by
  obtain ⟨rest, c, hb, hc⟩ := h
  exact ⟨a.toList ++ rest, c, by rw [String.toList_append, hb, List.append_assoc], hc⟩

theorem Clean.append (ha : Clean a) (hb : Clean b) : Clean (a ++ b) := by
  rw [Clean, String.toList_append, List.mem_append, List.mem_append, not_or, not_or]
  exact ⟨⟨ha.1, hb.1⟩, ha.2, hb.2⟩

theorem IsWord.opens (h : IsWord s) : Opens s := by
  obtain ⟨c, rest, hs⟩ := List.exists_cons_of_ne_nil h.ne_nil
  refine ⟨c, rest, hs, not_isBlank_of_not_isSeparator (h.plain c ?_).1⟩
  rw [hs]
  exact List.mem_cons_self ..

theorem IsWord.closes (h : IsWord s) : Closes s := by
  obtain ⟨rest, c, hs⟩ := (List.eq_nil_or_concat s.toList).resolve_left h.ne_nil
  rw [List.concat_eq_append] at hs
  exact ⟨rest, c, hs, not_isBlank_of_not_isSeparator (h.plain c (by simp [hs])).1⟩

theorem IsWord.clean (h : IsWord s) : Clean s :=
  ⟨fun hc => absurd (h.plain _ hc).1 (by decide), fun hc => (h.plain _ hc).2 rfl⟩

theorem clean_commaList {ss : List String} (h : ∀ s ∈ ss, Clean s) : Clean (commaList ss) := by
  induction ss with
  | nil => decide
  | cons s ss ih =>
    have hrest := ih fun t ht => h t (List.mem_cons_of_mem s ht)
    cases ss with
    | nil => exact h s (by simp)
    | cons t ss =>
      rw [commaList, Text.join_cons_cons]
      exact ((h s (by simp)).append (by decide)).append hrest

/-- A list ends in its last entry. -/
theorem exists_front_commaList (ss : List String) (s : String) :
    ∃ front, commaList (ss ++ [s]) = front ++ s := by
  induction ss with
  | nil => exact ⟨"", by rw [String.empty_append]; rfl⟩
  | cons t ss ih =>
    obtain ⟨front, hfront⟩ := ih
    obtain ⟨u, us, hus⟩ := List.exists_cons_of_ne_nil (List.concat_ne_nil s ss)
    refine ⟨t ++ ", " ++ front, ?_⟩
    rw [List.cons_append, hus, commaList, Text.join_cons_cons, ← hus]
    exact (congrArg (t ++ ", " ++ ·) hfront).trans String.append_assoc.symm

theorem clean_pair (ha : Clean a) (hb : Clean b) : Clean ("[" ++ a ++ ", " ++ b ++ "]") :=
  (((Clean.append (by decide) ha).append (by decide)).append hb).append (by decide)

namespace Item

variable {label : BlockId → String} {it : Item}

/-! ### The end of a line -/

/-- **What a line ends in**: a bracket, or its last word. -/
def ending (label : BlockId → String) : Item → String
  | .phi _ => "]"
  | .instr (.const _ w) => decimal w
  | .instr (.binary _ _ _ y) => y.text
  | .instr (.call ..) => ")"
  | .term (.jump c) => label c
  | .term (.branch _ _ d) => label d
  | .term (.switch _ d cases) => if cases = [] then label d else "]"
  | .term (.ret vs) => (vs.getLast?.map Value.text).getD "ret"

/-- A line ends in its ending. -/
theorem exists_front (h : it.Writable label) :
    ∃ front, it.text label = front ++ it.ending label := by
  cases it with
  | phi p =>
    obtain ⟨es, e, hes⟩ := (List.eq_nil_or_concat p.inputs).resolve_left (h.nonempty p rfl)
    obtain ⟨front, hfront⟩ := exists_front_commaList
      (es.map fun e => "[" ++ Value.textOf? e.2 ++ ", " ++ label e.1 ++ "]")
      ("[" ++ Value.textOf? e.2 ++ ", " ++ label e.1 ++ "]")
    refine ⟨p.result.text ++ " = phi " ++
      (front ++ ("[" ++ Value.textOf? e.2 ++ ", " ++ label e.1)), ?_⟩
    rw [text, Phi.text, hes, List.concat_eq_append, List.map_append, List.map_singleton, hfront]
    simp only [ending, String.append_assoc]
  | instr i =>
    cases i with
    | const r w => exact ⟨_, rfl⟩
    | binary r op x y => exact ⟨_, rfl⟩
    | call r f args => exact ⟨_, rfl⟩
  | term t =>
    cases t with
    | jump c => exact ⟨_, rfl⟩
    | branch v c d => exact ⟨_, rfl⟩
    | switch v d cases =>
      rcases List.eq_nil_or_concat cases with rfl | ⟨es, e, rfl⟩
      · exact ⟨_, rfl⟩
      · obtain ⟨front, hfront⟩ := exists_front_commaList
          (label d :: es.map fun e => "[" ++ decimal e.1 ++ ", " ++ label e.2 ++ "]")
          ("[" ++ decimal e.1 ++ ", " ++ label e.2 ++ "]")
        refine ⟨"switch " ++ v.text ++ ", " ++
          (front ++ ("[" ++ decimal e.1 ++ ", " ++ label e.2)), ?_⟩
        rw [text, Terminator.text, List.concat_eq_append, List.map_append, List.map_singleton,
          ← List.cons_append, hfront, ending, if_neg (by simp)]
        simp only [String.append_assoc]
    | ret vs =>
      rcases List.eq_nil_or_concat vs with rfl | ⟨ws, w, rfl⟩
      · exact ⟨"", by rw [String.empty_append]; rfl⟩
      · obtain ⟨front, hfront⟩ := exists_front_commaList (ws.map Value.text) w.text
        refine ⟨"ret " ++ front, ?_⟩
        rw [List.concat_eq_append, text, Terminator.text, List.map_append, List.map_singleton,
          hfront, ending, List.getLast?_concat, String.append_assoc]
        · rfl
        · simp

/-- The ending is a name, a bracket, or a value that the line uses. -/
theorem ending_cases (h : it.Writable label) : IsName (it.ending label) ∨
    (it.ending label = "]" ∨ it.ending label = ")") ∨
      ∃ v, some v ∈ it.operands ∧ it.ending label = v.text := by
  cases it with
  | phi p => exact Or.inr (Or.inl (Or.inl rfl))
  | instr i =>
    cases i with
    | const r w => exact Or.inl (isName_decimal w)
    | binary r op x y => exact Or.inr (Or.inr ⟨y, by simp [operands, Instr.operands], rfl⟩)
    | call r f args => exact Or.inr (Or.inl (Or.inr rfl))
  | term t =>
    cases t with
    | jump c => exact Or.inl (h.target c (by simp [targets]))
    | branch v c d => exact Or.inl (h.target d (by simp [targets]))
    | switch v d cases =>
      rw [ending]
      split
      · exact Or.inl (h.target d (by simp [targets]))
      · exact Or.inr (Or.inl (Or.inl rfl))
    | ret vs =>
      rcases List.eq_nil_or_concat vs with rfl | ⟨ws, w, rfl⟩
      · exact Or.inl (show IsName "ret" by decide)
      · refine Or.inr (Or.inr ⟨w, by simp [operands, Terminator.operands], ?_⟩)
        rw [ending, List.concat_eq_append, List.getLast?_concat]
        rfl

theorem closes_text (h : it.Writable label) : Closes (it.text label) := by
  obtain ⟨front, hfront⟩ := exists_front h
  rw [hfront]
  refine Closes.append ?_
  rcases ending_cases h with hname | (hbracket | hbracket) | ⟨v, hv, hvalue⟩
  · exact hname.toIsWord.closes
  · exact hbracket ▸ ⟨[], ']', rfl, rfl⟩
  · exact hbracket ▸ ⟨[], ')', rfl, rfl⟩
  · exact hvalue ▸ (isWord_value (h.name hv)).closes

/-- **A line does not end in a colon** if none of the values that it uses does. -/
theorem noColon_text (h : it.Writable label) (hnames : ∀ v, some v ∈ it.operands → IsName v.name) :
    (it.text label).toList.getLast? ≠ some ':' := by
  obtain ⟨front, hfront⟩ := exists_front h
  have hending : (it.ending label).toList ≠ [] ∧
      (it.ending label).toList.getLast? ≠ some ':' := by
    rcases ending_cases h with hname | (hbracket | hbracket) | ⟨v, hv, hvalue⟩
    · exact ⟨hname.ne_nil, hname.noColon⟩
    · rw [hbracket]
      decide
    · rw [hbracket]
      decide
    · have hname := isName_value (hnames v hv)
      rw [hvalue]
      exact ⟨hname.ne_nil, hname.noColon⟩
  rw [hfront, String.toList_append, List.getLast?_append_of_ne_nil _ hending.1]
  exact hending.2

/-! ### Written lines -/

theorem opens_text (h : it.Writable label) : Opens (it.text label) := by
  have hresult : ∀ v ∈ it.results, Opens v.text := fun v hv => (isWord_value (h.result v hv)).opens
  cases it with
  | phi p => exact (hresult p.result (by simp [results])).append.append
  | instr i =>
    cases i with
    | const r w => exact (hresult r (by simp [results, Instr.result?])).append.append
    | binary r op x y =>
      exact (hresult r (by simp [results, Instr.result?])).append.append.append.append.append.append
    | call r f args =>
      refine Opens.append (Opens.append (Opens.append (Opens.append ?_)))
      cases r with
      | none => exact ⟨'c', _, rfl, rfl⟩
      | some v => exact (hresult v (by simp [results, Instr.result?])).append.append
  | term t =>
    cases t with
    | jump c => exact Opens.append ⟨'j', _, rfl, rfl⟩
    | branch v c d =>
      exact Opens.append (Opens.append (Opens.append (Opens.append
        (Opens.append ⟨'b', _, rfl, rfl⟩))))
    | switch v d cases => exact Opens.append (Opens.append (Opens.append ⟨'s', _, rfl, rfl⟩))
    | ret vs =>
      cases vs with
      | nil => exact (show Opens "ret" from ⟨'r', ['e', 't'], rfl, rfl⟩)
      | cons v vs => exact Opens.append ⟨'r', _, rfl, rfl⟩

/-! ### Newlines and semicolons -/

/-- **A tidy line**: no name in it holds a newline or a semicolon. -/
structure Tidy (it : Item) : Prop where
  result : ∀ v ∈ it.results, Clean v.name
  operand : ∀ v, some v ∈ it.operands → Clean v.name
  callee : ∀ i, it = .instr i → ∀ f ∈ i.callee?, Clean f

theorem Writable.tidy (h : it.Writable label) : it.Tidy := by
  refine ⟨fun v hv => (h.result v hv).clean, fun v hv => (h.name hv).clean, ?_⟩
  rintro i rfl f hf
  cases i with
  | call r g args =>
    obtain rfl : g = f := Option.some.inj hf
    exact (h.callee r g args rfl).clean
  | const r w => exact absurd hf (by simp [Instr.callee?])
  | binary r op x y => exact absurd hf (by simp [Instr.callee?])

theorem clean_value {v : Value} (h : Clean v.name) : Clean v.text :=
  Clean.append (by decide) h

theorem clean_phi {p : Phi} (h : Tidy (.phi p)) (hlabel : ∀ c ∈ p.inputs.keys, Clean (label c)) :
    Clean (p.text label) := by
  have hresult := clean_value (h.result p.result (by simp [results]))
  refine (hresult.append (by decide)).append (clean_commaList fun s hs => ?_)
  obtain ⟨e, he, rfl⟩ := List.mem_map.mp hs
  refine clean_pair ?_ (hlabel e.1 (List.mem_map_of_mem he))
  cases hv : e.2 with
  | none => exact (show Clean "<nil>" by decide)
  | some v => exact clean_value (h.operand v (List.mem_map.mpr ⟨e, he, hv⟩))

theorem clean_instr {i : Instr} (h : Tidy (.instr i)) : Clean i.text := by
  have hvalue : ∀ v ∈ i.operands, Clean v.text := fun v hv =>
    clean_value (h.operand v (List.mem_map_of_mem hv))
  have hresult : ∀ v ∈ i.result?, Clean v.text := fun v hv =>
    clean_value (h.result v (by simpa [results] using hv))
  cases i with
  | const r w => exact ((hresult r rfl).append (by decide)).append (isName_decimal w).clean
  | binary r op x y =>
    have hx := hvalue x (by simp [Instr.operands])
    have hy := hvalue y (by simp [Instr.operands])
    have hop := ((hresult r rfl).append (b := " = ") (by decide)).append (isWord_operator op).clean
    exact (((hop.append (by decide)).append hx).append (by decide)).append hy
  | call r f args =>
    have hargs : Clean (commaList (args.map Value.text)) := by
      refine clean_commaList fun s hs => ?_
      obtain ⟨v, hv, rfl⟩ := List.mem_map.mp hs
      exact hvalue v hv
    refine ((((Clean.append ?_ (by decide)).append (h.callee _ rfl f rfl)).append
      (by decide)).append hargs).append (by decide)
    -- what is before the call is empty, or a result with an equals sign
    cases r with
    | none => decide
    | some v => exact (hresult v rfl).append (by decide)

theorem clean_term {t : Terminator} (h : Tidy (.term t))
    (htarget : ∀ c ∈ t.successors, Clean (label c)) : Clean (t.text label) := by
  have hvalue : ∀ v ∈ t.operands, Clean v.text := fun v hv =>
    clean_value (h.operand v (List.mem_map_of_mem hv))
  cases t with
  | jump c => exact Clean.append (by decide) (htarget c (by simp))
  | branch v c d =>
    have hv := hvalue v (by simp [Terminator.operands])
    have hbr := (Clean.append (a := "br ") (by decide) hv).append (b := ", ") (by decide)
    exact ((hbr.append (htarget c (by simp))).append (by decide)).append (htarget d (by simp))
  | switch v d cases =>
    have hv := hvalue v (by simp [Terminator.operands])
    refine ((Clean.append (by decide) hv).append (by decide)).append
      (clean_commaList fun s hs => ?_)
    rcases List.mem_cons.mp hs with rfl | hs
    · exact htarget d (by simp)
    · obtain ⟨e, he, rfl⟩ := List.mem_map.mp hs
      refine clean_pair (isName_decimal e.1).clean (htarget e.2 ?_)
      rw [Terminator.successors_switch]
      exact List.mem_append_left _ (List.mem_map_of_mem he)
  | ret vs =>
    cases vs with
    | nil => exact (show Clean "ret" by decide)
    | cons v vs =>
      refine Clean.append (by decide) (clean_commaList fun s hs => ?_)
      obtain ⟨w, hw, rfl⟩ := List.mem_map.mp hs
      exact hvalue w hw

/-- **A tidy line is written without newlines and semicolons**, if there are none in labels. -/
theorem Tidy.clean_text (h : it.Tidy) (hlabel : ∀ c ∈ it.targets, Clean (label c)) :
    Clean (it.text label) := by
  cases it with
  | phi p => exact clean_phi h hlabel
  | instr i => exact clean_instr h
  | term t => exact clean_term h hlabel

/-- **A written line is a line.** -/
theorem isLine_text (h : it.Writable label) : IsLine (it.text label) :=
  ⟨⟨opens_text h, closes_text h⟩, h.tidy.clean_text fun c hc => (h.target c hc).clean⟩

end Item

end Source

end BranchFusion
