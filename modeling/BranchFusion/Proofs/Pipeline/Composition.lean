import BranchFusion.Pipeline.Manager
import BranchFusion.Proofs.Pipeline.Grammar

/-!
# Pipelines put together

Texts of pipelines can be put together like the pipelines themselves. If a text is read as a
pipeline, then the text of a group with this text as its body is read as that group
(`BranchFusion.Pipeline.parse_fixpointText`, `BranchFusion.Pipeline.parse_timesText`). Two texts
with a comma in between are read as one pipeline behind the other
(`BranchFusion.Pipeline.parse_comma`), and so a text that is written down several times is read as
the pipeline repeated as often (`BranchFusion.Pipeline.parse_copiesText`). Gaps at the ends of the body do no harm, and neither do
words there: what follows is a sign, so no word gets longer. All of it is in ASCII
(`BranchFusion.Pipeline.Spells.ascii`), so the bytes of these texts are their characters.

The steps of a pipeline are made part by part, and the verifier that the options may ask for comes
last (`BranchFusion.Manager.exists_create`).
-/

namespace BranchFusion

/-! ### Bytes one after the other -/

namespace Text.Bytes

instance : Append Bytes where
  append a b := ⟨a.codes ++ b.codes⟩

@[simp] theorem chars_append (a b : Bytes) : (a ++ b).chars = a.chars ++ b.chars :=
  List.map_append

theorem ofString_append (a b : String) : ofString (a ++ b) = ofString a ++ ofString b := by
  rw [ofString, String.toUTF8, String.toByteArray_append, ByteArray.data_append,
    Array.toList_append]
  rfl

/-- The bytes of a text in ASCII are its characters. -/
theorem chars_ofString {s : String} (h : ∀ c ∈ s.toList, c.toNat < 128) :
    (ofString s).chars = s.toList := by
  have hcodes : (ofString s).codes = s.toList.flatMap String.utf8EncodeChar := by
    rw [ofString, String.toUTF8, ← String.utf8Encode_toList, List.utf8Encode,
      List.data_toByteArray]
  rw [chars, hcodes]
  generalize s.toList = cs at h
  induction cs with
  | nil => rfl
  | cons c cs ih =>
    obtain ⟨hc, hcs⟩ := List.forall_mem_cons.mp h
    have hsize : c.utf8Size = 1 := Char.utf8Size_eq_one_iff.mpr (Nat.le_of_lt_succ hc)
    have hcode : c.val.toUInt8.toNat = c.toNat := by
      rw [UInt32.toNat_toUInt8]
      exact Nat.mod_eq_of_lt (hc.trans (by decide))
    rw [List.flatMap_cons, String.utf8EncodeChar_eq_singleton hsize, List.map_append, ih hcs,
      List.map_singleton, hcode, Char.ofNat_toNat]
    rfl

end Text.Bytes

namespace Pipeline

variable {reg : Registry} {ts us : List Token} {cs ds : List Char} {nodes nodes' : List Node}
  {body : Text.Bytes} {n : Nat}

/-! ### Tokens are written in ASCII -/

theorem toNat_lt_of_isGap {c : Char} (h : Cursor.isGap c) : c.toNat < 128 := by
  simp only [Cursor.isGap, Bool.or_eq_true, beq_iff_eq] at h
  rcases h with ((rfl | rfl) | rfl) | rfl <;> decide

theorem toNat_lt_of_isSign {c : Char} (h : isSign c) : c.toNat < 128 := by
  simp only [isSign, Bool.or_eq_true, beq_iff_eq] at h
  rcases h with (((rfl | rfl) | rfl) | rfl) | rfl <;> decide

theorem toNat_lt_of_isNameChar {c : Char} (h : Registry.isNameChar c) : c.toNat < 128 := by
  have hle : ∀ {d : Char}, c ≤ d → d.toNat < 128 → c.toNat < 128 :=
    fun h h' => Nat.lt_of_le_of_lt h h'
  simp only [Registry.isNameChar, Bool.or_eq_true, Bool.and_eq_true, beq_iff_eq,
    decide_eq_true_eq] at h
  rcases h with (((rfl | rfl) | h) | h) | h
  · decide
  · decide
  · exact hle h.2 (by decide)
  · exact hle h.2 (by decide)
  · exact hle h.2 (by decide)

/-- What spells tokens is written in ASCII. -/
theorem Spells.ascii (h : Spells ts cs) : ∀ c ∈ cs, c.toNat < 128 := by
  induction h with
  | done => simp
  | gap hc _ ih => exact List.forall_mem_cons.mpr ⟨toNat_lt_of_isGap hc, ih⟩
  | sign hc _ ih => exact List.forall_mem_cons.mpr ⟨toNat_lt_of_isSign hc, ih⟩
  | word hw _ _ ih =>
    rw [Registry.isName, Bool.and_eq_true, List.all_eq_true] at hw
    exact List.forall_mem_append.mpr ⟨fun c hc => toNat_lt_of_isNameChar (hw.2 c hc), ih⟩

theorem Spells.chars_ofString {s : String} (h : Spells ts s.toList) :
    (Text.Bytes.ofString s).chars = s.toList :=
  Text.Bytes.chars_ofString h.ascii

theorem Spells.of_isName {w : String} (hw : Registry.isName w) : Spells [.word w] w.toList := by
  simpa using Spells.word hw (by simp) .done

/-! ### Tokens one after the other -/

/-- **Texts one after the other spell the tokens of both**, if the second one does not make the last
word of the first one longer. -/
theorem Spells.append (h : Spells ts cs) (h' : Spells us ds)
    (hstop : ∀ c ∈ ds.head?, Registry.isNameChar c = false) : Spells (ts ++ us) (cs ++ ds) := by
  induction h with
  | done => exact h'
  | gap hc _ ih => exact .gap hc ih
  | sign hc _ ih => exact .sign hc ih
  | @word ts w cs hw hmax _ ih =>
    rw [List.append_assoc]
    refine .word hw (fun c hc => ?_) ih
    cases cs with
    | nil => exact hstop c hc
    | cons d cs => exact hmax c hc

/-- What a sign follows may end in a word. -/
theorem Spells.append_sign {c : Char} (h : Spells ts cs) (hc : isSign c) (h' : Spells us ds) :
    Spells (ts ++ .sign c :: us) (cs ++ c :: ds) := by
  refine h.append (.sign hc h') fun d hd => ?_
  obtain rfl : c = d := Option.some.inj hd
  exact (not_isNameChar_of_isSign hc).1

/-- A word in front of a sign. -/
theorem Spells.word_sign {w : String} {c : Char} (hw : Registry.isName w) (hc : isSign c)
    (h : Spells ts cs) : Spells (.word w :: .sign c :: ts) (w.toList ++ c :: cs) := by
  refine .word hw (fun d hd => ?_) (.sign hc h)
  obtain rfl : c = d := Option.some.inj hd
  exact (not_isNameChar_of_isSign hc).1

/-- Lists with a comma in between are a list. -/
theorem Items.append : ∀ {nodes : List Node} {ts : List Token}, Items reg nodes ts →
    Items reg nodes' us → Items reg (nodes ++ nodes') (ts ++ .sign ',' :: us)
  | _, _, .one h, h' => .more h h'
  | _, _, .more h hs, h' => by
    rw [List.append_assoc, List.cons_append, List.cons_append]
    exact .more h (hs.append h')

/-- Numbers as they are usually written are counts. -/
theorem isCount_toString (hn : 1 ≤ n) (hmax : n ≤ 2 ^ 63 - 1) : IsCount (toString n) n where
  nonempty h := by
    have hnil : (toString n).toList = [] := by rw [h]; rfl
    rw [Text.Numeral.toList_toString] at hnil
    exact absurd hnil Nat.toDigits_ne_nil
  digits _ := Text.Numeral.isDigit_of_mem_toString
  value := by
    rw [Text.Numeral.toList_toString]
    exact Nat.ofDigitChars_ten_toDigits
  positive := hn
  bounded := hmax

theorem isNameChar_of_isDigit {c : Char} (h : c.isDigit) : Registry.isNameChar c := by
  obtain ⟨hlow, hhigh⟩ := Char.isDigit_iff_toNat.mp h
  have hrange : '0' ≤ c ∧ c ≤ '9' := ⟨hlow, hhigh⟩
  simp [Registry.isNameChar, hrange]

theorem IsCount.isName {w : String} (h : IsCount w n) : Registry.isName w := by
  rw [Registry.isName, Bool.and_eq_true, List.all_eq_true]
  exact ⟨by simpa using h.nonempty, fun c hc => isNameChar_of_isDigit (h.digits c hc)⟩

/-! ### Texts -/

/-- The text of a group that runs a body until nothing changes. -/
def fixpointText (body : Text.Bytes) : Text.Bytes :=
  .ofString "fixpoint(" ++ body ++ .ofString ")"

/-- The text of a group that runs a body a number of times. -/
def timesText (n : Nat) (body : Text.Bytes) : Text.Bytes :=
  .ofString "repeat<" ++ .ofString (toString n) ++ .ofString ">(" ++ body ++ .ofString ")"

/-- The text of a body, written down a number of times with commas in between. -/
def copiesText : Nat → Text.Bytes → Text.Bytes
  | 0, _ => .ofString ""
  | 1, body => body
  | n + 2, body => body ++ .ofString "," ++ copiesText (n + 1) body

theorem parse_eq_ok_iff {src : Text.Bytes} :
    parse reg src = .ok nodes ↔ ∃ ts, Spells ts src.chars ∧ Items reg nodes ts := by
  rw [← read_eq_ok_iff, parse]
  cases read reg src.chars with
  | ok nodes' => simp
  | error e => simp

theorem parse_fixpointText (h : parse reg body = .ok nodes) :
    parse reg (fixpointText body) = .ok [.fixpoint nodes] := by
  obtain ⟨ts, hts, hnodes⟩ := parse_eq_ok_iff.mp h
  refine parse_eq_ok_iff.mpr ⟨_, ?_, .one (.fixpoint hnodes)⟩
  have hclosed := hts.append_sign (c := ')') rfl .done
  have hall := Spells.word_sign (w := "fixpoint") (c := '(') rfl rfl hclosed
  rw [fixpointText, Text.Bytes.chars_append, Text.Bytes.chars_append, List.append_assoc]
  exact hall

theorem parse_timesText (h : parse reg body = .ok nodes) (hn : 1 ≤ n) (hmax : n ≤ 2 ^ 63 - 1) :
    parse reg (timesText n body) = .ok [.times n nodes] := by
  obtain ⟨ts, hts, hnodes⟩ := parse_eq_ok_iff.mp h
  have hcount := isCount_toString hn hmax
  refine parse_eq_ok_iff.mpr ⟨_, ?_, .one (.times hcount hnodes)⟩
  have hclosed := hts.append_sign (c := ')') rfl .done
  have hopened := Spells.word_sign (c := '>') hcount.isName rfl (.sign (c := '(') rfl hclosed)
  have hall := Spells.word_sign (w := "repeat") (c := '<') rfl rfl hopened
  have hchars := (Spells.of_isName hcount.isName).chars_ofString
  simp only [timesText, Text.Bytes.chars_append, hchars, List.append_assoc]
  exact hall

/-- Pipelines with a comma in between are a pipeline. -/
theorem parse_comma {body' : Text.Bytes} (h : parse reg body = .ok nodes)
    (h' : parse reg body' = .ok nodes') :
    parse reg (body ++ .ofString "," ++ body') = .ok (nodes ++ nodes') := by
  obtain ⟨ts, hts, hnodes⟩ := parse_eq_ok_iff.mp h
  obtain ⟨us, hus, hnodes'⟩ := parse_eq_ok_iff.mp h'
  refine parse_eq_ok_iff.mpr ⟨_, ?_, hnodes.append hnodes'⟩
  rw [Text.Bytes.chars_append, Text.Bytes.chars_append, List.append_assoc]
  exact hts.append_sign (c := ',') rfl hus

theorem parse_copiesText (h : parse reg body = .ok nodes) : ∀ n : Nat,
    parse reg (copiesText (n + 1) body) = .ok (List.replicate (n + 1) nodes).flatten
  | 0 => by simpa [copiesText] using h
  | n + 1 => by
    rw [List.replicate_succ, List.flatten_cons]
    exact parse_comma h (parse_copiesText h n)

example : copiesText 3 " tdce" = " tdce, tdce, tdce" := by decide +kernel

end Pipeline

/-! ### Steps -/

theorem Step.ofNodes_eq_map (reg : Registry) : ∀ nodes : List Pipeline.Node,
    Step.ofNodes reg nodes = nodes.map (Step.ofNode reg)
  | [] => rfl
  | node :: nodes => by rw [ofNodes, ofNodes_eq_map reg nodes, List.map_cons]

/-- The verifier behind a pipeline, if the options ask for it. -/
def Manager.lastSteps (reg : Registry) (o : Options) : List Step :=
  if o.verify then [Step.ofNode reg (.pass Registry.verifierName)] else []

/-- **A manager can be created for every pipeline that can be read.** It has the steps of the
pipeline, and the verifier behind them if the options ask for it. -/
theorem Manager.exists_create {reg : Registry} {o : Options} {nodes : List Pipeline.Node}
    (h : Pipeline.parse reg o.pipeline = .ok nodes) :
    ∃ m, Manager.create reg o = .ok m ∧ m.options = o ∧ m.cache = {} ∧
      m.steps = nodes.map (Step.ofNode reg) ++ lastSteps reg o := by
  rw [Manager.create, h]
  refine ⟨_, rfl, rfl, rfl, ?_⟩
  simp only [Step.ofNodes_eq_map, lastSteps]
  split
  · rw [List.map_append, List.map_singleton]
  · rw [List.append_nil]

end BranchFusion
