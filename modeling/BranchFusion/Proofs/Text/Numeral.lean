import BranchFusion.Source.Printer
import BranchFusion.Text.Numeral
import Mathlib.Tactic.IntervalCases

/-!
# Words in decimal

Words are written in decimal, with a minus sign if they are negative, and read back as literals of
any base. So there is something to see to: the digits of a number that is not zero start with
another digit than zero, or they would be taken for octal ones; zero itself *is* read as octal, with
no digits at all. The least word has a magnitude that no other word has, and is still in range.

`BranchFusion.Text.Numeral.readWord_decimal` says that every word is read back. Natural numbers only
stand in names, and there it is enough that different ones are written differently
(`BranchFusion.Text.Numeral.toString_inj`).
-/

namespace BranchFusion

namespace Text.Numeral

theorem digitValue_of_isDigit {c : Char} (h : c.isDigit) : digitValue c = some (c.toNat - 48) := by
  obtain ⟨hlow, hhigh⟩ := Char.isDigit_iff_toNat.mp h
  exact if_pos ⟨hlow, hhigh⟩

theorem le_ofDigitChars (cs : List Char) : ∀ acc, acc ≤ Nat.ofDigitChars 10 cs acc := by
  induction cs with
  | nil => exact fun acc => le_of_eq Nat.ofDigitChars_nil.symm
  | cons c cs ih =>
    intro acc
    rw [Nat.ofDigitChars_cons]
    exact le_trans (by omega) (ih _)

theorem ofDigitChars_ten_cons (c : Char) (cs : List Char) (acc : Nat) :
    Nat.ofDigitChars 10 (c :: cs) acc = Nat.ofDigitChars 10 cs (acc * 10 + (c.toNat - 48)) := by
  rw [Nat.ofDigitChars_cons, Nat.mul_comm]
  rfl

/-- Digits are read up to their value, since no value on the way is greater. -/
theorem readDigits_of_digits {underscores : Bool} : ∀ {cs : List Char} {acc : Nat},
    (∀ c ∈ cs, c.isDigit) → Nat.ofDigitChars 10 cs acc < unsignedBound →
      readDigits 10 underscores acc cs = .ok (Nat.ofDigitChars 10 cs acc)
  | [], _, _, _ => by rw [readDigits, Nat.ofDigitChars_nil]
  | c :: cs, acc, hdigits, hbound => by
    have hc : c.isDigit := hdigits c (by simp)
    have hunderscore : c ≠ '_' := by
      rintro rfl
      exact absurd hc (by decide)
    have hdigit : ¬10 ≤ c.toNat - 48 := by
      have := (Char.isDigit_iff_toNat.mp hc).2
      simp only [Char.reduceToNat] at this
      omega
    rw [ofDigitChars_ten_cons] at hbound ⊢
    have hstep : ¬unsignedBound ≤ acc * 10 + (c.toNat - 48) :=
      Nat.not_le.mpr ((le_ofDigitChars cs _).trans_lt hbound)
    rw [readDigits, if_neg fun h => hunderscore h.1, digitValue_of_isDigit hc]
    dsimp only
    rw [if_neg hdigit, if_neg hstep]
    exact readDigits_of_digits (fun x hx => hdigits x (List.mem_cons_of_mem c hx)) hbound

/-- A digit below ten is one of the ten. -/
theorem isDigit_of_digitValue {c : Char} {d : Nat} (h : digitValue c = some d) (hd : d < 10) :
    c.isDigit ∧ d = c.toNat - 48 := by
  rw [digitValue] at h
  split at h
  · next hc => exact ⟨Char.isDigit_iff_toNat.mpr hc, (Option.some.inj h).symm⟩
  split at h
  · have := Option.some.inj h
    omega
  split at h
  · have := Option.some.inj h
    omega
  · exact absurd h (by simp)

/-- Without underscores nothing but digits is read, and what is read is their value. -/
theorem digits_of_readDigits : ∀ {cs : List Char} {acc n : Nat}, acc < unsignedBound →
    readDigits 10 false acc cs = .ok n →
      (∀ c ∈ cs, c.isDigit) ∧ Nat.ofDigitChars 10 cs acc = n ∧ n < unsignedBound
  | [], acc, n, hacc, h => by
    obtain rfl := Except.ok.inj h
    exact ⟨by simp, Nat.ofDigitChars_nil, hacc⟩
  | c :: cs, acc, n, _, h => by
    rw [readDigits, if_neg (by simp)] at h
    split at h
    · exact absurd h (by simp)
    · next d hd =>
      split at h
      · exact absurd h (by simp)
      next hten =>
      split at h
      · exact absurd h (by simp)
      next hbound =>
      obtain ⟨hc, rfl⟩ := isDigit_of_digitValue hd (Nat.not_le.mp hten)
      obtain ⟨hcs, hvalue, hn⟩ := digits_of_readDigits (Nat.not_le.mp hbound) h
      exact ⟨List.forall_mem_cons.mpr ⟨hc, hcs⟩, by rw [ofDigitChars_ten_cons, hvalue], hn⟩

/-- **Plain decimal numerals** are the texts of digits, read as their value. -/
theorem readDecimal_eq_ok_iff {cs : List Char} {n : Nat} : readDecimal cs = .ok n ↔
    cs ≠ [] ∧ (∀ c ∈ cs, c.isDigit) ∧ Nat.ofDigitChars 10 cs 0 = n ∧ n < unsignedBound := by
  rw [readDecimal]
  constructor
  · intro h
    split at h
    · exact absurd h (by simp)
    · next hne => exact ⟨by simpa using hne, digits_of_readDigits (by decide) h⟩
  · rintro ⟨hne, hdigits, rfl, hbound⟩
    rw [if_neg (by simpa using hne), readDigits_of_digits hdigits hbound]

theorem toList_toString (n : Nat) : (toString n).toList = Nat.toDigits 10 n :=
  String.toList_ofList

theorem isDigit_of_mem_toString {n : Nat} {c : Char} (h : c ∈ (toString n).toList) :
    c.isDigit := by
  rw [toList_toString] at h
  exact Nat.isDigit_of_mem_toDigits (by decide) (by decide) h

/-- Different numbers are written differently. -/
theorem toString_inj {m n : Nat} : toString m = toString n ↔ m = n := by
  refine ⟨fun h => ?_, fun h => congrArg toString h⟩
  have hdigits := congrArg (fun s : String => Nat.ofDigitChars 10 s.toList 0) h
  simpa only [toList_toString, Nat.ofDigitChars_ten_toDigits] using hdigits

/-- The digits of a positive number do not start with zero. -/
theorem exists_toDigits_cons (n : Nat) (h : 0 < n) :
    ∃ c cs, Nat.toDigits 10 n = c :: cs ∧ c ≠ '0' := by
  induction n using Nat.strongRecOn with
  | ind n ih =>
    rw [Nat.toDigits_eq_if (by decide)]
    split
    · next hlt =>
      refine ⟨n.digitChar, [], rfl, ?_⟩
      interval_cases n <;> decide
    · next hge =>
      obtain ⟨c, cs, hcs, hc⟩ := ih (n / 10) (by omega) (by omega)
      exact ⟨c, cs ++ [(n % 10).digitChar], by rw [hcs]; rfl, hc⟩

theorem splitBase_of_ne {c : Char} (hc : c ≠ '0') (cs : List Char) :
    splitBase (c :: cs) = (10, c :: cs) := by
  rw [splitBase.eq_def]
  split <;> simp_all

theorem readUnsigned_toDigits {n : Nat} (h : n < unsignedBound) :
    readUnsigned (Nat.toDigits 10 n) = .ok n := by
  have hdigits : ∀ c ∈ Nat.toDigits 10 n, c.isDigit := fun c hc =>
    Nat.isDigit_of_mem_toDigits (by decide) (by decide) hc
  have hunderscore : (Nat.toDigits 10 n).contains '_' = false := by
    rw [List.contains_eq_mem, decide_eq_false_iff_not]
    exact fun hmem => absurd (hdigits _ hmem) (by decide)
  rcases Nat.eq_zero_or_pos n with rfl | hpos
  · -- the zero is taken for the sign of octal digits, and no digits are zero
    rfl
  · have hvalue : readDigits 10 true 0 (Nat.toDigits 10 n) = .ok n := by
      have hn : Nat.ofDigitChars 10 (Nat.toDigits 10 n) 0 = n := Nat.ofDigitChars_ten_toDigits
      rw [readDigits_of_digits hdigits (by rwa [hn]), hn]
    obtain ⟨c, cs, hcs, hc⟩ := exists_toDigits_cons n hpos
    rw [readUnsigned, hunderscore]
    rw [hcs] at hvalue ⊢
    rw [splitBase_of_ne hc]
    simp [hvalue]

theorem splitSign_toDigits (n : Nat) :
    splitSign (Nat.toDigits 10 n) = (false, Nat.toDigits 10 n) := by
  have hdigits : ∀ c ∈ Nat.toDigits 10 n, c.isDigit := fun c hc =>
    Nat.isDigit_of_mem_toDigits (by decide) (by decide) hc
  obtain ⟨c, cs, hcs⟩ := List.exists_cons_of_ne_nil (Nat.toDigits_ne_nil (n := n) (b := 10))
  have hc : c.isDigit := hdigits c (by rw [hcs]; simp)
  rw [hcs, splitSign.eq_def]
  split
  · next heq =>
    obtain ⟨rfl, -⟩ := List.cons.inj heq
    exact absurd hc (by decide)
  · next heq =>
    obtain ⟨rfl, -⟩ := List.cons.inj heq
    exact absurd hc (by decide)
  · rfl

/-- **A word in decimal**: the digits of its magnitude, behind a minus sign if it is negative. -/
theorem decimal_cases (w : Int64) :
    (∃ n : Nat, w.toInt = n ∧ (decimal w).toList = Nat.toDigits 10 n) ∨
      ∃ n : Nat, w.toInt = -n ∧ (decimal w).toList = '-' :: Nat.toDigits 10 n := by
  rw [decimal]
  cases w.toInt with
  | ofNat n => exact Or.inl ⟨n, rfl, String.toList_ofList⟩
  | negSucc n =>
    refine Or.inr ⟨n + 1, Int.negSucc_eq n, ?_⟩
    show ("-" ++ (n + 1).repr).toList = _
    rw [String.toList_append]
    exact congrArg (['-'] ++ ·) String.toList_ofList

/-- **Every word is read back.** -/
theorem readWord_decimal (w : Int64) : readWord (decimal w) = .ok w := by
  have hlow := w.le_toInt
  have hhigh := w.toInt_lt
  have hread : readSigned (decimal w).toList = .ok w.toInt := by
    rcases decimal_cases w with ⟨n, hw, htext⟩ | ⟨n, hw, htext⟩
    · have hn : n < signedBound := by
        simp only [signedBound]
        omega
      have hbound : n < unsignedBound := hn.trans (by decide)
      rw [htext, readSigned, splitSign_toDigits]
      simp only [readUnsigned_toDigits hbound, signed, if_neg (Nat.not_le.mpr hn), hw,
        Bool.false_eq_true, if_false]
    · -- the bound on a magnitude is higher by one behind a minus sign
      have hn : n ≤ signedBound := by
        simp only [signedBound]
        omega
      have hbound : n < unsignedBound := hn.trans_lt (by decide)
      rw [htext, readSigned, splitSign]
      simp only [readUnsigned_toDigits hbound, signed, if_neg (Nat.not_lt.mpr hn), hw, if_true]
  rw [readWord, hread]
  exact congrArg Except.ok (Int64.ofInt_toInt w)

theorem decimal_ne_empty (w : Int64) : (decimal w).toList ≠ [] := by
  rcases decimal_cases w with ⟨n, -, htext⟩ | ⟨n, -, htext⟩
  · rw [htext]
    exact Nat.toDigits_ne_nil
  · rw [htext]
    simp

/-- A word is written with digits and perhaps a minus sign. -/
theorem mem_decimal {w : Int64} {c : Char} (h : c ∈ (decimal w).toList) :
    c = '-' ∨ c.isDigit := by
  have hdigit : ∀ {n : Nat}, c ∈ Nat.toDigits 10 n → c.isDigit := fun hmem =>
    Nat.isDigit_of_mem_toDigits (by decide) (by decide) hmem
  rcases decimal_cases w with ⟨n, -, htext⟩ | ⟨n, -, htext⟩
  · rw [htext] at h
    exact Or.inr (hdigit h)
  · rw [htext] at h
    exact (List.mem_cons.mp h).imp_right hdigit

end Text.Numeral

end BranchFusion
