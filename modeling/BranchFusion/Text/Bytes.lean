/-!
# Texts as bytes

Some texts come as rows of bytes. A text that can be written down is a row of bytes, its UTF-8
encoding, but not every row of bytes encodes characters. Such a row is still read byte by byte like
any other; where it has to be shown, each byte that belongs to no character is shown as the
replacement character.
-/

namespace BranchFusion.Text

/-- A row of bytes that is read as a text. -/
structure Bytes where
  codes : List UInt8
deriving DecidableEq, Repr, Inhabited

namespace Bytes

/-- The UTF-8 encoding of a text. -/
def ofString (s : String) : Bytes := ⟨s.toUTF8.data.toList⟩

instance : Coe String Bytes := ⟨ofString⟩

/-- The bytes, each taken as the character with that code. -/
def chars (b : Bytes) : List Char := b.codes.map fun n => Char.ofNat n.toNat

/-- The text that is encoded, if there is one. -/
def text? (b : Bytes) : Option String := String.fromUTF8? ⟨b.codes.toArray⟩

/-- Characters from bytes; the first `within` bytes belong to a character that has been read. -/
def shownFrom : (within : Nat) → List UInt8 → List Char
  | _, [] => []
  | n + 1, _ :: bs => shownFrom n bs
  | 0, b :: bs =>
    match (ByteArray.mk (b :: bs.take 3).toArray).utf8DecodeChar? 0 with
    | some c => c :: shownFrom (c.utf8Size - 1) bs
    | none => '\ufffd' :: shownFrom 0 bs

/-- **Bytes as they are shown**: the characters they encode, and a replacement character for each
byte that belongs to none. -/
def shown (b : Bytes) : String := String.ofList (shownFrom 0 b.codes)

/-- Every text can be read back from its bytes. -/
theorem text?_ofString (s : String) : (ofString s).text? = some s := by
  have h : (ByteArray.mk s.toUTF8.data.toList.toArray) = s.toUTF8 := by simp
  unfold text? ofString
  rw [h, String.fromUTF8?, dif_pos (show s.toUTF8.IsValidUTF8 from s.isValidUTF8)]
  rfl

end Bytes

/-- The bytes of a text, each taken as the character with that code. -/
def bytes (s : String) : List Char := (Bytes.ofString s).chars

end BranchFusion.Text
