import Mathlib.Data.List.Basic

/-!
# Lossy UTF-8 decoding

`String::from_utf8_lossy`: every maximal start of a sequence that cannot be
completed becomes one replacement character, and the byte that broke it is read
again as a start.
-/

namespace Torrentina.Core

/-- A sequence that has begun: what the next byte may be, how many bytes are
still missing, and the code point so far. -/
structure Utf8Pending where
  low : UInt8
  high : UInt8
  missing : Nat
  codePoint : Nat

def replacementChar : Char := Char.ofNat 0xFFFD

/-- Read a byte as the start of a sequence. -/
def utf8Start (b : UInt8) : Char ⊕ Utf8Pending :=
  if b < 0x80 then .inl (Char.ofNat b.toNat)
  else if 0xC2 ≤ b ∧ b ≤ 0xDF then .inr ⟨0x80, 0xBF, 1, b.toNat - 0xC0⟩
  else if 0xE0 ≤ b ∧ b ≤ 0xEF then
    .inr ⟨if b = 0xE0 then 0xA0 else 0x80, if b = 0xED then 0x9F else 0xBF, 2, b.toNat - 0xE0⟩
  else if 0xF0 ≤ b ∧ b ≤ 0xF4 then
    .inr ⟨if b = 0xF0 then 0x90 else 0x80, if b = 0xF4 then 0x8F else 0xBF, 3, b.toNat - 0xF0⟩
  else .inl replacementChar

/-- The characters of a byte string, after a sequence that has begun. -/
def utf8Lossy : Option Utf8Pending → List UInt8 → List Char
  | none, [] => []
  | some _, [] => [replacementChar]
  | none, b :: bs =>
    match utf8Start b with
    | .inl c => c :: utf8Lossy none bs
    | .inr p => utf8Lossy (some p) bs
  | some p, b :: bs =>
    if p.low ≤ b ∧ b ≤ p.high then
      let codePoint := p.codePoint * 64 + (b.toNat - 0x80)
      if p.missing = 1 then Char.ofNat codePoint :: utf8Lossy none bs
      else utf8Lossy (some ⟨0x80, 0xBF, p.missing - 1, codePoint⟩) bs
    else
      replacementChar :: match utf8Start b with
        | .inl c => c :: utf8Lossy none bs
        | .inr p => utf8Lossy (some p) bs

/-- `String::from_utf8_lossy`. -/
def fromUtf8Lossy (bytes : List UInt8) : String := String.ofList (utf8Lossy none bytes)

/-- `str::as_bytes`. -/
def utf8Bytes (s : String) : List UInt8 := s.toList.flatMap String.utf8EncodeChar

/-- A string is determined by its bytes. -/
theorem utf8Bytes_inj {s t : String} (h : utf8Bytes s = utf8Bytes t) : s = t := by
  have hbytes : ∀ s : String, (utf8Bytes s).toByteArray = s.toByteArray :=
    fun s => String.utf8Encode_toList
  rw [← String.toByteArray_inj, ← hbytes, ← hbytes, h]

private theorem utf8EncodeChar_ascii {b : UInt8} (h : b < 0x80) :
    String.utf8EncodeChar (Char.ofNat b.toNat) = [b] := by
  have hb : b.toNat < 128 := UInt8.lt_iff_toNat_lt.mp h
  have hv : (Char.ofNat b.toNat).val.toNat = b.toNat := by
    rw [Char.ofNat, dif_pos (.inl (by omega))]
    rfl
  rw [String.utf8EncodeChar, hv, if_pos (by omega), UInt8.ofNat_toNat]

/-- ASCII text survives the lossy decoding byte for byte. -/
theorem utf8Bytes_fromUtf8Lossy {bytes : List UInt8} (h : ∀ b ∈ bytes, b < 0x80) :
    utf8Bytes (fromUtf8Lossy bytes) = bytes := by
  rw [utf8Bytes, fromUtf8Lossy, String.toList_ofList]
  induction bytes with
  | nil => rfl
  | cons b bs ih =>
    obtain ⟨hb, hbs⟩ := List.forall_mem_cons.mp h
    rw [utf8Lossy, utf8Start, if_pos hb, List.flatMap_cons, utf8EncodeChar_ascii hb, ih hbs]
    rfl

end Torrentina.Core
