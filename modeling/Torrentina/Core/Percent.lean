import Mathlib.Data.List.Basic

/-!
# Percent encoding

Bytes written as themselves or as `%` and two hexadecimal digits, and read back.
The bytes to escape are a parameter; those outside ASCII are escaped whatever it
says. Text so written has a byte from the set only where an escape uses it, and
any set with `%` in it can be read back.
-/

namespace Torrentina.Core

/-- The ASCII bytes to escape. -/
abbrev AsciiSet : Type := UInt8 → Bool

/-- Everything that is not an ASCII letter or digit. -/
def nonAlphanumeric : AsciiSet := fun b =>
  !((48 ≤ b.toNat && b.toNat ≤ 57) || (65 ≤ b.toNat && b.toNat ≤ 90) ||
    (97 ≤ b.toNat && b.toNat ≤ 122))

/-- Leave one byte out of a set. -/
def AsciiSet.remove (set : AsciiSet) (byte : UInt8) : AsciiSet := fun b => set b && b != byte

def bytePercent : UInt8 := '%'.toUInt8

/-- The uppercase hexadecimal digit of a number below 16. -/
def hexDigit (d : Nat) : UInt8 := UInt8.ofNat (if d < 10 then 48 + d else 55 + d)

/-- The number a hexadecimal digit of either case stands for. -/
def hexValue (b : UInt8) : Option Nat :=
  if 48 ≤ b.toNat ∧ b.toNat ≤ 57 then some (b.toNat - 48)
  else if 65 ≤ b.toNat ∧ b.toNat ≤ 70 then some (b.toNat - 55)
  else if 97 ≤ b.toNat ∧ b.toNat ≤ 102 then some (b.toNat - 87)
  else none

/-- How one byte is written. -/
def percentByte (set : AsciiSet) (b : UInt8) : List UInt8 :=
  if set b ∨ 0x80 ≤ b.toNat then [bytePercent, hexDigit (b.toNat / 16), hexDigit (b.toNat % 16)]
  else [b]

/-- Write every byte. -/
def percentEncode (set : AsciiSet) (bytes : List UInt8) : List UInt8 :=
  bytes.flatMap (percentByte set)

/-- The byte of two hexadecimal digits. -/
def hexPair (hi lo : UInt8) : Option UInt8 := do
  let h ← hexValue hi
  let l ← hexValue lo
  return UInt8.ofNat (16 * h + l)

/-- Read text back. A `%` that begins no escape stands for itself. -/
def percentDecode : List UInt8 → List UInt8
  | b :: hi :: lo :: rest =>
    if b = bytePercent then
      match hexPair hi lo with
      | some c => c :: percentDecode rest
      | none => b :: percentDecode (hi :: lo :: rest)
    else b :: percentDecode (hi :: lo :: rest)
  | short => short

/-- Bytes that need no escape are written as they stand. -/
theorem percentEncode_of_forall {set : AsciiSet} {bytes : List UInt8}
    (h : ∀ b ∈ bytes, set b = false ∧ b.toNat < 0x80) : percentEncode set bytes = bytes := by
  induction bytes with
  | nil => rfl
  | cons b bytes ih =>
    obtain ⟨hset, hascii⟩ := h b List.mem_cons_self
    have hrest := ih fun c hc => h c (List.mem_cons_of_mem b hc)
    have hesc : ¬(set b = true ∨ 0x80 ≤ b.toNat) := by
      rintro (hb | hb)
      · exact Bool.false_ne_true (hset.symm.trans hb)
      · omega
    rw [percentEncode, List.flatMap_cons, percentByte, if_neg hesc, ← percentEncode, hrest]
    rfl

/-! ## Reading back -/

/-- A byte that begins no escape is read as itself. -/
theorem percentDecode_cons_of_ne {b : UInt8} (hb : b ≠ bytePercent) (rest : List UInt8) :
    percentDecode (b :: rest) = b :: percentDecode rest := by
  match rest with
  | [] | [_] => simp [percentDecode]
  | hi :: lo :: rest => rw [percentDecode, if_neg hb]

theorem hexValue_hexDigit {d : Nat} (h : d < 16) : hexValue (hexDigit d) = some d := by
  have hall : ∀ d : Fin 16, hexValue (hexDigit d.val) = some d.val := by decide
  exact hall ⟨d, h⟩

/-- The two digits of a byte give the byte back. -/
theorem hexPair_hexDigit (b : UInt8) :
    hexPair (hexDigit (b.toNat / 16)) (hexDigit (b.toNat % 16)) = some b := by
  have hb : b.toNat < 256 := b.toNat_lt
  have hhi : b.toNat / 16 < 16 := by omega
  have hlo : b.toNat % 16 < 16 := by omega
  rw [hexPair, hexValue_hexDigit hhi, hexValue_hexDigit hlo]
  change some (UInt8.ofNat (16 * (b.toNat / 16) + b.toNat % 16)) = some b
  rw [Nat.div_add_mod, UInt8.ofNat_toNat]

theorem percentDecode_percentByte {set : AsciiSet} (hset : set bytePercent = true) (b : UInt8)
    (rest : List UInt8) : percentDecode (percentByte set b ++ rest) = b :: percentDecode rest := by
  rw [percentByte]
  split
  · change percentDecode (bytePercent :: hexDigit (b.toNat / 16) :: hexDigit (b.toNat % 16) ::
      rest) = _
    rw [percentDecode, if_pos rfl, hexPair_hexDigit]
  · rename_i hesc
    have hb : b ≠ bytePercent := by
      rintro rfl
      exact hesc (.inl hset)
    exact percentDecode_cons_of_ne hb rest

/-- A set that escapes `%` loses nothing. -/
theorem percentDecode_percentEncode {set : AsciiSet} (hset : set bytePercent = true)
    (bytes : List UInt8) : percentDecode (percentEncode set bytes) = bytes := by
  induction bytes with
  | nil => rfl
  | cons b bytes ih =>
    rw [percentEncode, List.flatMap_cons, percentDecode_percentByte hset, ← percentEncode, ih]

/-! ## What can occur -/

theorem hexValue_hexDigit_ne_none {d : Nat} (h : d < 16) : hexValue (hexDigit d) ≠ none := by
  rw [hexValue_hexDigit h]
  exact Option.some_ne_none d

/-- A byte of the set that no escape is made of. -/
def AsciiSet.KeepsOut (set : AsciiSet) (c : UInt8) : Prop :=
  set c = true ∧ c ≠ bytePercent ∧ hexValue c = none

instance (set : AsciiSet) (c : UInt8) : Decidable (set.KeepsOut c) :=
  inferInstanceAs (Decidable (_ ∧ _ ∧ _))

/-- Such a byte does not occur, whatever is written. -/
theorem notMem_percentEncode {set : AsciiSet} {c : UInt8} (hc : set.KeepsOut c)
    (bytes : List UInt8) : c ∉ percentEncode set bytes := by
  obtain ⟨hset, hp, hx⟩ := hc
  rw [percentEncode, List.mem_flatMap]
  rintro ⟨b, -, hm⟩
  rw [percentByte] at hm
  split at hm
  · have hlt : b.toNat < 256 := b.toNat_lt
    simp only [List.mem_cons, List.not_mem_nil, or_false] at hm
    -- the percent sign, and a digit in either of its two places
    rcases hm with rfl | rfl | rfl
    · exact hp rfl
    · exact hexValue_hexDigit_ne_none (by omega) hx
    · exact hexValue_hexDigit_ne_none (by omega) hx
  · rename_i hesc
    obtain rfl := List.mem_singleton.mp hm
    exact hesc (.inl hset)

end Torrentina.Core
