import Torrentina.Core.BigEndian
import Torrentina.Core.Decimal

/-!
# Dotted-decimal IPv4 addresses

Printing an address as four decimal octets and reading one back. An octet has
one to three digits, no leading zero, and fits a byte.
-/

namespace Torrentina.Core

/-- The separator of the octets. -/
def dot : UInt8 := '.'.toUInt8

/-- `Ipv4Addr::to_string`. -/
def ipv4Text (ip : BitVec 32) : List UInt8 :=
  List.intercalate [dot] ((toBE 4 ip.toNat).map fun b => decimal b.toNat)

/-- One octet of an address. -/
def parseOctet (text : List UInt8) : Option UInt8 :=
  if 3 < text.length ∨ text.head? = some '0'.toUInt8 ∧ 1 < text.length then none
  else (parseDecimal text).bind fun n => if n < 256 then some (UInt8.ofNat n) else none

/-- `str::parse::<Ipv4Addr>`. -/
def parseIpv4 (text : List UInt8) : Option (BitVec 32) :=
  match (text.splitOn dot).mapM parseOctet with
  | some [a, b, c, d] => some (BitVec.ofNat 32 (ofBE [a, b, c, d]))
  | _ => none

/-! ## The round trip -/

/-- The digits of an octet, without leading zeros. -/
theorem decimal_octet {n : Nat} (h : n < 256) :
    (decimal n).length ≤ 3 ∧ ((decimal n).head? = some '0'.toUInt8 → (decimal n).length ≤ 1) := by
  have digit (d : Nat) (hd : d < 10) (h0 : d ≠ 0) : UInt8.ofNat (48 + d) ≠ '0'.toUInt8 := by
    intro he
    have := congrArg UInt8.toNat he
    rw [UInt8.toNat_ofNat'] at this
    have h48 : ('0'.toUInt8).toNat = 48 := rfl
    omega
  rw [decimal]
  split
  · exact ⟨by simp, fun _ => by simp⟩
  · rename_i h10
    rw [decimal]
    split
    · exact ⟨by simp, fun hh => absurd (Option.some.inj hh) (digit _ (by omega) (by omega))⟩
    · rename_i h100
      rw [decimal, if_pos (by omega)]
      exact ⟨by simp, fun hh => absurd (Option.some.inj hh) (digit _ (by omega) (by omega))⟩

theorem parseOctet_decimal (b : UInt8) : parseOctet (decimal b.toNat) = some b := by
  have hb : b.toNat < 256 := b.toNat_lt
  obtain ⟨hlen, hzero⟩ := decimal_octet hb
  have hok : ¬ (3 < (decimal b.toNat).length ∨
      (decimal b.toNat).head? = some '0'.toUInt8 ∧ 1 < (decimal b.toNat).length) := by
    rintro (h | ⟨h0, h1⟩)
    · omega
    · have := hzero h0
      omega
  rw [parseOctet, if_neg hok, parseDecimal_decimal, Option.bind_some, if_pos hb,
    UInt8.ofNat_toNat]

theorem parseIpv4_ipv4Text (ip : BitVec 32) : parseIpv4 (ipv4Text ip) = some ip := by
  obtain ⟨a, b, c, d, hbe⟩ : ∃ a b c d, toBE 4 ip.toNat = [a, b, c, d] := ⟨_, _, _, _, rfl⟩
  have hsplit : (ipv4Text ip).splitOn dot = [a, b, c, d].map fun b => decimal b.toNat := by
    rw [ipv4Text, hbe]
    apply List.splitOn_intercalate
    · intro text ht
      obtain ⟨b, -, rfl⟩ := List.mem_map.mp ht
      exact notMem_decimal (by decide) b.toNat
    · simp
  have hoctets : ((ipv4Text ip).splitOn dot).mapM parseOctet = some [a, b, c, d] := by
    simp [hsplit, parseOctet_decimal]
  rw [parseIpv4, hoctets]
  simp only
  rw [← hbe, ofBE_toBE_of_lt (by simpa using ip.isLt), BitVec.ofNat_toNat, BitVec.setWidth_eq]

/-- Printed addresses are ASCII. -/
theorem ipv4Text_ascii {ip : BitVec 32} {b : UInt8} (h : b ∈ ipv4Text ip) : b < 0x80 := by
  have digit {n : Nat} (hd : b ∈ decimal n) : b < 0x80 := by
    have := (isDigit_of_mem_decimal hd).2
    exact UInt8.lt_iff_toNat_lt.mpr (Nat.lt_of_le_of_lt this (by decide))
  obtain ⟨p, q, r, s, hbe⟩ : ∃ p q r s, toBE 4 ip.toNat = [p, q, r, s] := ⟨_, _, _, _, rfl⟩
  simp only [ipv4Text, hbe, List.intercalate, List.map_cons, List.map_nil,
    List.intersperse_cons_cons, List.intersperse_singleton, List.flatten_cons, List.flatten_nil,
    List.append_nil, List.mem_append, List.mem_singleton] at h
  rcases h with h | rfl | h | rfl | h | rfl | h
  · exact digit h
  · decide
  · exact digit h
  · decide
  · exact digit h
  · decide
  · exact digit h

end Torrentina.Core
