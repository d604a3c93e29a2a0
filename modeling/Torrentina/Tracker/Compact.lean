import Torrentina.Tracker.Types

/-!
# Compact peer lists a tracker sends

One entry is an address and a port, both big-endian. A list of one family is
read back by the parser of that family. The widths tell the families apart only
where 18 bytes are not read as three times six.
-/

namespace Torrentina.Tracker

open Torrentina.Core

/-- The peers of one address family, as the tracker knows them. -/
abbrev Peers (width : Nat) : Type := List (BitVec width × UInt16)

/-- One compact entry: the address in `len` bytes and the port in two. -/
def compactEntry {width : Nat} (len : Nat) (peer : BitVec width × UInt16) : List UInt8 :=
  toBE len peer.1.toNat ++ toBE 2 peer.2.toNat

/-- The blob of a list of IPv4 peers. -/
def compactV4 (peers : Peers 32) : List UInt8 := (peers.map (compactEntry 4)).flatten

/-- The blob of a list of IPv6 peers. -/
def compactV6 (peers : Peers 128) : List UInt8 := (peers.map (compactEntry 16)).flatten

/-- The addresses a list of IPv4 peers stands for. -/
def addrsV4 (peers : Peers 32) : List SocketAddr := peers.map fun p => .v4 p.1 p.2

/-- The addresses a list of IPv6 peers stands for. -/
def addrsV6 (peers : Peers 128) : List SocketAddr := peers.map fun p => .v6 p.1 p.2

@[simp] theorem length_compactEntry {width : Nat} (len : Nat) (peer : BitVec width × UInt16) :
    (compactEntry len peer).length = len + 2 := by
  rw [compactEntry, List.length_append, length_toBE, length_toBE]

private theorem length_flatten_entries {width : Nat} (len : Nat) (peers : Peers width) :
    (peers.map (compactEntry len)).flatten.length = (len + 2) * peers.length := by
  induction peers with
  | nil => rfl
  | cons p ps ih =>
    rw [List.map_cons, List.flatten_cons, List.length_append, ih, length_compactEntry,
      List.length_cons, Nat.mul_succ, Nat.add_comm]

/-- An IPv4 peer takes six bytes. -/
theorem length_compactV4 (peers : Peers 32) :
    (compactV4 peers).length = compactPeerV4Len * peers.length :=
  length_flatten_entries 4 peers

/-- An IPv6 peer takes eighteen bytes. -/
theorem length_compactV6 (peers : Peers 128) :
    (compactV6 peers).length = compactPeerV6Len * peers.length :=
  length_flatten_entries 16 peers

/-- A port is read back from its bytes. -/
private theorem port_toBE (port : UInt16) : UInt16.ofNat (ofBE (toBE 2 port.toNat)) = port := by
  rw [ofBE_toBE_of_lt (by simpa using port.toNat_lt), UInt16.ofNat_toNat]

/-- An address is read back from its bytes. -/
private theorem addr_toBE (len : Nat) (ip : BitVec (8 * len)) :
    BitVec.ofNat (8 * len) (ofBE (toBE len ip.toNat)) = ip := by
  have h : ip.toNat < 256 ^ len := by
    have := ip.isLt
    rwa [Nat.pow_mul] at this
  rw [ofBE_toBE_of_lt h, BitVec.ofNat_toNat, BitVec.setWidth_eq]

/-! ## Reading a list back -/

/-- The first IPv4 entry is read as its address and port. -/
theorem compactPeersV4_entry (peer : BitVec 32 × UInt16) (rest : List UInt8) :
    compactPeersV4 (compactEntry 4 peer ++ rest) = .v4 peer.1 peer.2 :: compactPeersV4 rest := by
  have hip : BitVec.ofNat 32 (ofBE (toBE 4 peer.1.toNat)) = peer.1 := addr_toBE 4 peer.1
  have hport := port_toBE peer.2
  obtain ⟨a, b, c, d, ha⟩ : ∃ a b c d, toBE 4 peer.1.toNat = [a, b, c, d] := ⟨_, _, _, _, rfl⟩
  obtain ⟨p, q, hp⟩ : ∃ p q, toBE 2 peer.2.toNat = [p, q] := ⟨_, _, rfl⟩
  rw [ha] at hip
  rw [hp] at hport
  rw [compactEntry, ha, hp]
  simp only [List.cons_append, List.nil_append, compactPeersV4, hip, hport]

/-- IPv4 entries are read back in order. -/
theorem compactPeersV4_compactV4 (peers : Peers 32) :
    compactPeersV4 (compactV4 peers) = addrsV4 peers := by
  rw [compactV4]
  induction peers with
  | nil => rfl
  | cons p ps ih =>
    rw [List.map_cons, List.flatten_cons, compactPeersV4_entry, ih]
    rfl

/-- A compact IPv4 list is read back. -/
theorem parseCompactPeersV4_compactV4 (peers : Peers 32) :
    parseCompactPeersV4 (compactV4 peers) = .ok (addrsV4 peers) := by
  rw [parseCompactPeersV4, length_compactV4, Nat.mul_mod_right, if_neg (not_not.mpr rfl),
    compactPeersV4_compactV4]

/-- An IPv6 entry is read as its address and port. -/
theorem compactPeerV6_entry (peer : BitVec 128 × UInt16) :
    compactPeerV6 (compactEntry 16 peer) = .v6 peer.1 peer.2 := by
  have hip : BitVec.ofNat 128 (ofBE (toBE 16 peer.1.toNat)) = peer.1 := addr_toBE 16 peer.1
  have htake : (compactEntry 16 peer).take 16 = toBE 16 peer.1.toNat :=
    List.take_left' (length_toBE 16 peer.1.toNat)
  have hdrop : ((compactEntry 16 peer).drop 16).take 2 = toBE 2 peer.2.toNat := by
    rw [compactEntry, List.drop_left' (length_toBE 16 peer.1.toNat)]
    exact List.take_of_length_le (by simp)
  simp only [compactPeerV6, htake, hdrop, hip, port_toBE]

/-- A compact IPv6 list is read back. -/
theorem parseCompactPeersV6_compactV6 (peers : Peers 128) :
    parseCompactPeersV6 (compactV6 peers) = .ok (addrsV6 peers) := by
  have hw : ∀ e ∈ peers.map (compactEntry 16), e.length = compactPeerV6Len := by
    intro e he
    obtain ⟨p, -, rfl⟩ := List.mem_map.mp he
    exact length_compactEntry 16 p
  have hread : (chunksExact compactPeerV6Len (compactV6 peers)).map compactPeerV6 =
      addrsV6 peers := by
    rw [compactV6, chunksExact_flatten (by decide) hw, List.map_map, addrsV6]
    apply List.map_congr_left
    intro p _
    rw [Function.comp_apply, compactPeerV6_entry]
  rw [parseCompactPeersV6, length_compactV6, Nat.mul_mod_right, if_neg (not_not.mpr rfl), hread]

/-! ## Blobs that are rejected -/

/-- An IPv4 list is rejected exactly when it is not made of whole entries. -/
theorem parseCompactPeersV4_isError_iff (bytes : List UInt8) :
    (∃ e, parseCompactPeersV4 bytes = .error e) ↔ ¬ compactPeerV4Len ∣ bytes.length := by
  rw [Nat.dvd_iff_mod_eq_zero, parseCompactPeersV4]
  split <;> simp_all

/-- An IPv6 list is rejected exactly when it is not made of whole entries. -/
theorem parseCompactPeersV6_isError_iff (bytes : List UInt8) :
    (∃ e, parseCompactPeersV6 bytes = .error e) ↔ ¬ compactPeerV6Len ∣ bytes.length := by
  rw [Nat.dvd_iff_mod_eq_zero, parseCompactPeersV6]
  split <;> simp_all

end Torrentina.Tracker
