import Torrentina.Core.BigEndian
import Torrentina.Core.Chunks
import Torrentina.Core.Utf8
import Torrentina.Error
import Torrentina.Net

/-!
# Announcing to a tracker

What an announce sends and what it returns, whatever the transport, and the
compact peer lists, of which both transports share the IPv4 one.
-/

namespace Torrentina.Tracker

open Torrentina.Core

/-- Width in bytes of one compact IPv4 peer entry: 4 (addr) + 2 (port). -/
def compactPeerV4Len : Nat := 6

/-- Width in bytes of one compact IPv6 peer entry: 16 (addr) + 2 (port). -/
def compactPeerV6Len : Nat := 18

/-- The announce event. -/
inductive Event
  | started
  | stopped
  | completed
  | none
  deriving DecidableEq, Repr

/-- The numeric code used in the UDP announce packet. -/
def Event.asUdpCode : Event → Nat
  | .none => 0
  | .completed => 1
  | .started => 2
  | .stopped => 3

/-- Everything needed to issue an announce, independent of transport. -/
structure AnnounceParams where
  infoHash : Vector UInt8 20
  peerId : Vector UInt8 20
  port : UInt16
  uploaded : UInt64
  downloaded : UInt64
  left : UInt64
  event : Event
  compact : Bool
  numwant : Option UInt32

/-- A transport-agnostic parsed tracker response. -/
structure AnnounceResponse where
  interval : UInt64
  peers : List SocketAddr
  seeders : Option UInt32
  leechers : Option UInt32
  deriving DecidableEq, Repr

/-- The address in one compact entry, `chunks_exact` dropping what is left over. -/
def compactPeersV4 : List UInt8 → List SocketAddr
  | a :: b :: c :: d :: p :: q :: rest =>
    .v4 (BitVec.ofNat 32 (ofBE [a, b, c, d])) (UInt16.ofNat (ofBE [p, q])) :: compactPeersV4 rest
  | _ => []

/-- Parse a flat compact peer blob. -/
def parseCompactPeersV4 (bytes : List UInt8) : Except Error (List SocketAddr) :=
  if bytes.length % compactPeerV4Len ≠ 0 then
    .error (.invalidPeersData bytes.length compactPeerV4Len)
  else .ok (compactPeersV4 bytes)

/-- The address in one compact IPv6 entry. -/
def compactPeerV6 (c : List UInt8) : SocketAddr :=
  .v6 (BitVec.ofNat 128 (ofBE (c.take 16))) (UInt16.ofNat (ofBE ((c.drop 16).take 2)))

/-- Parse a flat compact IPv6 peer blob. -/
def parseCompactPeersV6 (bytes : List UInt8) : Except Error (List SocketAddr) :=
  if bytes.length % compactPeerV6Len ≠ 0 then
    .error (.invalidPeersData bytes.length compactPeerV6Len)
  else .ok ((chunksExact compactPeerV6Len bytes).map compactPeerV6)

theorem length_compactPeersV4 (bytes : List UInt8) :
    (compactPeersV4 bytes).length = bytes.length / compactPeerV4Len := by
  fun_induction compactPeersV4 bytes with
  | case1 a b c d p q rest ih =>
    simp only [List.length_cons, ih, compactPeerV4Len]
    omega
  | case2 bytes hshort =>
    rcases bytes with _ | ⟨a, _ | ⟨b, _ | ⟨c, _ | ⟨d, _ | ⟨p, _ | ⟨q, rest⟩⟩⟩⟩⟩⟩
    iterate 6 simp [compactPeerV4Len]
    exact absurd rfl (hshort a b c d p q rest)

/-- A blob that parses has no more peers than it has bytes for. -/
theorem parseCompactPeersV4_length {bytes : List UInt8} {peers : List SocketAddr}
    (h : parseCompactPeersV4 bytes = .ok peers) :
    compactPeerV4Len * peers.length = bytes.length := by
  unfold parseCompactPeersV4 at h
  split at h
  · cases h
  · rename_i hmod
    obtain rfl := Except.ok.inj h
    rw [length_compactPeersV4, Nat.mul_div_cancel' (Nat.dvd_of_mod_eq_zero (not_not.mp hmod))]

end Torrentina.Tracker
