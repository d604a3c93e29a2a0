import Torrentina.Error

/-!
# The peer handshake

The fixed 68-byte opening: the length of the protocol string, the string, eight
reserved bytes, the info hash and the peer id.
-/

namespace Torrentina.Peer

/-- A byte string of a fixed length. -/
abbrev Bytes (n : Nat) := { l : List UInt8 // l.length = n }

/-- Protocol identifier string for BitTorrent v1. -/
def pstr : List UInt8 := "BitTorrent protocol".toList.map fun c => UInt8.ofNat c.toNat

/-- Total handshake length: `1 + 19 + 8 + 20 + 20`. -/
def handshakeLen : Nat := 68

/-- A parsed (or to-be-sent) handshake. -/
@[ext] structure Handshake where
  reserved : Bytes 8
  infoHash : Bytes 20
  peerId : Bytes 20
  deriving DecidableEq

namespace Handshake

/-- A handshake with all reserved bits cleared. -/
def new (infoHash peerId : Bytes 20) : Handshake := ⟨⟨List.replicate 8 0, rfl⟩, infoHash, peerId⟩

/-- Serialize to the 68-byte wire form. -/
def toBytes (h : Handshake) : List UInt8 :=
  UInt8.ofNat pstr.length :: (pstr ++ (h.reserved.val ++ (h.infoHash.val ++ h.peerId.val)))

/-- Parse and validate a 68-byte handshake from the wire. -/
def fromBytes (buf : List UInt8) : Except Error Handshake :=
  if hlen : buf.length ≠ handshakeLen then
    .error (.peerProtocol s!"handshake must be {handshakeLen} bytes, got {buf.length}")
  else if (buf.headD 0).toNat ≠ pstr.length then
    .error (.peerProtocol s!"unexpected pstrlen {(buf.headD 0).toNat}")
  else if (buf.drop 1).take 19 ≠ pstr then
    .error (.peerProtocol "unexpected protocol string")
  else
    have h68 : buf.length = 68 := not_not.mp hlen
    .ok
      { reserved := ⟨(buf.drop 20).take 8, by simp [h68]⟩
        infoHash := ⟨(buf.drop 28).take 20, by simp [h68]⟩
        peerId := ⟨(buf.drop 48).take 20, by simp [h68]⟩ }

theorem length_pstr : pstr.length = 19 := by decide

theorem length_toBytes (h : Handshake) : h.toBytes.length = handshakeLen := by
  rw [toBytes, List.length_cons, List.length_append, List.length_append, List.length_append,
    length_pstr, h.reserved.property, h.infoHash.property, h.peerId.property, handshakeLen]

/-- The fields of a handshake lie behind the protocol string. -/
theorem drop_toBytes (h : Handshake) {n k : Nat} (hn : n = k + 20) : h.toBytes.drop n =
    (h.reserved.val ++ (h.infoHash.val ++ h.peerId.val)).drop k := by
  rw [toBytes, hn, show k + 20 = 19 + k + 1 by omega, List.drop_succ_cons, ← List.drop_drop,
    List.drop_left' length_pstr]

/-- The parts of a handshake read back. -/
theorem fromBytes_toBytes (h : Handshake) : fromBytes h.toBytes = .ok h := by
  have hlen := h.length_toBytes
  have hhead : (h.toBytes.headD 0).toNat = pstr.length := by rw [length_pstr]; rfl
  have hpstr : (h.toBytes.drop 1).take 19 = pstr := List.take_left' length_pstr
  rw [fromBytes, dif_neg (not_not.mpr hlen), if_neg (not_not.mpr hhead), if_neg (not_not.mpr hpstr)]
  refine congrArg Except.ok (Handshake.ext (Subtype.ext ?_) (Subtype.ext ?_) (Subtype.ext ?_))
  · show (h.toBytes.drop 20).take 8 = h.reserved.val
    rw [h.drop_toBytes (k := 0) rfl, List.drop_zero, List.take_left' h.reserved.property]
  · show (h.toBytes.drop 28).take 20 = h.infoHash.val
    rw [h.drop_toBytes (k := 8) rfl, List.drop_left' h.reserved.property,
      List.take_left' h.infoHash.property]
  · show (h.toBytes.drop 48).take 20 = h.peerId.val
    rw [h.drop_toBytes (k := 28) rfl, ← List.append_assoc, List.drop_left',
      List.take_of_length_le (Nat.le_of_eq h.peerId.property)]
    rw [List.length_append, h.reserved.property, h.infoHash.property]

/-- What is accepted was written by a handshake. -/
theorem toBytes_of_fromBytes {buf : List UInt8} {h : Handshake} (hb : fromBytes buf = .ok h) :
    h.toBytes = buf := by
  unfold fromBytes at hb
  split at hb
  · cases hb
  rename_i hlen
  split at hb
  · cases hb
  rename_i hhead
  split at hb
  · cases hb
  rename_i hpstr
  obtain rfl := (Except.ok.inj hb).symm
  have h68 : buf.length = 68 := not_not.mp hlen
  have hpeer : (buf.drop 48).take 20 = buf.drop 48 :=
    List.take_of_length_le (by simp [h68])
  have hinfo : (buf.drop 28).take 20 ++ buf.drop 48 = buf.drop 28 := by
    rw [show 48 = 28 + 20 from rfl, ← List.drop_drop, List.take_append_drop]
  have hreserved : (buf.drop 20).take 8 ++ buf.drop 28 = buf.drop 20 := by
    rw [show 28 = 20 + 8 from rfl, ← List.drop_drop, List.take_append_drop]
  have hstring : pstr ++ buf.drop 20 = buf.drop 1 := by
    rw [← not_not.mp hpstr, show 20 = 1 + 19 from rfl, ← List.drop_drop, List.take_append_drop]
  rw [toBytes]
  simp only
  rw [hpeer, hinfo, hreserved, hstring, ← not_not.mp hhead, UInt8.ofNat_toNat]
  cases buf with
  | nil => cases h68
  | cons b rest => rfl

/-- Parsing accepts exactly the bytes some handshake writes, and gives that handshake back. -/
theorem accepts_written (buf : List UInt8) :
    (∀ h, fromBytes buf = .ok h ↔ h.toBytes = buf) ∧
      ((∃ e, fromBytes buf = .error e) ↔ ∀ h : Handshake, h.toBytes ≠ buf) := by
  have hiff : ∀ h, fromBytes buf = .ok h ↔ h.toBytes = buf := by
    intro h
    constructor
    · exact toBytes_of_fromBytes
    · rintro rfl
      exact h.fromBytes_toBytes
  refine ⟨hiff, ?_, fun hnone => ?_⟩
  · rintro ⟨e, he⟩ h hh
    rw [(hiff h).mpr hh] at he
    cases he
  · cases hb : fromBytes buf with
    | error e => exact ⟨e, rfl⟩
    | ok h => exact absurd ((hiff h).mp hb) (hnone h)

end Handshake

end Torrentina.Peer
