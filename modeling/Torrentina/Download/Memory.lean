import Torrentina.Download.Control
import Torrentina.Download.Delivery
import Torrentina.Download.Tiling

/-!
# What a run holds in memory

A session keeps the bitfield of its peer and one piece in progress; a piece that
is verified is on its way to the channel, waits in it, or has been taken. Each
piece is verified once, so what is verified and kept adds up to no more than the
content, whatever the peers send.
-/

namespace Torrentina.Download

open Torrentina.Core Peer

/-- The bytes of those pieces. -/
def bytesOf (pieces : List VerifiedPiece) : Nat := (pieces.map fun piece => piece.data.length).sum

/-- The verified piece a session is about to put on the channel. -/
def Session.outgoing (p : Session) : Option VerifiedPiece :=
  match p.phase with
  | .sending piece _ => some piece
  | _ => none

/-- The bytes of the peer's bitfield and of the piece in progress, with a flag for each of
its blocks. A task that has ended holds nothing. -/
def Session.footprint (p : Session) : Nat :=
  if p.subscribed then
    p.peerHas.bytes.length +
      (p.current.map fun asm => asm.buf.length + asm.received.length).getD 0
  else 0

/-- The bytes the sessions hold, and those of the pieces on their way to the consumer. -/
def Swarm.footprint (s : Swarm) : Nat :=
  (s.procs.map Session.footprint).sum + bytesOf (s.procs.filterMap Session.outgoing) +
    bytesOf s.shared.completed.pending

/-- The most a session holds. -/
def Geometry.sessionBytes (g : Geometry) : Nat :=
  byteLen g.numPieces + (g.pieceLength + blockCount g.pieceLength)

section Sessions

variable {sha1 : List UInt8 → List UInt8} {c : Shared} {p : Session}

theorem Session.Sound.footprint_le (hg : c.geometry.WellFormed) (hp : p.Sound sha1 c) :
    p.footprint ≤ c.geometry.sessionBytes := by
  unfold Session.footprint
  split
  · rw [Geometry.sessionBytes, p.peerHas.length_bytes, hp.peerHas]
    refine Nat.add_le_add_left ?_ _
    cases hcur : p.current with
    | none => exact Nat.zero_le _
    | some asm =>
      have hle : asm.length ≤ c.geometry.pieceLength := by
        rw [(hp.current asm hcur).2]
        exact hg.pieceLengthOf_le asm.index
      rw [Option.map_some, Option.getD_some, asm.length_buf, asm.length_received]
      exact Nat.add_le_add hle (Nat.div_le_div_right (by omega))
  · exact Nat.zero_le _

/-- Only running tasks hold anything. -/
theorem sum_footprint_le (hg : c.geometry.WellFormed) {procs : List Session}
    (hall : ∀ p ∈ procs, p.Sound sha1 c) : (procs.map Session.footprint).sum ≤
      procs.countP Session.subscribed * c.geometry.sessionBytes := by
  induction procs with
  | nil => exact Nat.zero_le _
  | cons p procs ih =>
    have hrest := ih fun q hq => hall q (List.mem_cons_of_mem p hq)
    have hp := (hall p List.mem_cons_self).footprint_le hg
    rw [List.map_cons, List.sum_cons, List.countP_cons]
    cases hsub : p.subscribed with
    | true =>
      rw [if_pos rfl, Nat.succ_mul]
      omega
    | false =>
      have hzero : p.footprint = 0 := by rw [Session.footprint, hsub, if_neg Bool.false_ne_true]
      rw [if_neg Bool.false_ne_true, hzero, Nat.zero_add, Nat.add_zero]
      exact hrest

theorem isSending_eq (p : Session) (i : Nat) :
    p.isSending i = (p.outgoing.map fun piece => piece.index == i).getD false := by
  unfold Session.isSending Session.outgoing
  cases p.phase <;> rfl

end Sessions

/-! ## Verified pieces -/

/-- The verified pieces of a run: those put on the channel and those about to be. -/
def Swarm.verified (s : Swarm) : List VerifiedPiece :=
  s.shared.completed.sent ++ s.procs.filterMap Session.outgoing

/-- A piece is verified as often as it was put on the channel or is about to be. -/
theorem count_verified (s : Swarm) (i : Nat) :
    (s.verified.map VerifiedPiece.index).count i =
      s.shared.emitted i + s.procs.countP (Session.isSending i) := by
  rw [List.count_eq_countP, List.countP_map, Swarm.verified, List.countP_append,
    List.countP_filterMap]
  congr 1
  exact List.countP_congr fun p _ => by rw [isSending_eq]; rfl

theorem bytesOf_append (l l' : List VerifiedPiece) :
    bytesOf (l ++ l') = bytesOf l + bytesOf l' := by
  rw [bytesOf, List.map_append, List.sum_append]
  rfl

/-- Distinct pieces of a torrent are together no longer than its content. -/
theorem bytesOf_le {sha1 : List UInt8 → List UInt8} {g : Geometry} {hashes : List (List UInt8)}
    {pieces : List VerifiedPiece} (hg : g.WellFormed)
    (hvalid : ∀ piece ∈ pieces, piece.Valid sha1 g hashes)
    (hnodup : (pieces.map VerifiedPiece.index).Nodup) : bytesOf pieces ≤ g.totalLength := by
  have hlen : bytesOf pieces = ((pieces.map VerifiedPiece.index).map g.pieceLengthOf).sum := by
    rw [bytesOf, List.map_map]
    congr 1
    exact List.map_congr_left fun piece hp => (hvalid piece hp).length_data
  rw [hlen, ← List.sum_toFinset _ hnodup]
  refine hg.tiles_pieces.sum_le fun i hi => ?_
  obtain ⟨piece, hp, rfl⟩ := List.mem_map.mp (List.mem_toFinset.mp hi)
  exact Finset.mem_range.mpr (hvalid piece hp).index_lt

/-- Memory is bounded whatever the peers send: in every reachable state of every run the
running sessions hold at most the bitfield of the peer, one piece and its block flags each,
and every verified piece, wherever it is, is there once. -/
theorem memory_bounded {sha1 : List UInt8 → List UInt8} {info : Info}
    {infoHash peerId : List UInt8} {c : Coordinator}
    (h : Coordinator.new info infoHash peerId = .ok c) {s : Swarm}
    (hr : (c.system sha1).Reachable s) :
    s.footprint + bytesOf s.shared.completed.received ≤
      s.procs.countP Session.subscribed * c.geometry.sessionBytes + c.geometry.totalLength := by
  obtain ⟨hsound, hall⟩ := Coordinator.sound h hr
  have hg : s.shared.geometry = c.geometry := (Coordinator.extends_start hr).geometry
  have hwf := hsound.wellFormed
  have hheld := sum_footprint_le hwf hall
  -- no piece is verified twice
  have hnodup : (s.verified.map VerifiedPiece.index).Nodup := by
    rw [List.nodup_iff_count_le_one]
    intro i
    rw [count_verified]
    exact (balanced_reachable h hr i).1.trans (Bool.toNat_le _)
  have hvalid : ∀ piece ∈ s.verified,
      piece.Valid sha1 s.shared.geometry s.shared.tracker.pieceHashes := by
    intro piece hm
    rcases List.mem_append.mp hm with hm | hm
    · exact hsound.sent piece hm
    · obtain ⟨p, hp, hout⟩ := List.mem_filterMap.mp hm
      unfold Session.outgoing at hout
      split at hout
      · rename_i piece' complete hphase
        obtain rfl := Option.some.inj hout
        exact ((hall p hp).sending _ complete hphase).1
      · cases hout
  have hverified := bytesOf_le hwf hvalid hnodup
  rw [Swarm.verified, bytesOf_append, Queue.sent, bytesOf_append] at hverified
  rw [Swarm.footprint, ← hg]
  omega

/-- A session with the one-byte piece in progress: a byte of its peer's bitfield, the byte of
the piece and the flag of its block. -/
theorem memory_bounded_tiny : ∃ s, (tiny.system sha1OfA).Reachable s ∧ s.footprint = 3 ∧
    s.footprint + bytesOf s.shared.completed.received ≤ 1 * 3 + 1 := by
  have hr : (tiny.system sha1OfA).Reachable _ :=
    System.Reachable.init.exec (Trace.join 0 ++ Trace.deliver 0 (.have 0) ++ Trace.take 0) rfl
  exact ⟨_, hr, rfl, memory_bounded tiny_new hr⟩

end Torrentina.Download
