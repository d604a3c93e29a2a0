import Torrentina.Download.Coverage
import Torrentina.Download.Progress

/-!
# Wire bytes against verified bytes

The bytes a session has been sent for its piece are its credit: the blocks whose flags
are up. As long as no block raises a flag with fewer bytes than the block it stands
for, the wire bytes cover the verified pieces and the credit of all sessions together.
An empty block raises a flag as well, and a piece of zeros then verifies without any
byte on the wire.
-/

namespace Torrentina.Download

open Torrentina.Core Peer

namespace PieceAssembler

/-- Length of block `b` of a piece of `length` bytes. -/
def blockLength (length b : Nat) : Nat := min blockSize (length - b * blockSize)

/-- The blocks of a piece tile it. -/
theorem tiles_blockLength {length : Nat} (hpos : 0 < length) :
    Tiles (· * blockSize) (blockLength length) (blockCount length) length := by
  constructor <;> simp only [blockLength, blockCount, blockSize] <;> omega

/-- The blocks whose flags are up. -/
def flagged (asm : PieceAssembler) : Finset Nat :=
  (Finset.range (blockCount asm.length)).filter fun b => asm.received[b]? = some true

/-- The bytes of the blocks whose flags are up. -/
def credit (asm : PieceAssembler) : Nat := ∑ b ∈ asm.flagged, blockLength asm.length b

/-- A fresh assembler has no bytes to its credit. -/
theorem credit_new (index length : Nat) : (new index length).credit = 0 := by
  refine Finset.sum_eq_zero fun b hb => ?_
  obtain ⟨-, hget⟩ := Finset.mem_filter.mp hb
  have h := List.mem_of_getElem? hget
  rw [new] at h
  cases List.eq_of_mem_replicate h

/-- A complete piece has the credit of all its bytes. -/
theorem credit_of_isComplete {asm : PieceAssembler} (hpos : 0 < asm.length)
    (h : asm.isComplete = true) : asm.credit = asm.length := by
  have hall : asm.flagged = Finset.range (blockCount asm.length) :=
    Finset.filter_true_of_mem fun b hb => (asm.isComplete_iff.mp h) b (Finset.mem_range.mp hb)
  rw [credit, hall]
  exact (tiles_blockLength hpos).sum_length

/-- The flagged blocks are those received. -/
theorem mem_flagged {asm : PieceAssembler} {b : Nat} :
    b ∈ asm.flagged ↔ asm.received[b]? = some true := by
  rw [flagged, Finset.mem_filter, Finset.mem_range, and_iff_right_iff_imp]
  intro h
  rw [← asm.length_received]
  exact (List.getElem?_eq_some_iff.mp h).1

/-- An accepted block raises the flag at its offset and no other. -/
theorem flagged_addBlock {asm asm' : PieceAssembler} {begin : Nat} {data : List UInt8}
    (h : asm.addBlock begin data = .ok asm') :
    asm'.flagged = insert (begin / blockSize) asm.flagged := by
  obtain ⟨-, -, -, ⟨old, hold⟩, hrec⟩ := addBlock_eq_ok h
  obtain ⟨hk, -⟩ := List.getElem?_eq_some_iff.mp hold
  ext b
  rw [mem_flagged, hrec, Finset.mem_insert, mem_flagged, List.getElem?_set]
  by_cases hb : begin / blockSize = b
  · rw [if_pos hb, if_pos hk, ← hb]
    simp
  · rw [if_neg hb, or_iff_right fun h => hb h.symm]

/-- A block that raises a flag is not shorter than the block it stands for. -/
def Whole (asm : PieceAssembler) (call : Call) : Prop :=
  Accepts asm.length call → asm.received[call.begin.toNat / blockSize]? = some false →
    blockLength asm.length (call.begin.toNat / blockSize) ≤ call.data.length

instance (asm : PieceAssembler) (call : Call) : Decidable (asm.Whole call) :=
  inferInstanceAs (Decidable (_ → _ → _))

/-- The credit grows by no more than the bytes of the block. -/
theorem credit_addBlock_le {asm asm' : PieceAssembler} {call : Call} (hasm : asm.length < 2 ^ 32)
    (h : asm.addBlock call.begin.toNat call.data = .ok asm') (hwhole : asm.Whole call) :
    asm'.credit ≤ asm.credit + call.data.length := by
  obtain ⟨-, hlen⟩ := addBlock_frame h
  obtain ⟨-, -, -, ⟨old, hold⟩, -⟩ := addBlock_eq_ok h
  have haccepts := (addBlock_eq_ok_iff hasm).mp ⟨asm', h⟩
  rw [credit, flagged_addBlock h, hlen]
  cases old with
  | true =>
    rw [Finset.insert_eq_of_mem (mem_flagged.mpr hold)]
    exact Nat.le_add_right _ _
  | false =>
    have hnot : call.begin.toNat / blockSize ∉ asm.flagged := by
      rw [mem_flagged, hold]
      simp
    have hle := hwhole haccepts hold
    rw [Finset.sum_insert hnot, ← credit]
    omega

end PieceAssembler

/-! ## One step -/

/-- The payload bytes an event brings. -/
def receivedBytes : SessionEvent → Nat
  | .recv (.ok (some (.piece block))) => block.data.length
  | _ => 0

/-- The credit of the piece in progress. -/
def Session.credit (p : Session) : Nat := (p.current.map PieceAssembler.credit).getD 0

/-- The bytes of the verified pieces. -/
def Shared.verifiedBytes (c : Shared) : Nat :=
  ∑ i ∈ c.tracker.hadBelow c.geometry.numPieces, c.geometry.pieceLengthOf i

/-- A block for the piece in progress is not shorter than the block whose flag it raises, and
the counter of wire bytes does not wrap. -/
structure TakesWhole (c : Shared) (p : Session) (e : SessionEvent) : Prop where
  whole : ∀ block asm, e = .recv (.ok (some (.piece block))) → p.current = some asm →
    block.index.toNat = asm.index → asm.Whole ⟨block.begin, block.data⟩
  fits : c.stats.totalDownloaded + receivedBytes e < 2 ^ 64

section Step

variable {sha1 : List UInt8 → List UInt8} {c c' : Shared} {p p' : Session} {e : SessionEvent}

/-- The credit of a session is that of its assembler. -/
theorem Session.credit_of_current {asm : PieceAssembler} (h : p.current = some asm) :
    p.credit = asm.credit := by
  rw [credit, h, Option.map_some, Option.getD_some]

/-- A session without a piece has no credit. -/
theorem Session.credit_of_none (h : p.current = none) : p.credit = 0 := by
  rw [credit, h, Option.map_none, Option.getD_none]

/-- Every payload byte is counted when it arrives, whatever becomes of its block. -/
theorem Session.Step.totalDownloaded (h : Step sha1 c p e c' p')
    (hfits : c.stats.totalDownloaded + receivedBytes e < 2 ^ 64) :
    c'.stats.totalDownloaded = c.stats.totalDownloaded + receivedBytes e := by
  cases h with
  | blockIgnored | blockRejected | blockPanicked | blockAdded | pieceAlreadyHad | pieceVerified
  | pieceBadHash => exact Nat.mod_eq_of_lt hfits
  | cancelled | paused | timeout | peerClosed | choke => cases p.current <;> rfl
  | messageIgnored message hph hm =>
    cases message with
    | piece block => cases hm
    | _ => rfl
  | _ => rfl

/-- Marking a piece verifies its bytes. -/
theorem verifiedBytes_markHave {i : Nat} (hi : i < c.geometry.numPieces)
    (hle : c.geometry.numPieces ≤ c.tracker.numPieces) (hhas : c.tracker.has i = false)
    {stats : SwarmStats} :
    Shared.verifiedBytes { c with tracker := c.tracker.markHave i, stats } =
      c.verifiedBytes + c.geometry.pieceLengthOf i := by
  have hnot : i ∉ c.tracker.hadBelow c.geometry.numPieces := by
    intro h
    exact Bool.false_ne_true (hhas.symm.trans (Finset.mem_filter.mp h).2)
  have hset : (c.tracker.markHave i).hadBelow c.geometry.numPieces =
      insert i (c.tracker.hadBelow c.geometry.numPieces) := by
    ext j
    simp only [PieceTracker.hadBelow, Finset.mem_filter, Finset.mem_range, Finset.mem_insert,
      PieceTracker.has_markHave, Bool.or_eq_true, decide_eq_true_eq]
    constructor
    · rintro ⟨hj, h | ⟨rfl, -⟩⟩
      · exact .inr ⟨hj, h⟩
      · exact .inl rfl
    · rintro (rfl | ⟨hj, h⟩)
      · exact ⟨hi, .inr ⟨rfl, hi.trans_le hle⟩⟩
      · exact ⟨hj, .inl h⟩
  show ∑ j ∈ (c.tracker.markHave i).hadBelow c.geometry.numPieces, _ = _
  rw [hset, Finset.sum_insert hnot, Nat.add_comm]
  rfl

/-- What a step does that marks nothing leaves the verified bytes. -/
theorem verifiedBytes_eq (hg : c'.geometry = c.geometry)
    (hhas : ∀ i, c'.tracker.has i = c.tracker.has i) : c'.verifiedBytes = c.verifiedBytes := by
  simp only [Shared.verifiedBytes, PieceTracker.hadBelow, hg, hhas]

/-- Verified bytes and credit together grow by no more than the bytes received. -/
theorem Session.Step.verified_add_credit_le (hc : c.Sound sha1) (hp : p.Sound sha1 c)
    (hok : TakesWhole c p e) (h : Step sha1 c p e c' p') :
    c'.verifiedBytes + p'.credit ≤ c.verifiedBytes + p.credit + receivedBytes e := by
  have hkeep : (∀ i, c'.tracker.has i = c.tracker.has i) →
      p'.credit ≤ p.credit + receivedBytes e →
      c'.verifiedBytes + p'.credit ≤ c.verifiedBytes + p.credit + receivedBytes e := by
    intro hhas hle
    rw [verifiedBytes_eq h.extends.geometry hhas]
    omega
  have hadded : ∀ (block : Block) (asm asm' : PieceAssembler),
      e = .recv (.ok (some (.piece block))) → p.current = some asm →
      block.index.toNat = asm.index → asm.addBlock block.begin.toNat block.data = .ok asm' →
      asm'.credit ≤ p.credit + receivedBytes e := by
    intro block asm asm' he hcur hi ha
    have hlt : asm.length < 2 ^ 32 := by
      rw [(hp.current asm hcur).2]
      exact Nat.lt_of_le_of_lt (hc.wellFormed.pieceLengthOf_le _) hc.wellFormed.pieceLength_lt
    have hle := @PieceAssembler.credit_addBlock_le asm asm' ⟨block.begin, block.data⟩ hlt ha
      (hok.whole block asm he hcur hi)
    rw [credit_of_current hcur, he]
    exact hle
  cases h with
  | reserved index | endgame index =>
    refine hkeep (fun i => rfl) ?_
    rw [credit_of_current (p := p.assign _ _ _) rfl, PieceAssembler.credit_new]
    exact Nat.zero_le _
  | blockAdded block asm asm' hph hcur hi ha =>
    refine hkeep (fun i => rfl) ?_
    rw [credit_of_current rfl]
    exact hadded block asm asm' rfl hcur hi ha
  | pieceAlreadyHad | pieceBadHash =>
    refine hkeep (fun i => rfl) ?_
    rw [credit_of_none rfl]
    exact Nat.zero_le _
  | paused | choke =>
    refine hkeep (fun i => Shared.has_release c _ i) ?_
    show p.dropCurrent.credit ≤ _
    rw [credit_of_none p.current_dropCurrent]
    exact Nat.zero_le _
  | timeout =>
    refine hkeep (fun i => Shared.has_release c _ i) ?_
    rw [credit_of_none rfl]
    exact Nat.zero_le _
  | pieceVerified block asm asm' hph hcur hi ha hd hh hv =>
    -- The piece is complete, so its credit is all of its bytes.
    obtain ⟨hlt, hlen⟩ := hp.current asm hcur
    have hlen' := (PieceAssembler.addBlock_frame ha).2.trans hlen
    have hpos := hc.wellFormed.pieceLengthOf_pos asm.index
    have hcredit := PieceAssembler.credit_of_isComplete (hlen' ▸ hpos) hd
    have hle := hadded block asm asm' rfl hcur hi ha
    rw [verifiedBytes_markHave hlt hc.numPieces_le hh, credit_of_none rfl, ← hlen', ← hcredit]
    omega
  | _ => exact hkeep (fun i => by simp) (Nat.le_add_right _ _)

end Step

/-! ## Whole runs -/

/-- The wire bytes cover the verified pieces and what the sessions hold of theirs. -/
def WireCovers (s : Swarm) : Prop :=
  s.shared.verifiedBytes + (s.procs.map Session.credit).sum ≤ s.shared.stats.totalDownloaded

section Run

variable {sha1 : List UInt8 → List UInt8} {s s' : Swarm} {e : SwarmEvent}

/-- A step that takes whole blocks keeps the wire bytes ahead. -/
theorem WireCovers.poolStep
    (hsound : s.shared.Sound sha1 ∧ ∀ p ∈ s.procs, p.Sound sha1 s.shared) (hs : WireCovers s)
    (hok : PoolProgram.EveryStep TakesWhole s e) (h : (swarm sha1).poolStep s e = some s') :
    WireCovers s' := by
  cases e with
  | spawn addr =>
    obtain ⟨c', p, hspawn, rfl⟩ := PoolProgram.poolStep_spawn h
    obtain ⟨rfl, rfl⟩ := swarm_spawn hspawn
    rw [WireCovers, List.map_append, List.sum_append]
    exact hs
  | proc k ev =>
    obtain ⟨p, c', p', hk, hstep, rfl⟩ := PoolProgram.poolStep_proc h
    have hst := Session.step_cases hstep
    have htakes := hok k ev p rfl hk
    have hgrow := hst.verified_add_credit_le hsound.1 (hsound.2 p (List.mem_of_getElem? hk)) htakes
    have hwire := hst.totalDownloaded htakes.fits
    have hsum := PoolProgram.sum_set_proc Session.credit (q := p') hk
    simp only [WireCovers] at hs ⊢
    omega
  | env ev =>
    obtain ⟨c', henv, rfl⟩ := PoolProgram.poolStep_env h
    obtain ⟨control, completed, rfl, -⟩ := swarm_env henv
    exact hs

/-- The loop of a snapshot goes over the pieces of the geometry. -/
theorem Coordinator.numPieces_mod {info : Info} {infoHash peerId : List UInt8} {c : Coordinator}
    (h : Coordinator.new info infoHash peerId = .ok c) (hr : (c.system sha1).Reachable s) :
    s.shared.tracker.numPieces % 2 ^ 32 = s.shared.geometry.numPieces := by
  obtain ⟨hg, hh, -, -, -⟩ := Coordinator.new_eq_ok h
  obtain ⟨-, -, hnum, -⟩ := Geometry.fromInfo_eq_ok hg
  have hx := Coordinator.extends_start hr
  rw [PieceTracker.numPieces, hx.pieceHashes, hx.geometry]
  show c.tracker.pieceHashes.length % 2 ^ 32 = c.geometry.numPieces
  rw [Info.length_pieceHashes hh, hnum]

/-- Wire bytes cover verified bytes: in every run in which each block for a piece in progress
is at least as long as the block whose flag it raises, as long as the counter does not wrap. -/
theorem wire_bytes_cover {info : Info} {infoHash peerId : List UInt8} {c : Coordinator}
    (h : Coordinator.new info infoHash peerId = .ok c) {run : Run}
    (hr : (c.system sha1).HistoryWhere (PoolProgram.EveryStep TakesWhole) run s) :
    s.shared.snapshot.bytesDone ≤ s.shared.snapshot.wireBytes := by
  have hcovers : WireCovers s := by
    refine hr.state_invariant (P := WireCovers) ?_ fun s e s' hreach hs hok hstep =>
      hs.poolStep (Coordinator.sound h hreach) hok hstep
    obtain ⟨-, -, ht, -, -⟩ := Coordinator.new_eq_ok h
    have hnone : c.start.verifiedBytes = 0 := by
      refine Finset.sum_eq_zero fun i hi => ?_
      have hhas : c.tracker.has i = true := (Finset.mem_filter.mp hi).2
      rw [ht, PieceTracker.has_ofHashes] at hhas
      cases hhas
    show c.start.verifiedBytes + 0 ≤ _
    rw [hnone]
    exact Nat.zero_le _
  have hdone := s.shared.toCoordinator.foldl_countPiece s.shared.geometry.numPieces
  have hloop := Coordinator.numPieces_mod h ⟨run, hr.history⟩
  calc s.shared.snapshot.bytesDone
      = s.shared.verifiedBytes % 2 ^ 64 := by
        simp only [Coordinator.snapshot, hloop, hdone]
        rfl
    _ ≤ s.shared.verifiedBytes := Nat.mod_le _ _
    _ ≤ s.shared.stats.totalDownloaded := by
        simp only [WireCovers] at hcovers
        omega

end Run

/-- `TakesWhole`, as a check. -/
def wholeBlocks (s : Swarm) : SwarmEvent → Bool
  | .proc k e => s.procs[k]?.all fun p =>
      (match e, p.current with
        | .recv (.ok (some (.piece block))), some asm =>
          decide (block.index.toNat = asm.index → asm.Whole ⟨block.begin, block.data⟩)
        | _, _ => true) &&
      decide (s.shared.stats.totalDownloaded + receivedBytes e < 2 ^ 64)
  | _ => true

/-- The check implies `TakesWhole`. -/
theorem takesWhole_of_wholeBlocks (s : Swarm) (e : SwarmEvent) (h : wholeBlocks s e = true) :
    PoolProgram.EveryStep TakesWhole s e := by
  rintro k ev p rfl hk
  rw [wholeBlocks, hk, Option.all_some, Bool.and_eq_true, decide_eq_true_eq] at h
  refine ⟨fun block asm he hcur hi => ?_, h.2⟩
  obtain ⟨hwhole, -⟩ := h
  simp only [he, hcur, decide_eq_true_eq] at hwhole
  exact hwhole hi

/-- The download of the one-byte torrent takes a whole block, and its byte is counted both
ways. -/
theorem wire_bytes_cover_tiny : ∃ run s,
    (tiny.system sha1OfA).HistoryWhere (PoolProgram.EveryStep TakesWhole) run s ∧
      s.shared.snapshot.bytesDone ≤ s.shared.snapshot.wireBytes ∧
      s.shared.snapshot.bytesDone = 1 := by
  obtain ⟨run, hr, -⟩ := System.HistoryWhere.execWhile wholeBlocks takesWhole_of_wholeBlocks
    (.nil : (tiny.system sha1OfA).HistoryWhere _ [] _) tinyDownload rfl
  exact ⟨_, _, hr, wire_bytes_cover tiny_new hr, rfl⟩

/-! ## A torrent of one zero byte -/

/-- The SHA-1 digest of one zero byte. -/
def digestOfZero : List UInt8 :=
  [0x5b, 0xa9, 0x3c, 0x9d, 0xb0, 0xcf, 0xf9, 0x3f, 0x52, 0xb5, 0x21, 0xd7, 0x42, 0x0e, 0x43, 0xf6,
    0xed, 0xa2, 0x78, 0x4f]

/-- SHA-1 on the content of the torrent of one zero byte. -/
def sha1OfZero (data : List UInt8) : List UInt8 :=
  if data = [0] then digestOfZero else List.replicate sha1Len 0

def zeroInfo : Info where
  name := "z"
  pieceLength := 1
  pieces := digestOfZero
  length := some 1
  files := none

/-- What `Coordinator.new` makes of it. -/
def zeroByte : Coordinator where
  name := "z"
  geometry := ⟨1, 1, 1, 1⟩
  tracker := PieceTracker.ofHashes [digestOfZero]
  stats := SwarmStats.new
  control := Watch.channel .running
  done := Watch.channel false
  infoHash := []
  peerId := []
  requestTimeout := requestTimeoutSecs

/-- One peer offers the piece and sends an empty block of it. -/
def emptyBlock : Trace :=
  Trace.join 0 ++ Trace.deliver 0 (.have 0) ++ Trace.take 0 ++
    [.proc 0 (.recv (.ok (some (.piece ⟨0, 0, []⟩))))]

/-- The piece is verified, and no byte was received. -/
theorem verified_without_wire_bytes : Coordinator.new zeroInfo [] [] = .ok zeroByte ∧
    ∃ s, (zeroByte.system sha1OfZero).Reachable s ∧ s.shared.snapshot.bytesDone = 1 ∧
      s.shared.snapshot.wireBytes = 0 :=
  ⟨rfl, _, System.Reachable.init.exec emptyBlock rfl, rfl, rfl⟩

end Torrentina.Download
