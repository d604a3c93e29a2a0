import Torrentina.Download.Coordinator
import Torrentina.Download.Tiling
import Torrentina.Download.TrackerRuns

/-!
# Progress snapshots

`Coordinator::snapshot` counts the pieces had, adds up their lengths, and takes
completion from the tracker. These come from three objects; they agree in every state
a tracker can be brought to, and so in every state of a run, where each session acts
on the tracker through its public operations only.
-/

namespace Torrentina.Download

open Torrentina.Core Peer

/-- A single peer's state in a snapshot. -/
structure PeerStat where
  addr : SocketAddr
  choked : Bool
  havePieces : Nat
  downloadedBytes : Nat
  deriving DecidableEq, Repr

/-- A point-in-time view of overall download progress. -/
structure StatsSnapshot where
  name : String
  totalPieces : Nat
  piecesDone : Nat
  totalBytes : Nat
  bytesDone : Nat
  wireBytes : Nat
  connectedPeers : Nat
  complete : Bool
  paused : Bool
  peers : List PeerStat
  deriving DecidableEq, Repr

namespace SwarmStats

/-- Number of currently connected peers. -/
def connectedCount (stats : SwarmStats) : Nat := stats.peers.length

/-- Per-peer state, the most downloaded first. -/
def peerSnapshots (stats : SwarmStats) : List PeerStat :=
  (stats.peers.map fun e =>
    (⟨e.1, e.2.choked, e.2.havePieces, e.2.downloaded⟩ : PeerStat)).mergeSort fun p q =>
      decide (q.downloadedBytes ≤ p.downloadedBytes)

end SwarmStats

namespace Coordinator

/-- One iteration of the loop over the pieces, with its `u32` and `u64` counters. -/
def countPiece (c : Coordinator) (done : Nat × Nat) (i : Nat) : Nat × Nat :=
  if c.tracker.has i then
    ((done.1 + 1) % 2 ^ 32, (done.2 + c.geometry.pieceLengthOf i) % 2 ^ 64)
  else done

/-- A point-in-time snapshot of download progress for display. -/
def snapshot (c : Coordinator) : StatsSnapshot :=
  -- `tracker.num_pieces() as u32`
  let totalPieces := c.tracker.numPieces % 2 ^ 32
  let done := (List.range totalPieces).foldl c.countPiece (0, 0)
  { name := c.name
    totalPieces
    piecesDone := done.1
    totalBytes := c.geometry.totalLength
    bytesDone := done.2
    wireBytes := c.stats.totalDownloaded
    connectedPeers := c.stats.connectedCount
    complete := c.tracker.isComplete
    paused := decide (c.control.value = .paused)
    peers := c.stats.peerSnapshots }

end Coordinator

/-! ## What is counted -/

/-- The pieces below `n` that a tracker has. -/
def PieceTracker.hadBelow (t : PieceTracker) (n : Nat) : Finset Nat :=
  (Finset.range n).filter fun i => t.has i = true

/-- The pieces a tracker has. -/
def PieceTracker.had (t : PieceTracker) : Finset Nat := t.hadBelow t.numPieces

/-- The pieces had below a number are below it. -/
theorem PieceTracker.hadBelow_subset (t : PieceTracker) (n : Nat) :
    t.hadBelow n ⊆ Finset.range n := Finset.filter_subset _ _

/-- One more piece is counted if it is had. -/
theorem PieceTracker.hadBelow_succ (t : PieceTracker) (n : Nat) : t.hadBelow (n + 1) =
    if t.has n = true then insert n (t.hadBelow n) else t.hadBelow n := by
  rw [hadBelow, Finset.range_add_one, Finset.filter_insert, hadBelow]

/-- The loop counts the pieces had and their bytes, each modulo its width. -/
theorem Coordinator.foldl_countPiece (c : Coordinator) (n : Nat) :
    (List.range n).foldl c.countPiece (0, 0) =
      ((c.tracker.hadBelow n).card % 2 ^ 32,
        (∑ i ∈ c.tracker.hadBelow n, c.geometry.pieceLengthOf i) % 2 ^ 64) := by
  induction n with
  | zero => rfl
  | succ n ih =>
    have hn : n ∉ c.tracker.hadBelow n := by
      intro h
      exact Finset.notMem_range_self (c.tracker.hadBelow_subset n h)
    rw [List.range_succ, List.foldl_append, ih, List.foldl_cons, List.foldl_nil, countPiece,
      PieceTracker.hadBelow_succ]
    split
    · rw [Finset.card_insert_of_notMem hn, Finset.sum_insert hn, Nat.mod_add_mod,
        Nat.mod_add_mod, Nat.add_comm (c.geometry.pieceLengthOf n)]
    · rfl

namespace Geometry.WellFormed

variable {g : Geometry} (hg : g.WellFormed)
include hg

/-- The content is at most as long as the pieces it is cut into. -/
theorem totalLength_lt : g.totalLength < 2 ^ 64 := by
  have h1 := hg.numPieces_lt
  have h2 := hg.pieceLength_lt
  have h3 := hg.numPieces_pos
  have h4 := hg.last_le
  calc g.totalLength = (g.numPieces - 1) * g.pieceLength + g.lastPieceLength := hg.total_eq
    _ ≤ (g.numPieces - 1) * g.pieceLength + g.pieceLength := Nat.add_le_add_left h4 _
    _ = g.numPieces * g.pieceLength := by rw [← Nat.succ_mul, Nat.succ_eq_add_one,
        Nat.sub_add_cancel h3]
    _ < 2 ^ 32 * 2 ^ 32 := Nat.mul_lt_mul'' h1 h2
    _ = 2 ^ 64 := by norm_num

end Geometry.WellFormed

/-! ## Coherence -/

/-- A snapshot agrees with the pieces had: their number, their bytes without overflow, and
completion in three ways. -/
structure StatsSnapshot.Coherent (s : StatsSnapshot) (g : Geometry) (t : PieceTracker) :
    Prop where
  piecesDone : s.piecesDone = t.had.card
  bytesDone : s.bytesDone = ∑ i ∈ t.had, g.pieceLengthOf i
  bytes_le : s.bytesDone ≤ s.totalBytes
  complete_iff_pieces : s.complete = true ↔ s.piecesDone = s.totalPieces
  complete_iff_bytes : s.complete = true ↔ s.bytesDone = s.totalBytes

/-- The torrent is complete when all its pieces are had. -/
theorem PieceTracker.isComplete_iff_had (t : PieceTracker) :
    t.isComplete = true ↔ t.had = Finset.range t.numPieces := by
  rw [t.isComplete_iff, PieceTracker.had, PieceTracker.hadBelow, Finset.filter_eq_self]
  simp only [Finset.mem_range]

namespace Coordinator

/-- `c'` is `c` at a later time: it has the same sizes, and its tracker went through some
operations. -/
structure Follows (c c' : Coordinator) : Prop where
  geometry : c'.geometry = c.geometry
  tracker : c.tracker.system.Reachable c'.tracker

/-- The snapshot of a well-formed coordinator is coherent. -/
theorem coherent {c : Coordinator} (hg : c.geometry.WellFormed)
    (hn : c.tracker.numPieces = c.geometry.numPieces) :
    c.snapshot.Coherent c.geometry c.tracker := by
  have hlt := hg.numPieces_lt
  have hmod : c.tracker.numPieces % 2 ^ 32 = c.tracker.numPieces :=
    Nat.mod_eq_of_lt (hn ▸ hlt)
  have hdone := c.foldl_countPiece c.tracker.numPieces
  have hsub : c.tracker.had ⊆ Finset.range c.geometry.numPieces :=
    hn ▸ c.tracker.hadBelow_subset _
  have hbytes : ∑ i ∈ c.tracker.had, c.geometry.pieceLengthOf i ≤ c.geometry.totalLength :=
    hg.tiles_pieces.sum_le hsub
  have hcard : c.tracker.had.card ≤ c.geometry.numPieces := by
    have h := Finset.card_le_card hsub
    rwa [Finset.card_range] at h
  have hpiecesDone : c.snapshot.piecesDone = c.tracker.had.card := by
    simp only [snapshot, hmod, hdone]
    exact Nat.mod_eq_of_lt (Nat.lt_of_le_of_lt hcard hlt)
  have hbytesDone : c.snapshot.bytesDone = ∑ i ∈ c.tracker.had, c.geometry.pieceLengthOf i := by
    simp only [snapshot, hmod, hdone]
    exact Nat.mod_eq_of_lt (Nat.lt_of_le_of_lt hbytes hg.totalLength_lt)
  have htotal : c.snapshot.totalPieces = c.geometry.numPieces := hmod.trans hn
  have hcomplete : c.snapshot.complete = true ↔
      c.tracker.had = Finset.range c.geometry.numPieces := hn ▸ c.tracker.isComplete_iff_had
  refine ⟨hpiecesDone, hbytesDone, hbytesDone ▸ hbytes, ?_, ?_⟩
  · rw [hcomplete, hpiecesDone, htotal]
    constructor
    · intro h
      rw [h, Finset.card_range]
    · intro h
      exact Finset.eq_of_subset_of_card_le hsub (by rw [h, Finset.card_range])
  · rw [hcomplete, hbytesDone, ← hg.tiles_pieces.sum_eq_iff hsub]
    rfl

variable {c c' : Coordinator}

/-- What is had is still had later. -/
theorem Follows.had_subset (h : c.Follows c') : c.tracker.had ⊆ c'.tracker.had := by
  refine h.tracker.invariant (P := fun t => c.tracker.had ⊆ t.had) (Finset.Subset.refl _) ?_
  intro t op t' _ hsub hs
  obtain rfl := Option.some.inj hs
  refine hsub.trans fun i hi => ?_
  obtain ⟨hi, hhas⟩ := Finset.mem_filter.mp hi
  refine Finset.mem_filter.mpr ⟨?_, t.has_apply_of_has op hhas⟩
  rwa [PieceTracker.numPieces, PieceTracker.pieceHashes_apply]

/-- Where both snapshots are coherent, progress does not go back. -/
theorem Follows.progress_le (h : c.Follows c')
    (hc : c.snapshot.Coherent c.geometry c.tracker)
    (hc' : c'.snapshot.Coherent c'.geometry c'.tracker) :
    c.snapshot.piecesDone ≤ c'.snapshot.piecesDone ∧
      c.snapshot.bytesDone ≤ c'.snapshot.bytesDone := by
  rw [hc.piecesDone, hc'.piecesDone, hc.bytesDone, hc'.bytesDone, h.geometry]
  exact ⟨Finset.card_le_card h.had_subset, Finset.sum_le_sum_of_subset h.had_subset⟩

/-- A coordinator follows itself. -/
theorem Follows.refl (c : Coordinator) : c.Follows c := ⟨rfl, .init⟩

/-- What follows a follower follows the original. -/
theorem Follows.trans {c'' : Coordinator} (h : c.Follows c') (h' : c'.Follows c'') :
    c.Follows c'' :=
  ⟨h'.geometry.trans h.geometry, PieceTracker.reachable_trans h.tracker h'.tracker⟩

/-- Whatever is done to the tracker of a coordinator of fewer than `2^32` pieces, its
snapshots are coherent. -/
theorem Follows.coherent {info : Info} {infoHash peerId : List UInt8}
    (h : Coordinator.new info infoHash peerId = .ok c) (hn : info.numPieces < 2 ^ 32)
    (hf : c.Follows c') : c'.snapshot.Coherent c'.geometry c'.tracker := by
  obtain ⟨hg, hh, -, -, -⟩ := Coordinator.new_eq_ok h
  obtain ⟨-, -, hnum, hwf⟩ := Geometry.fromInfo_eq_ok hg
  refine Coordinator.coherent (hf.geometry ▸ hwf) ?_
  rw [PieceTracker.numPieces_eq_of_reachable hf.tracker, hf.geometry, hnum, Nat.mod_eq_of_lt hn]
  exact Info.length_pieceHashes hh

end Coordinator

/-! ## Runs -/

section Step

variable {sha1 : List UInt8 → List UInt8} {c c' : Shared} {p p' : Session} {e : SessionEvent}

/-- One call on the tracker is a run of its own. -/
theorem PieceTracker.reachable_apply (t : PieceTracker) (op : TrackerOp) :
    t.system.Reachable (t.apply op) := .step .init (e := op) rfl

/-- Releasing a piece is a call on the tracker, or none. -/
theorem Shared.reachable_release (c : Shared) {current : Option PieceAssembler}
    (hcur : ∀ asm, current = some asm → asm.index < 2 ^ 32) :
    c.tracker.system.Reachable (c.release current).tracker := by
  cases current with
  | none => exact .init
  | some asm =>
    have h := c.tracker.reachable_apply (.releasePiece (UInt32.ofNat asm.index))
    rwa [PieceTracker.apply, UInt32.toNat_ofNat_of_lt' (hcur asm rfl)] at h

/-- A step acts on the tracker through its public operations. -/
theorem Session.Step.reachable_tracker (hc : c.Sound sha1) (hp : p.Sound sha1 c)
    (h : Step sha1 c p e c' p') : c.tracker.system.Reachable c'.tracker := by
  have hlt : ∀ asm, p.current = some asm → asm.index < 2 ^ 32 := fun asm hasm =>
    (hp.current asm hasm).1.trans hc.wellFormed.numPieces_lt
  cases h with
  | cancelled | paused | timeout | peerClosed | choke => exact c.reachable_release hlt
  | reserved index hph hn hch hr =>
    have h := c.tracker.reachable_apply (.reservePiece p.peerHas)
    rwa [PieceTracker.apply, PieceTracker.reservePiece, hr] at h
  | haveNew index => exact c.tracker.reachable_apply (.addAvailability index.toNat)
  | bitfield bits newHas =>
    exact PieceTracker.reachable_trans
      (c.tracker.reachable_apply (.removeBitfieldAvailability p.peerHas))
      (PieceTracker.reachable_apply _ (.addBitfieldAvailability newHas))
  | pieceVerified block asm asm' hph hcur =>
    have h := c.tracker.reachable_apply (.markHave (UInt32.ofNat asm.index))
    rwa [PieceTracker.apply, UInt32.toNat_ofNat_of_lt' (hlt asm hcur)] at h
  | pieceBadHash block asm asm' hph hcur =>
    have h := c.tracker.reachable_apply (.releasePiece (UInt32.ofNat asm.index))
    rwa [PieceTracker.apply, UInt32.toNat_ofNat_of_lt' (hlt asm hcur)] at h
  | cleanedUp => exact c.tracker.reachable_apply (.removeBitfieldAvailability p.peerHas)
  | _ => exact .init

/-- Every step of a run leaves a later coordinator. -/
theorem swarm_follows {s s' : Swarm} {e : SwarmEvent}
    (hsound : s.shared.Sound sha1 ∧ ∀ p ∈ s.procs, p.Sound sha1 s.shared)
    (h : (swarm sha1).poolStep s e = some s') :
    s.shared.toCoordinator.Follows s'.shared.toCoordinator := by
  refine ⟨(swarm_extends h).geometry, ?_⟩
  cases e with
  | spawn addr =>
    obtain ⟨c', p, hs, rfl⟩ := PoolProgram.poolStep_spawn h
    obtain ⟨rfl, -⟩ := swarm_spawn hs
    exact .init
  | proc k ev =>
    obtain ⟨p, c', p', hk, hs, rfl⟩ := PoolProgram.poolStep_proc h
    exact (Session.step_cases hs).reachable_tracker hsound.1 (hsound.2 p (List.mem_of_getElem? hk))
  | env ev =>
    obtain ⟨c', hs, rfl⟩ := PoolProgram.poolStep_env h
    obtain ⟨control, completed, rfl, -⟩ := swarm_env hs
    exact .init

end Step

section Run

variable {sha1 : List UInt8 → List UInt8} {info : Info} {infoHash peerId : List UInt8}
  {c : Coordinator} {s s' : Swarm} (h : Coordinator.new info infoHash peerId = .ok c)
include h

/-- The coordinator of every reachable state is the fresh one at a later time. -/
theorem Coordinator.follows_of_reachable (hr : (c.system sha1).Reachable s) :
    c.Follows s.shared.toCoordinator := by
  refine hr.invariant (P := fun s => c.Follows s.shared.toCoordinator) (Follows.refl c) ?_
  intro s e s' hreach hf hstep
  exact hf.trans (swarm_follows (Coordinator.sound h hreach) hstep)

/-- What a run leads to follows where it began. -/
theorem Coordinator.follows_of_exec (hr : (c.system sha1).Reachable s) (es : Trace)
    (he : (c.system sha1).exec s es = some s') :
    s.shared.toCoordinator.Follows s'.shared.toCoordinator := by
  induction es generalizing s with
  | nil =>
    obtain rfl := Option.some.inj he
    exact Follows.refl _
  | cons e es ih =>
    obtain ⟨t, hstep, he⟩ := Option.bind_eq_some_iff.mp he
    exact (swarm_follows (Coordinator.sound h hr) hstep).trans (ih (hr.step hstep) he)

/-- Progress snapshots are coherent and do not go back: whatever is done to the tracker, and
in every run. -/
theorem snapshot_coherent (hn : info.numPieces < 2 ^ 32) :
    (∀ c', c.Follows c' → c'.snapshot.Coherent c.geometry c'.tracker ∧
      ∀ c'', c'.Follows c'' → c'.snapshot.piecesDone ≤ c''.snapshot.piecesDone ∧
        c'.snapshot.bytesDone ≤ c''.snapshot.bytesDone) ∧
    ∀ sha1 s, (c.system sha1).Reachable s →
      s.shared.snapshot.Coherent c.geometry s.shared.tracker ∧
        ∀ es s', (c.system sha1).exec s es = some s' →
          s.shared.snapshot.piecesDone ≤ s'.shared.snapshot.piecesDone ∧
            s.shared.snapshot.bytesDone ≤ s'.shared.snapshot.bytesDone := by
  have hcoh : ∀ c', c.Follows c' → c'.snapshot.Coherent c'.geometry c'.tracker :=
    fun c' hf => hf.coherent h hn
  have hall : ∀ c', c.Follows c' → c'.snapshot.Coherent c.geometry c'.tracker ∧
      ∀ c'', c'.Follows c'' → c'.snapshot.piecesDone ≤ c''.snapshot.piecesDone ∧
        c'.snapshot.bytesDone ≤ c''.snapshot.bytesDone := by
    intro c' hf
    have hc' := hcoh c' hf
    refine ⟨hf.geometry ▸ hc', fun c'' hf' => ?_⟩
    exact hf'.progress_le hc' (hcoh c'' (hf.trans hf'))
  refine ⟨hall, fun sha1 s hr => ?_⟩
  obtain ⟨hs, hmono⟩ := hall _ (Coordinator.follows_of_reachable h hr)
  exact ⟨hs, fun es s' he => hmono _ (Coordinator.follows_of_exec h hr es he)⟩

end Run

/-- Downloading the one-byte torrent, from nothing to all of it. -/
theorem snapshot_coherent_tiny : ∃ s, (tiny.system sha1OfA).Reachable s ∧
    s.shared.snapshot.Coherent tiny.geometry s.shared.tracker ∧
    tiny.snapshot.bytesDone = 0 ∧ s.shared.snapshot.bytesDone = 1 ∧
    s.shared.snapshot.complete = true := by
  have hr : (tiny.system sha1OfA).Reachable _ := System.Reachable.init.exec tinyDownload rfl
  obtain ⟨-, hruns⟩ := snapshot_coherent tiny_new (by decide)
  exact ⟨_, hr, (hruns sha1OfA _ hr).1, rfl, rfl, rfl⟩

end Torrentina.Download
