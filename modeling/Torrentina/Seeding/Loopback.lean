import Torrentina.Core.Chunks
import Torrentina.Download.Tiling
import Torrentina.Integrity
import Torrentina.Seeding.Completes

/-!
# The loopback demonstration

`main` of the demonstration makes a torrent of some content, starts a seeder for it
and a coordinator whose only peer is that seeder, writes the verified pieces to disk
as they come, and compares the file with the content at the end.
-/

namespace Torrentina.Seeding

open Torrentina.Core Peer Download Disk

/-- What the demonstration runs on. -/
structure Demo where
  content : List UInt8
  pieceLength : Nat
  infoHash : List UInt8
  peerId : List UInt8
  seedAddr : SocketAddr
  platform : Platform
  outDir : PathBuf

namespace Demo

/-- The single-file torrent of the content. -/
def info (sha1 : List UInt8 → List UInt8) (d : Demo) : Info where
  name := "demo.bin"
  pieceLength := UInt64.ofNat d.pieceLength
  pieces := ((chunks d.pieceLength d.content).map sha1).flatten
  length := some (UInt64.ofNat d.content.length)
  files := none

/-- What `run_seeder` is started with. -/
def seed (sha1 : List UInt8 → List UInt8) (d : Demo) : Seed :=
  .whole d.content d.pieceLength (d.info sha1).numPieces

end Demo

/-- The tasks of the demonstration, the output directory, and what the disk writer returned
or still may. -/
structure Loopback where
  seeded : Seeded
  storage : Storage
  consumer : Except Error Unit

/-- What happens in the demonstration. -/
inductive LoopbackEvent
  /-- `Coordinator::run` spawns the task of its only peer. -/
  | spawn
  /-- A step of that task. -/
  | session (e : SessionEvent)
  /-- A step of `run_seeder`. -/
  | seeder
  /-- The disk writer takes a piece from the channel and writes it. -/
  | write

/-- The seeder answers before the request timer of the session fires. -/
def LoopbackEvent.inTime : LoopbackEvent → Bool
  | .session e => undisturbed (.own e)
  | _ => true

namespace Demo

/-- `main` up to `Coordinator::run`: the files of a fresh directory are empty. -/
def start (sha1 : List UInt8 → List UInt8) (d : Demo) : Except Error Loopback := do
  let storage ← Storage.create (fun _ => .ok []) ⟨d.info sha1⟩ d.platform d.outDir
  let c ← Coordinator.new (d.info sha1) d.infoHash d.peerId
  return ⟨(seededSystem sha1 (d.seed sha1) 0 c).init, storage, .ok ()⟩

/-- One step of the demonstration. A writer that fails drops its end of the channel. -/
def step (sha1 : List UInt8 → List UInt8) (d : Demo) (s : Loopback) :
    LoopbackEvent → Option Loopback
  | .spawn =>
    if s.seeded.swarm.procs.isEmpty then
      (seededStep sha1 (d.seed sha1) 0 s.seeded (.swarm (.spawn d.seedAddr))).map
        fun seeded => { s with seeded }
    else none
  | .session e => (seededStep sha1 (d.seed sha1) 0 s.seeded (.own e)).map
      fun seeded => { s with seeded }
  | .seeder => (seededStep sha1 (d.seed sha1) 0 s.seeded .seeder).map
      fun seeded => { s with seeded }
  | .write =>
    match s.seeded.swarm.shared.completed.pending with
    | piece :: _ =>
      (seededStep sha1 (d.seed sha1) 0 s.seeded (.swarm (.env .receive))).bind fun seeded =>
        match s.storage.writePiece piece.index piece.data with
        | (.ok (), storage) => some { s with seeded, storage }
        | (.error e, storage) =>
          (seededStep sha1 (d.seed sha1) 0 seeded (.swarm (.env .dropReceiver))).map
            fun seeded => ⟨seeded, storage, .error e⟩
    | [] => none

/-- The runs of the demonstration from where `Coordinator::run` is called. -/
def system (sha1 : List UInt8 → List UInt8) (d : Demo) (s₀ : Loopback) :
    System Loopback LoopbackEvent where
  init := s₀
  step := d.step sha1

end Demo

/-- The task of the peer is over, and the channel is empty. -/
def Loopback.Ended (s : Loopback) : Prop :=
  (∃ p, s.seeded.swarm.procs = [p] ∧ (p.phase = .panicked ∨ ∃ result, p.phase = .finished result)) ∧
    s.seeded.swarm.shared.completed.pending = []

/-- What `main` checks at the end: the writer succeeded, and the file is the content. -/
def Demo.Succeeded (d : Demo) (s : Loopback) : Prop :=
  s.consumer = .ok () ∧ s.storage.handles = [d.content]

namespace Demo

/-- The sizes fit the types of the source, and the bitfield fits a message. -/
structure Fits (d : Demo) : Prop where
  pieceLength_pos : 0 < d.pieceLength
  pieceLength_lt : d.pieceLength < 2 ^ 32
  content_pos : 0 < d.content.length
  content_lt : d.content.length < 2 ^ 64
  bitfield : byteLen (d.content.length ⌈/⌉ d.pieceLength) < maxMessageLen

variable {sha1 : List UInt8 → List UInt8} {d : Demo}

/-- The hashes of all pieces, one after another. -/
theorem length_pieces (hsha : ∀ bytes, (sha1 bytes).length = sha1Len) :
    (d.info sha1).pieces.length = (d.content.length ⌈/⌉ d.pieceLength) * sha1Len := by
  have hlen : ((chunks d.pieceLength d.content).map (List.length ∘ sha1)).sum =
      ((chunks d.pieceLength d.content).map fun _ => sha1Len).sum :=
    congrArg List.sum (List.map_congr_left fun chunk _ => hsha chunk)
  rw [info, List.length_flatten, List.map_map, hlen, List.map_const', List.sum_replicate,
    smul_eq_mul, chunks, List.length_map, List.length_range]

/-- The number of pieces is the length divided by the piece length, rounded up. -/
theorem numPieces_info (hsha : ∀ bytes, (sha1 bytes).length = sha1Len) :
    (d.info sha1).numPieces = d.content.length ⌈/⌉ d.pieceLength := by
  rw [Info.numPieces, length_pieces hsha, Nat.mul_div_cancel _ (by decide)]

/-- The hashes are those of the pieces. -/
theorem pieceHashes_info (hsha : ∀ bytes, (sha1 bytes).length = sha1Len) :
    (d.info sha1).pieceHashes = .ok ((chunks d.pieceLength d.content).map sha1) := by
  have hentries : ∀ e ∈ (chunks d.pieceLength d.content).map sha1, e.length = sha1Len := by
    intro e he
    obtain ⟨chunk, -, rfl⟩ := List.mem_map.mp he
    exact hsha chunk
  rw [Info.pieceHashes, length_pieces hsha, if_neg (by rw [Nat.mul_mod_left]; exact fun h => h rfl)]
  exact congrArg Except.ok (chunksExact_flatten (by decide) hentries)

/-- A piece length that fits is not cut. -/
theorem toNat_pieceLength (hd : d.Fits) : (d.info sha1).pieceLength.toNat = d.pieceLength :=
  UInt64.toNat_ofNat_of_lt' (Nat.lt_trans hd.pieceLength_lt (by decide))

/-- A length that fits is not cut. -/
theorem toNat_length (hd : d.Fits) : (UInt64.ofNat d.content.length).toNat = d.content.length :=
  UInt64.toNat_ofNat_of_lt' hd.content_lt

/-- The torrent of the content is the one the seeder offers. -/
theorem offers (hsha : ∀ bytes, (sha1 bytes).length = sha1Len) (hd : d.Fits) :
    (d.seed sha1).Offers sha1 (d.info sha1) where
  pieceLength := (toNat_pieceLength hd).symm
  numPieces := rfl
  total := ⟨UInt64.ofNat d.content.length, rfl, toNat_length hd⟩
  hashes := by
    refine ⟨_, pieceHashes_info hsha, fun i hi => ?_⟩
    rw [numPieces_info hsha] at hi
    rw [List.getElem?_map, chunks, List.getElem?_map, List.getElem?_range hi]
    rfl
  fits := by
    rw [numPieces_info hsha]
    exact hd.bitfield

/-- Sizes that fit have a geometry. -/
theorem exists_geometry (hsha : ∀ bytes, (sha1 bytes).length = sha1Len) (hd : d.Fits) :
    ∃ g, Geometry.fromInfo (d.info sha1) = .ok g := by
  have hpl : (d.info sha1).pieceLength.toNat = d.pieceLength := toNat_pieceLength hd
  have hn := numPieces_info hsha (d := d)
  have hlayout : (d.info sha1).layout = .ok (.single (UInt64.ofNat d.content.length)) := rfl
  apply (Geometry.fromInfo_isOk_iff ?_ ?_).mpr
  · refine ⟨_, hlayout, ?_, ?_, ?_, ?_⟩
    · rw [hpl]
      exact hd.pieceLength_pos
    · rw [hpl]
      exact hd.pieceLength_lt
    · have hcontent := hd.content_pos
      have hpos : ¬ d.content.length ⌈/⌉ d.pieceLength ≤ 0 := by
        rw [ceilDiv_le_iff_le_mul hd.pieceLength_pos, Nat.mul_zero]
        omega
      rw [hn]
      omega
    · rw [hn, hpl, FileLayout.bytes, toNat_length hd]
  · have hbits := hd.bitfield
    simp only [byteLen, maxMessageLen] at hbits
    omega
  · intro layout hl
    obtain rfl := Except.ok.inj (hlayout.symm.trans hl)
    exact UInt64.toNat_lt _

/-- The only file, in a fresh directory. -/
theorem buildFileMap_eq (hd : d.Fits) : buildFileMap ⟨d.info sha1⟩ d.platform d.outDir =
    .ok [⟨d.outDir.push d.platform "demo.bin", d.content.length, 0⟩] := by
  have hname : validatePathComponent "demo.bin" = .ok () := by decide +kernel
  have hpaths : Metainfo.filePaths ⟨d.info sha1⟩ d.platform d.outDir =
      .ok [(d.outDir.push d.platform "demo.bin", UInt64.ofNat d.content.length)] := by
    rw [Metainfo.filePaths]
    show (validatePathComponent "demo.bin" >>= fun _ => _) = _
    rw [hname]
    rfl
  have hlt : 0 + d.content.length < 2 ^ 64 := by
    rw [Nat.zero_add]
    exact hd.content_lt
  rw [buildFileMap, hpaths]
  show mapFiles 0 _ = _
  rw [mapFiles, toNat_length hd, if_pos hlt]
  rfl

end Demo

/-! ## What is on its way to the disk -/

/-- A piece of the seeder's content. -/
def Seed.Genuine (seed : Seed) (g : Geometry) (piece : VerifiedPiece) : Prop :=
  piece.data = Storage.pieceOf g seed.content piece.index

/-- All that the sessions send and have sent are pieces of the content. -/
structure Seed.Supplies (seed : Seed) (w : Swarm) : Prop where
  sent : ∀ piece ∈ w.shared.completed.sent, seed.Genuine w.shared.geometry piece
  sending : ∀ p ∈ w.procs, ∀ piece complete, p.phase = .sending piece complete →
    seed.Genuine w.shared.geometry piece

section Supplies

variable {sha1 : List UInt8 → List UInt8} {seed : Seed} {c c' : Shared} {p p' : Session}
  {l l' : Link} {e : SessionEvent} {s s' : Seeded} {k : Nat}

/-- The piece that an attended session starts to send is the seeder's, whatever the hash
function. -/
theorem Attended.genuine (h : Attended seed c p l) (hc : c.Sound sha1) (hp : p.Sound sha1 c)
    (hfeed : seed.Feeds sha1 c) (hcarry : l.carry c.geometry p e = some l')
    (hstep : Session.Step sha1 c p e c' p') {piece : VerifiedPiece} {complete : Bool}
    (hs : p'.phase = .sending piece complete) : seed.Genuine c.geometry piece := by
  obtain ⟨block, asm, rfl, -, hcur, -⟩ := hstep.sending_cases hs
  obtain ⟨m, rest, hm, hr, -⟩ := carry_recv h.alive hcarry
  rw [h.received hc hp hfeed hm] at hr
  obtain rfl := Option.some.inj (Except.ok.inj hr)
  obtain ⟨greeting, hello, i, lo, a, q, hf⟩ := h.flight
  obtain ⟨-, asm₁, a', -, hadd, -, -, -, hbytes, -⟩ :=
    hf.answer hfeed hc.wellFormed h.alive hcur (hp.current asm hcur).1 hm
  obtain ⟨rfl, -⟩ := hf.busy asm hcur
  cases hstep with
  | pieceVerified _ asm' asm'' hph hcur' hi ha hd =>
    obtain rfl := Option.some.inj (hcur.symm.trans hcur')
    obtain rfl := Except.ok.inj (hadd.symm.trans ha)
    obtain ⟨rfl, -⟩ := Phase.sending.inj hs
    exact hbytes hd
  | pieceAlreadyHad => rcases ite_phase_cases hs with h | ⟨h, -⟩ <;> cases h
  | messageIgnored _ hph hmatch => cases hmatch
  | _ => cases hs

/-- A step of the session with the seeder keeps them pieces of the content. -/
theorem Seed.Supplies.own (hs : seed.Supplies s.swarm) (hi : s.Inv sha1 seed k)
    (hsound : s.swarm.shared.Sound sha1 ∧ ∀ p ∈ s.swarm.procs, p.Sound sha1 s.swarm.shared)
    (h : seededStep sha1 seed k s (.own e) = some s') : seed.Supplies s'.swarm := by
  obtain ⟨p, hp, h⟩ := Option.bind_eq_some_iff.mp h
  obtain ⟨link, hcarry, h⟩ := Option.bind_eq_some_iff.mp h
  obtain ⟨w, hw, rfl⟩ := Option.map_eq_some_iff.mp h
  obtain ⟨p₀, c', p', hp₀, hrun, rfl⟩ := PoolProgram.poolStep_proc hw
  obtain rfl := Option.some.inj (hp.symm.trans hp₀)
  have hstep := Session.step_cases hrun
  have hgeom := hstep.extends.geometry
  have hmem := List.mem_of_getElem? hp
  constructor
  · intro piece hm
    show seed.Genuine c'.geometry piece
    rw [hgeom]
    rcases hstep.completed with hsame | ⟨piece', complete, -, hph, hsend⟩
    · rw [hsame] at hm
      exact hs.sent piece hm
    · rw [hsend, Queue.sent_send] at hm
      split at hm
      · rcases List.mem_append.mp hm with hm | hm
        · exact hs.sent piece hm
        · obtain rfl := List.mem_singleton.mp hm
          exact hs.sending p hmem piece complete hph
      · exact hs.sent piece hm
  · intro q hq piece complete hph
    show seed.Genuine c'.geometry piece
    rw [hgeom]
    rcases PoolProgram.mem_set_proc hp hq with rfl | hq
    · exact (hi.attended p hp).genuine hsound.1 (hsound.2 p hmem) hi.feeds hcarry hstep hph
    · exact hs.sending q hq piece complete hph

/-- So does what is no step of a session. -/
theorem Seed.Supplies.swarm (hs : seed.Supplies s.swarm) {e : SwarmEvent}
    (he : ∀ j ev, e ≠ .proc j ev) (h : seededStep sha1 seed k s (.swarm e) = some s') :
    seed.Supplies s'.swarm := by
  simp only [seededStep] at h
  split at h
  · cases h
  obtain ⟨w, hw, rfl⟩ := Option.map_eq_some_iff.mp h
  cases e with
  | spawn addr =>
    obtain ⟨c', p, hspawn, rfl⟩ := PoolProgram.poolStep_spawn hw
    obtain ⟨rfl, rfl⟩ := swarm_spawn hspawn
    refine ⟨hs.sent, fun q hq piece complete hph => ?_⟩
    rcases List.mem_append.mp hq with hq | hq
    · exact hs.sending q hq piece complete hph
    · obtain rfl := List.mem_singleton.mp hq
      cases hph
  | proc j ev => exact absurd rfl (he j ev)
  | env ev =>
    obtain ⟨c', henv, rfl⟩ := PoolProgram.poolStep_env hw
    obtain ⟨control, completed, rfl, hsent, -⟩ := swarm_env henv
    exact ⟨fun piece hm => hs.sent piece (hsent ▸ hm), hs.sending⟩

end Supplies

/-! ## The invariant of the demonstration -/

/-- The invariant of the demonstration: nothing failed, and what the writer received is on
disk. -/
structure Loopback.Inv (sha1 : List UInt8 → List UInt8) (d : Demo) (c : Coordinator)
    (s : Loopback) : Prop where
  reachable : (seededSystem sha1 (d.seed sha1) 0 c).Reachable s.seeded
  seeded : s.seeded.Inv sha1 (d.seed sha1) 0
  single : s.seeded.swarm.procs.length ≤ 1
  supplies : (d.seed sha1).Supplies s.seeded.swarm
  receiving : s.seeded.swarm.shared.completed.receiverAlive = true
  consumer : s.consumer = .ok ()
  storage : s.storage.WellFormed
  geometry : s.storage.geometry = c.geometry
  files : s.storage.files = [⟨d.outDir.push d.platform "demo.bin", d.content.length, 0⟩]
  written : ∀ piece ∈ s.seeded.swarm.shared.completed.received, ∀ i,
    c.geometry.pieceOffset piece.index ≤ i →
    i < c.geometry.pieceOffset piece.index + c.geometry.pieceLengthOf piece.index →
      s.storage.content[i]? = d.content[i]?

/-- The steps left to all tasks. -/
def Loopback.stepsLeft (s : Loopback) : Nat :=
  s.seeded.workLeft 0 + (1 - s.seeded.swarm.procs.length) +
    (s.storage.geometry.numPieces - s.seeded.swarm.shared.completed.received.length)

section Steps

variable {sha1 : List UInt8 → List UInt8} {d : Demo} {c : Coordinator} {s s' : Loopback}

/-- No piece is sent twice. -/
theorem length_sent_le {info : Info} {infoHash peerId : List UInt8}
    (hnew : Coordinator.new info infoHash peerId = .ok c) {w : Swarm}
    (hr : (c.system sha1).Reachable w) :
    w.shared.completed.sent.length ≤ c.geometry.numPieces := by
  have hnodup := (balanced_reachable hnew hr).nodup_sent
  have hsub : w.shared.completed.sent.map VerifiedPiece.index ⊆
      List.range c.geometry.numPieces := by
    intro i hi
    obtain ⟨piece, hm, rfl⟩ := List.mem_map.mp hi
    have hlt := ((Coordinator.sound hnew hr).1.sent piece hm).index_lt
    rw [(Coordinator.extends_start hr).geometry] at hlt
    exact List.mem_range.mpr hlt
  have hle := (List.subperm_of_subset hnodup hsub).length_le
  rwa [List.length_map, List.length_range] at hle

/-- A session leaves the consumer's end of the channel alone. -/
theorem completed_of_step {c c' : Shared} {p p' : Session} {e : SessionEvent}
    (h : Session.Step sha1 c p e c' p') : c'.completed.received = c.completed.received ∧
      c'.completed.receiverAlive = c.completed.receiverAlive := by
  rcases h.completed with hsame | ⟨piece, complete, -, -, hsend⟩
  · rw [hsame]
    exact ⟨rfl, rfl⟩
  · rw [hsend, Queue.receiverAlive_send, Queue.send]
    split <;> exact ⟨rfl, rfl⟩

/-- The task of the peer is spawned. -/
theorem Loopback.Inv.spawn (hi : s.Inv sha1 d c) (h : d.step sha1 s .spawn = some s') :
    s'.Inv sha1 d c ∧ s'.stepsLeft < s.stepsLeft := by
  simp only [Demo.step] at h
  split at h
  · rename_i hempty
    obtain ⟨seeded, hstep, rfl⟩ := Option.map_eq_some_iff.mp h
    obtain ⟨hinv, hwork⟩ := hi.seeded.other rfl hstep
    have hsupplies := hi.supplies.swarm (fun j ev => by simp) hstep
    have hreach : (seededSystem sha1 (d.seed sha1) 0 c).Reachable seeded :=
      hi.reachable.step (e := .swarm (.spawn d.seedAddr)) hstep
    simp only [seededStep, isProc, Bool.false_eq_true, if_false] at hstep
    obtain ⟨w, hw, rfl⟩ := Option.map_eq_some_iff.mp hstep
    obtain ⟨c', p, hspawn, rfl⟩ := PoolProgram.poolStep_spawn hw
    obtain ⟨rfl, rfl⟩ := swarm_spawn hspawn
    have hnil : s.seeded.swarm.procs.length = 0 := by
      rw [List.isEmpty_iff.mp hempty, List.length_nil]
    have hlen : (s.seeded.swarm.procs ++ [Session.new s.seeded.swarm.shared d.seedAddr]).length =
        1 := by
      rw [List.length_append, hnil, List.length_singleton]
    refine ⟨⟨hreach, hinv, Nat.le_of_eq hlen, hsupplies, hi.receiving, hi.consumer, hi.storage,
      hi.geometry, hi.files, hi.written⟩, ?_⟩
    simp only [Loopback.stepsLeft, hnil, hlen]
    omega
  · cases h

/-- A step of the task or of the seeder, once it is known what it leaves alone. -/
theorem Loopback.Inv.seeding (hi : s.Inv sha1 d c)
    (hnew : Coordinator.new (d.info sha1) d.infoHash d.peerId = .ok c) {e : SeededEvent}
    (hok : undisturbed e = true) (he : e.isSeeding = true) {seeded : Seeded}
    (hstep : seededStep sha1 (d.seed sha1) 0 s.seeded e = some seeded)
    (hsupplies : (d.seed sha1).Supplies seeded.swarm)
    (hprocs : seeded.swarm.procs.length = s.seeded.swarm.procs.length)
    (hreceived : seeded.swarm.shared.completed.received =
      s.seeded.swarm.shared.completed.received)
    (halive : seeded.swarm.shared.completed.receiverAlive =
      s.seeded.swarm.shared.completed.receiverAlive) :
    ({ s with seeded } : Loopback).Inv sha1 d c ∧
      ({ s with seeded } : Loopback).stepsLeft < s.stepsLeft := by
  have hsound := Coordinator.sound hnew (reachable_swarm hi.reachable)
  obtain ⟨hinv, hwork⟩ := hi.seeded.seeding hsound hok he hstep
  refine ⟨⟨hi.reachable.step hstep, hinv, hprocs ▸ hi.single, hsupplies, halive ▸ hi.receiving,
    hi.consumer, hi.storage, hi.geometry, hi.files, ?_⟩, ?_⟩
  · intro piece hm
    simp only [hreceived] at hm
    exact hi.written piece hm
  · simp only [Loopback.stepsLeft, hprocs, hreceived]
    omega

/-- A step of the task. -/
theorem Loopback.Inv.session (hi : s.Inv sha1 d c)
    (hnew : Coordinator.new (d.info sha1) d.infoHash d.peerId = .ok c) {e : SessionEvent}
    (hok : undisturbed (.own e) = true) (h : d.step sha1 s (.session e) = some s') :
    s'.Inv sha1 d c ∧ s'.stepsLeft < s.stepsLeft := by
  obtain ⟨seeded, hstep, rfl⟩ := Option.map_eq_some_iff.mp h
  have hsound := Coordinator.sound hnew (reachable_swarm hi.reachable)
  have hsupplies := hi.supplies.own hi.seeded hsound hstep
  obtain ⟨p, hp, hrest⟩ := Option.bind_eq_some_iff.mp hstep
  obtain ⟨link, -, hrest⟩ := Option.bind_eq_some_iff.mp hrest
  obtain ⟨w, hw, rfl⟩ := Option.map_eq_some_iff.mp hrest
  obtain ⟨p₀, c', p', hp₀, hrun, rfl⟩ := PoolProgram.poolStep_proc hw
  obtain ⟨hreceived, halive⟩ := completed_of_step (Session.step_cases hrun)
  exact hi.seeding hnew hok rfl hstep hsupplies (List.length_set ..) hreceived halive

/-- A step of the seeder. -/
theorem Loopback.Inv.seeder (hi : s.Inv sha1 d c)
    (hnew : Coordinator.new (d.info sha1) d.infoHash d.peerId = .ok c)
    (h : d.step sha1 s .seeder = some s') :
    s'.Inv sha1 d c ∧ s'.stepsLeft < s.stepsLeft := by
  obtain ⟨seeded, hstep, rfl⟩ := Option.map_eq_some_iff.mp h
  obtain ⟨link, rfl⟩ : ∃ link, seeded = { s.seeded with link } := by
    simp only [seededStep] at hstep
    split at hstep
    · obtain ⟨link, -, rfl⟩ := Option.map_eq_some_iff.mp hstep
      exact ⟨link, rfl⟩
    · cases hstep
  exact hi.seeding hnew rfl rfl hstep hi.supplies rfl rfl rfl

/-- A received piece is written where it belongs. -/
theorem Loopback.Inv.writePiece (hi : s.Inv sha1 d c)
    (hnew : Coordinator.new (d.info sha1) d.infoHash d.peerId = .ok c) {piece : VerifiedPiece}
    (hm : piece ∈ s.seeded.swarm.shared.completed.sent) :
    ∃ storage, s.storage.writePiece piece.index piece.data = (.ok (), storage) ∧
      storage.WellFormed ∧ storage.geometry = s.storage.geometry ∧
      storage.files = s.storage.files ∧ ∀ i, (s.storage.content[i]? = d.content[i]? ∨
        c.geometry.pieceOffset piece.index ≤ i ∧
          i < c.geometry.pieceOffset piece.index + c.geometry.pieceLengthOf piece.index) →
        storage.content[i]? = d.content[i]? := by
  have hr := reachable_swarm hi.reachable
  have hg : s.seeded.swarm.shared.geometry = s.storage.geometry :=
    (Coordinator.extends_start hr).geometry.trans hi.geometry.symm
  have hlt := ((Coordinator.sound hnew hr).1.sent piece hm).index_lt
  have hdata : piece.data = Storage.pieceOf s.storage.geometry d.content piece.index :=
    hg ▸ hi.supplies.sent piece hm
  have hlen : d.content.length = s.storage.geometry.totalLength :=
    hg ▸ hi.seeded.feeds.length_content
  have hindex : ∀ i ∈ [piece.index], i < s.storage.geometry.numPieces := by
    intro i hi
    rw [List.mem_singleton.mp hi, ← hg]
    exact hlt
  obtain ⟨storage, hw, hwf, hgeom, hfiles, hcontent⟩ :=
    Storage.writePieces_content hi.storage hlen hindex
  refine ⟨storage, ?_, hwf, hgeom, hfiles, fun i hor => hcontent i (hor.imp_right ?_)⟩
  · rw [List.map_singleton, ← hdata, Storage.writePieces] at hw
    split at hw
    · rename_i st' hwrite
      obtain rfl : st' = storage := (Prod.mk.inj hw).2
      exact hwrite
    · cases hw
  · rintro ⟨hle, hlt⟩
    rw [hi.geometry]
    exact ⟨_, List.mem_singleton_self _, hle, hlt⟩

/-- The disk writer takes a piece and writes it. -/
theorem Loopback.Inv.write (hi : s.Inv sha1 d c)
    (hnew : Coordinator.new (d.info sha1) d.infoHash d.peerId = .ok c)
    (h : d.step sha1 s .write = some s') :
    s'.Inv sha1 d c ∧ s'.stepsLeft < s.stepsLeft := by
  simp only [Demo.step] at h
  split at h
  · rename_i piece rest hpending
    obtain ⟨seeded, hstep, h⟩ := Option.bind_eq_some_iff.mp h
    have hm : piece ∈ s.seeded.swarm.shared.completed.sent := by
      rw [Queue.sent, hpending]
      exact List.mem_append_right _ List.mem_cons_self
    obtain ⟨storage, hwrite, hwf, hgeom, hfiles, hcontent⟩ := hi.writePiece hnew hm
    rw [hwrite] at h
    obtain rfl := Option.some.inj h
    obtain ⟨hinv, hwork⟩ := hi.seeded.other rfl hstep
    have hsupplies := hi.supplies.swarm (fun j ev => by simp) hstep
    have hreach : (seededSystem sha1 (d.seed sha1) 0 c).Reachable seeded :=
      hi.reachable.step (e := .swarm (.env .receive)) hstep
    have hbound := length_sent_le hnew (reachable_swarm hreach)
    simp only [seededStep, isProc, Bool.false_eq_true, if_false] at hstep
    obtain ⟨w, hw, rfl⟩ := Option.map_eq_some_iff.mp hstep
    obtain ⟨c', henv, rfl⟩ := PoolProgram.poolStep_env hw
    obtain ⟨completed, hrecv, rfl⟩ := Option.map_eq_some_iff.mp henv
    simp only [Queue.recv, hi.receiving, hpending] at hrecv
    obtain rfl := Option.some.inj hrecv
    refine ⟨⟨hreach, hinv, hi.single, hsupplies, rfl, hi.consumer, hwf,
      hgeom.trans hi.geometry, hfiles.trans hi.files, ?_⟩, ?_⟩
    · intro piece' hm' i hle hlt
      rcases List.mem_append.mp hm' with hm' | hm'
      · exact hcontent i (.inl (hi.written piece' hm' i hle hlt))
      · obtain rfl := List.mem_singleton.mp hm'
        exact hcontent i (.inr ⟨hle, hlt⟩)
    · simp only [Queue.sent, List.length_append, List.length_singleton] at hbound
      simp only [Loopback.stepsLeft, hgeom, hi.geometry, List.length_append,
        List.length_singleton]
      omega
  · cases h

/-- One step of the demonstration. -/
theorem Loopback.Inv.step (hi : s.Inv sha1 d c)
    (hnew : Coordinator.new (d.info sha1) d.infoHash d.peerId = .ok c) {e : LoopbackEvent}
    (hok : e.inTime = true) (h : d.step sha1 s e = some s') :
    s'.Inv sha1 d c ∧ s'.stepsLeft < s.stepsLeft := by
  cases e with
  | spawn => exact hi.spawn h
  | session e => exact hi.session hnew hok h
  | seeder => exact hi.seeder hnew h
  | write => exact hi.write hnew h

/-- `main` gets to the download. -/
theorem Demo.start_eq_ok (hsha : ∀ bytes, (sha1 bytes).length = sha1Len) (hd : d.Fits) :
    ∃ s c, d.start sha1 = .ok s ∧
      Coordinator.new (d.info sha1) d.infoHash d.peerId = .ok c ∧ s.Inv sha1 d c ∧
      s.stepsLeft = 20 + 7 * ∑ i ∈ Finset.range c.geometry.numPieces, c.geometry.numBlocks i +
        c.geometry.numPieces := by
  obtain ⟨g, hg⟩ := Demo.exists_geometry hsha hd
  obtain ⟨c, hnew, rfl⟩ : ∃ c, Coordinator.new (d.info sha1) d.infoHash d.peerId = .ok c ∧
      c.geometry = g :=
    ⟨_, Coordinator.new_of_ok hg (Demo.pieceHashes_info hsha) d.infoHash d.peerId, rfl⟩
  have hcreate : Storage.create (fun _ => .ok []) ⟨d.info sha1⟩ d.platform d.outDir =
      .ok ⟨c.geometry, [⟨d.outDir.push d.platform "demo.bin", d.content.length, 0⟩],
        [Storage.setLen [] d.content.length]⟩ := by
    rw [Storage.create, hg, Demo.buildFileMap_eq hd]
    rfl
  obtain ⟨-, hwf⟩ := Storage.create_eq_ok hcreate
  refine ⟨_, c, by rw [Demo.start, hcreate, hnew]; rfl, hnew, ?_, ?_⟩
  · refine ⟨.init, inv_init hnew (Demo.offers hsha hd), Nat.zero_le _, ⟨?_, ?_⟩, rfl, rfl, hwf, rfl,
      rfl, ?_⟩
    · intro piece hm
      cases hm
    · intro p hp
      cases hp
    · intro piece hm
      cases hm
  · have hwork : (seededSystem sha1 (d.seed sha1) 0 c).init.workLeft 0 =
        19 + 7 * ∑ i ∈ Finset.range c.geometry.numPieces, c.geometry.numBlocks i := rfl
    simp only [Loopback.stepsLeft, hwork]
    show _ + (1 - 0) + (c.geometry.numPieces - 0) = _
    omega

/-- Until `main` reaches its end, some task can take a step in time. -/
theorem Loopback.Inv.can_step (hi : s.Inv sha1 d c)
    (hnew : Coordinator.new (d.info sha1) d.infoHash d.peerId = .ok c) (hend : ¬ s.Ended) :
    ∃ e s', e.inTime = true ∧ d.step sha1 s e = some s' := by
  have hsound := Coordinator.sound hnew (reachable_swarm hi.reachable)
  cases hprocs : s.seeded.swarm.procs with
  | nil =>
    have hspawn : (Download.swarm sha1).spawn s.seeded.swarm.shared d.seedAddr = some _ :=
      if_pos hi.seeded.quiet.senderAlive
    obtain ⟨seeded, hstep⟩ : ∃ seeded,
        seededStep sha1 (d.seed sha1) 0 s.seeded (.swarm (.spawn d.seedAddr)) = some seeded := by
      simp only [seededStep, isProc, Bool.false_eq_true, if_false, PoolProgram.poolStep, hspawn,
        Option.map_some]
      exact ⟨_, rfl⟩
    refine ⟨.spawn, { s with seeded }, rfl, ?_⟩
    rw [Demo.step, hprocs, List.isEmpty_nil, if_pos rfl, hstep]
    rfl
  | cons p rest =>
    have hsingle := hi.single
    rw [hprocs, List.length_cons] at hsingle
    obtain rfl : rest = [] := List.eq_nil_of_length_eq_zero (by omega)
    have hp : s.seeded.swarm.procs[0]? = some p := by rw [hprocs]; rfl
    by_cases hfin : ∃ result, p.phase = .finished result
    · cases hpending : s.seeded.swarm.shared.completed.pending with
      | nil => exact absurd ⟨⟨p, hprocs, .inr hfin⟩, hpending⟩ hend
      | cons piece later =>
        have hm : piece ∈ s.seeded.swarm.shared.completed.sent := by
          rw [Queue.sent, hpending]
          exact List.mem_append_right _ List.mem_cons_self
        obtain ⟨storage, hwrite, -⟩ := hi.writePiece hnew hm
        obtain ⟨completed, hrecv⟩ : ∃ completed,
            s.seeded.swarm.shared.completed.recv = some completed := by
          rw [Queue.recv, hi.receiving, hpending]
          exact ⟨_, rfl⟩
        obtain ⟨seeded, hstep⟩ : ∃ seeded,
            seededStep sha1 (d.seed sha1) 0 s.seeded (.swarm (.env .receive)) = some seeded := by
          simp only [seededStep, isProc, Bool.false_eq_true, if_false, PoolProgram.poolStep,
            Download.swarm, hrecv, Option.map_some]
          exact ⟨_, rfl⟩
        refine ⟨.write, { s with seeded, storage }, rfl, ?_⟩
        simp only [Demo.step, hpending, hstep, Option.bind_some, hwrite]
    · obtain ⟨e, seeded, hok, he, hstep⟩ :=
        (hi.seeded.can_step hsound hp fun result h => hfin ⟨result, h⟩).resolve_right
          ((hi.seeded.attended p hp).not_resting (Seed.whole_whole _ _ _))
      cases e with
      | swarm e => cases he
      | own e => exact ⟨.session e, _, hok, by rw [Demo.step, hstep]; rfl⟩
      | seeder => exact ⟨.seeder, _, rfl, by rw [Demo.step, hstep]; rfl⟩

/-- At the end of `main` the file is the content. -/
theorem Loopback.Inv.succeeded (hi : s.Inv sha1 d c)
    (hnew : Coordinator.new (d.info sha1) d.infoHash d.peerId = .ok c) (hend : s.Ended) :
    d.Succeeded s := by
  obtain ⟨⟨p, hprocs, hover⟩, hpending⟩ := hend
  have hr := reachable_swarm hi.reachable
  have hp : s.seeded.swarm.procs[0]? = some p := by rw [hprocs]; rfl
  have htended := (hi.seeded.attended p hp).tended
  obtain ⟨result, hfin, hcomplete⟩ : ∃ result, p.phase = .finished result ∧
      s.seeded.swarm.shared.tracker.isComplete = true := by
    rcases hover with hph | ⟨result, hph⟩
    · rw [hph] at htended
      cases htended
    · rw [hph] at htended
      exact ⟨result, hph, htended.2⟩
  have hdrained : Drained s.seeded.swarm := by
    refine ⟨hi.receiving, hpending, fun q hq piece complete hph => ?_⟩
    rw [hprocs] at hq
    obtain rfl := List.mem_singleton.mp hq
    rw [hfin] at hph
    cases hph
  have hg : s.seeded.swarm.shared.geometry = s.storage.geometry :=
    (Coordinator.extends_start hr).geometry.trans hi.geometry.symm
  have hlen : d.content.length = s.storage.geometry.totalLength :=
    hg ▸ hi.seeded.feeds.length_content
  have hcontent : s.storage.content = d.content := by
    apply List.ext_getElem?
    intro i
    have hlc := hi.storage.length_content
    by_cases hlt : i < s.storage.geometry.totalLength
    · obtain ⟨j, hj, hle, hlt'⟩ := hi.storage.geometry.exists_piece hlt
      rw [hi.geometry] at hj hle hlt'
      obtain ⟨piece, hm, rfl⟩ :=
        List.mem_map.mp (mem_received_of_drained hnew hr hcomplete hdrained hj)
      exact hi.written piece hm i hle hlt'
    · rw [List.getElem?_eq_none (by omega), List.getElem?_eq_none (by omega)]
  refine ⟨hi.consumer, ?_⟩
  rw [hi.storage.handles_eq, hi.files, hcontent, List.map_singleton, List.drop_zero,
    List.take_of_length_le (Nat.le_refl _)]

end Steps

/-- The demonstration always ends, with the file on disk the content that was seeded: for every
content and piece length that fit, in every interleaving of the task, the seeder and the disk
writer, and whatever the hash function. -/
theorem loopback_reproduces {sha1 : List UInt8 → List UInt8}
    (hsha : ∀ bytes, (sha1 bytes).length = sha1Len) {d : Demo} (hd : d.Fits) :
    ∃ s₀, d.start sha1 = .ok s₀ ∧ ∀ (run : List (Transition Loopback LoopbackEvent)) (s : Loopback),
      (d.system sha1 s₀).HistoryWhere (fun _ e => e.inTime = true) run s →
      run.length ≤ 20 + 7 * ∑ i ∈ Finset.range s₀.storage.geometry.numPieces,
        s₀.storage.geometry.numBlocks i + s₀.storage.geometry.numPieces ∧
      (s.Ended ∨ ∃ e s', e.inTime = true ∧ d.step sha1 s e = some s') ∧
      (s.Ended → d.Succeeded s) := by
  obtain ⟨s₀, c, hstart, hnew, hinit, hleft⟩ := Demo.start_eq_ok hsha hd
  refine ⟨s₀, hstart, fun run s hr => ?_⟩
  have hinv : ∀ {run s}, (d.system sha1 s₀).HistoryWhere (fun _ e => e.inTime = true) run s →
      s.Inv sha1 d c := by
    intro run s hr
    exact hr.state_invariant hinit fun s e s' _ hi hok h => (hi.step hnew hok h).1
  have hi := hinv hr
  refine ⟨?_, ?_, hi.succeeded hnew⟩
  · have hle := hr.countP_le (fun _ => true) Loopback.stepsLeft fun h s e s' hh hok hs =>
      ((hinv hh).step hnew hok hs).2
    have hbound : (d.system sha1 s₀).init.stepsLeft = _ := hleft
    rw [List.countP_true, hbound] at hle
    rw [hinit.geometry]
    omega
  · by_cases hend : s.Ended
    · exact .inl hend
    · exact .inr (hi.can_step hnew hend)

/-- Two pieces of one byte, under a hash function that tells nothing apart. -/
def twoBytes : Demo := ⟨[0x61, 0x62], 1, [], [], .v4 0 0, .unix, "/tmp"⟩

def zeroHash (_ : List UInt8) : List UInt8 := List.replicate sha1Len 0

/-- The session takes the second piece in the iteration after the first. -/
def twoBytesEvents : List LoopbackEvent :=
  List.flatten
    [[.spawn, .seeder, .session (.connect (.ok ())), .session (.sendInterested (.ok ())),
      .seeder, .seeder, .seeder],
    iteration 0 (.bitfield [0xC0]), iteration 0 .unchoke,
    iteration 1 (.piece ⟨0, 0, [0x61]⟩), [.session .emit],
    iteration 1 (.piece ⟨1, 0, [0x62]⟩),
    [.write, .session .emit, .session .signal, .session .cleanup, .write]]
where
  iteration (requests : Nat) (m : Message) : List LoopbackEvent :=
    List.flatten
      [[.session .poll, .session .proceed],
      List.replicate requests (.session (.request (.ok ()))), [.session .refilled],
      List.replicate requests .seeder, [.session (.recv (.ok (some m)))]]

/-- The demonstration with two pieces runs to its end, and succeeds. -/
theorem loopback_reproduces_twoBytes : ∃ s, s.Ended ∧ twoBytes.Succeeded s := by
  have hfits : twoBytes.Fits := by constructor <;> decide
  have hsha : ∀ bytes, (zeroHash bytes).length = sha1Len := fun _ => List.length_replicate
  obtain ⟨s₀, hstart, hall⟩ := loopback_reproduces hsha hfits
  have hexec : ((twoBytes.start zeroHash).toOption.bind fun s₀ =>
      (twoBytes.system zeroHash s₀).execWhile (fun _ e => e.inTime) s₀ twoBytesEvents).any
        (fun s => decide (s.seeded.swarm.procs.length = 1 ∧ s.seeded.firstEnded = true ∧
          s.seeded.swarm.shared.completed.pending.length = 0)) = true := by
    decide +kernel
  obtain ⟨s, hs, hdone⟩ := (Option.any_eq_true ..).mp hexec
  obtain ⟨hone, hended, hpending⟩ := of_decide_eq_true hdone
  obtain ⟨s₀', hs₀, hrun⟩ := Option.bind_eq_some_iff.mp hs
  rw [hstart] at hs₀
  obtain rfl : s₀ = s₀' := Option.some.inj hs₀
  have hnil : (twoBytes.system zeroHash s₀).HistoryWhere (fun _ e => e.inTime = true) [] s₀ := .nil
  obtain ⟨run, hr, -⟩ := hnil.execWhile (fun _ e => e.inTime) (fun _ _ h => h) twoBytesEvents hrun
  obtain ⟨p, hprocs⟩ := List.length_eq_one_iff.mp hone
  have hend : s.Ended := by
    refine ⟨⟨p, hprocs, .inr ?_⟩, List.eq_nil_of_length_eq_zero hpending⟩
    rw [Seeded.firstEnded, hprocs] at hended
    cases hphase : p.phase with
    | finished result => exact ⟨result, rfl⟩
    | _ =>
      simp only [List.getElem?_cons_zero, Option.any_some, hphase] at hended
      cases hended
  exact ⟨s, hend, (hall _ s hr).2.2 hend⟩

end Torrentina.Seeding
