import Torrentina.Download.Idle
import Torrentina.Download.Reassembly
import Torrentina.Seeding.Seeder

/-!
# What holds between a session and its seeder

The messages under way are the rest of the greeting and then one stretch of
consecutive blocks of the piece in progress: first the answered ones, then the
requests. The assembler holds the blocks before the stretch. Nothing another
session does can break this, since it only marks pieces and signals completion.
-/

namespace Torrentina.Seeding

open Torrentina.Core Peer Download Disk

/-! ## What the seeder sends -/

/-- A message that fits is received as it was sent. -/
theorem received_of_fits {m : Message} (h : m.body.length ≤ maxMessageLen) :
    received m = .ok (some m) := by
  have hd := PeerCodec.decode_body_append h []
  rw [List.append_nil, ← PeerCodec.encode_eq (PeerCodec.payload_lt_of_body h)] at hd
  rw [received, hd]

/-- The torrent of a run is the one the seeder was started with. -/
structure Seed.Feeds (sha1 : List UInt8 → List UInt8) (seed : Seed) (c : Shared) : Prop where
  pieceLength : seed.pieceLength = c.geometry.pieceLength
  numPieces : seed.numPieces = c.geometry.numPieces
  tracker : c.tracker.numPieces = c.geometry.numPieces
  length_content : seed.content.length = c.geometry.totalLength
  hash : ∀ i < c.geometry.numPieces,
    c.tracker.pieceHashes[i]? = some (sha1 (Storage.pieceOf c.geometry seed.content i))
  fits : byteLen seed.numPieces < maxMessageLen

/-- The answer to the request for block `b` of piece `i`. -/
def Seed.reply (seed : Seed) (g : Geometry) (i b : Nat) : Message :=
  let delivery := g.delivery i (Storage.pieceOf g seed.content i) b
  .piece ⟨(g.blockInfo i b).index, delivery.begin, delivery.data⟩

namespace Seed

variable {sha1 : List UInt8 → List UInt8} {seed : Seed} {c c' : Shared} {i b : Nat}

/-- A seeder goes on feeding a coordinator that was extended. -/
theorem Feeds.extends (h : seed.Feeds sha1 c) (hx : c.Extends c') : seed.Feeds sha1 c' where
  pieceLength := by rw [hx.geometry, h.pieceLength]
  numPieces := by rw [hx.geometry, h.numPieces]
  tracker := by rw [hx.geometry, PieceTracker.numPieces, hx.pieceHashes, ← h.tracker]; rfl
  length_content := by rw [hx.geometry, h.length_content]
  hash := by
    rw [hx.geometry, hx.pieceHashes]
    exact h.hash
  fits := h.fits

/-- The seeder's pieces have the lengths of the torrent's. -/
theorem Feeds.length_pieceOf (h : seed.Feeds sha1 c) (hg : c.geometry.WellFormed)
    (hi : i < c.geometry.numPieces) :
    (Storage.pieceOf c.geometry seed.content i).length = c.geometry.pieceLengthOf i := by
  have hle := hg.pieceOffset_add_le hi
  rw [Storage.pieceOf, List.length_take, List.length_drop, h.length_content]
  omega

/-- The slice a request of the geometry names is the block's part of its piece. -/
theorem Feeds.block_eq (h : seed.Feeds sha1 c) (hg : c.geometry.WellFormed)
    (hi : i < c.geometry.numPieces) (hb : b < c.geometry.numBlocks i) :
    (seed.block (c.geometry.blockInfo i b)).map Message.piece =
      some (seed.reply c.geometry i b) := by
  obtain ⟨hindex, hbegin, -, -, hend⟩ := hg.blockInfo_spec hi hb
  have hle := hg.pieceOffset_add_le hi
  have hstop : i * c.geometry.pieceLength + b * blockSize +
      (c.geometry.blockInfo i b).length.toNat ≤ seed.content.length := by
    rw [h.length_content]
    rw [Geometry.pieceOffset] at hle
    omega
  simp only [Seed.block, Seed.reply, Geometry.delivery, hindex, hbegin, h.pieceLength,
    if_pos hstop, Option.map_some, Option.some.injEq, Message.piece.injEq, Block.mk.injEq,
    true_and]
  rw [Storage.pieceOf, List.drop_take, List.take_take, List.drop_drop, Geometry.pieceOffset]
  congr 1
  omega

/-- An answer fits a message. -/
theorem length_reply (seed : Seed) {g : Geometry} (hg : g.WellFormed) (hi : i < g.numPieces)
    (hb : b < g.numBlocks i) : (seed.reply g i b).body.length ≤ maxMessageLen := by
  obtain ⟨-, -, -, hlen, -⟩ := hg.blockInfo_spec hi hb
  have hdata : (g.delivery i (Storage.pieceOf g seed.content i) b).data.length ≤ blockSize := by
    rw [Geometry.delivery, List.length_take]
    omega
  rw [blockSize] at hdata
  simp only [Seed.reply, Message.body, maxMessageLen, List.length_cons, List.length_append,
    length_putU32]
  omega

/-- The greeting reads back as the bitfield it was made of. -/
theorem Feeds.offered_eq (h : seed.Feeds sha1 c) :
    Bitfield.fromBytes seed.offered.toMessageBytes c.geometry.numPieces = .ok seed.offered := by
  have hn : seed.offered.numPieces = c.geometry.numPieces := by
    rw [Seed.offered, Bitfield.numPieces_setAll, Bitfield.numPieces_new, h.numPieces]
  rw [← hn]
  exact Bitfield.fromBytes_toMessageBytes _

/-- The seeder's bitfield fits a message. -/
theorem Feeds.length_greeting (h : seed.Feeds sha1 c) :
    (Message.bitfield seed.offered.toMessageBytes).body.length ≤ maxMessageLen := by
  have hl : seed.offered.toMessageBytes.length = byteLen seed.numPieces := by
    rw [Bitfield.toMessageBytes, seed.offered.length_bytes, Seed.offered, Bitfield.numPieces_setAll,
      Bitfield.numPieces_new]
  have hfits := h.fits
  simp only [Message.body, List.length_cons, hl]
  omega

end Seed

/-! ## The invariant of the session and its link -/

/-- What the seeder has sent of its greeting. -/
def Seed.greeted (seed : Seed) : SeederPhase → List Message
  | .accepting | .greeting => []
  | .unchoking => [.bitfield seed.offered.toMessageBytes]
  | .serving | .ended => [.bitfield seed.offered.toMessageBytes, .unchoke]

/-- How much of the greeting the session has received, and what is still under way. -/
inductive Greeting (seed : Seed) (p : Session) (phase : SeederPhase) : List Message → Prop
  | waiting (hc : p.choked = true) : Greeting seed p phase (seed.greeted phase)
  | advertised (ms : List Message) (hc : p.choked = true) (hhas : p.peerHas = seed.offered)
      (hm : .bitfield seed.offered.toMessageBytes :: ms = seed.greeted phase) :
      Greeting seed p phase ms
  | unchoked (hphase : phase = .serving) (hc : p.choked = false)
      (hhas : p.peerHas = seed.offered) : Greeting seed p phase []

/-- What is under way, where the answered blocks of piece `i` begin at `lo`, `a` of them are
answered and `q` more are requested. -/
structure Flight (seed : Seed) (g : Geometry) (p : Session) (l : Link)
    (greeting hello : List Message) (i lo a q : Nat) : Prop where
  toSession : l.toSession = greeting ++ (List.range' lo a).map (seed.reply g i)
  toSeeder : l.toSeeder =
    hello ++ (List.range' (lo + a) q).map fun b => .request (g.blockInfo i b)
  greeting : Greeting seed p l.phase greeting
  hello : ∀ m ∈ hello, m = .interested
  idle : p.current = none → a = 0 ∧ q = 0
  busy : ∀ asm, p.current = some asm → asm.index = i ∧ lo + a + q = p.nextBlock ∧
    p.inFlight = a + q ∧ p.nextBlock ≤ g.numBlocks i ∧ lo < g.numBlocks i ∧
    asm.Holds (Storage.pieceOf g seed.content i) (List.range lo) ∧ p.choked = false

/-- The states a session with a seeder is in: never paused or panicked, and past its loop only
when the torrent is complete. -/
def Tended (c : Shared) : Phase → Prop
  | .observed state => state = .running
  | .leaving result | .finished result => result = .ok () ∧ c.tracker.isComplete = true
  | .pausedWait | .panicked => False
  | _ => True

/-- The invariant of the session and its link. -/
structure Attended (seed : Seed) (c : Shared) (p : Session) (l : Link) : Prop where
  controlSeen : p.controlSeen = c.control.version
  tended : Tended c p.phase
  accepted : p.phase ≠ .connecting → l.phase ≠ .accepting
  alive : l.phase ≠ .ended
  served : p.Served c
  /-- With a seeder of every piece, a session is at its `select!` for a reason. -/
  ready : seed.Whole → p.phase = .refilling ∨ p.phase = .selecting → p.choked = false →
    p.current ≠ none
  refilled : p.phase = .selecting → p.nextRequest c.geometry = none
  flight : ∃ greeting hello i lo a q, Flight seed c.geometry p l greeting hello i lo a q

/-- Nobody has given a command, and somebody still can. -/
structure Quiet (c : Shared) : Prop where
  value : c.control.value = .running
  senderAlive : c.control.senderAlive = true

/-- The control channel says what it said. -/
structure SameControl (c c' : Shared) : Prop where
  value : c'.control.value = c.control.value
  version : c'.control.version = c.control.version
  senderAlive : c'.control.senderAlive = c.control.senderAlive

section Invariant

variable {sha1 : List UInt8 → List UInt8} {seed : Seed} {c c' : Shared} {p p' : Session}
  {l l' : Link}

/-- Where the control channels stay the same, so does their quiet. -/
theorem Quiet.same (h : Quiet c) (hs : SameControl c c') : Quiet c' :=
  ⟨hs.value.trans h.value, hs.senderAlive.trans h.senderAlive⟩

/-- Sessions only come and go as receivers of the control channel. -/
theorem sameControl_of_step {e : SessionEvent} (h : Session.Step sha1 c p e c' p') :
    SameControl c c' := by
  cases h <;> constructor <;> simp [Shared.dropReceivers, Watch.unsubscribe]

/-- Being tended is kept when the coordinator is extended. -/
theorem Tended.extends {phase : Phase} (h : Tended c phase) (hx : c.Extends c') :
    Tended c' phase := by
  cases phase with
  | leaving result => exact ⟨h.1, hx.isComplete h.2⟩
  | finished result => exact ⟨h.1, hx.isComplete h.2⟩
  | _ => exact h

/-- What another session or the environment does keeps a session attended. -/
theorem Attended.extends (h : Attended seed c p l) (hx : c.Extends c') (hs : SameControl c c') :
    Attended seed c' p l where
  controlSeen := h.controlSeen.trans hs.version.symm
  tended := h.tended.extends hx
  accepted := h.accepted
  alive := h.alive
  served := h.served.extends hx
  ready := h.ready
  refilled := by
    rw [hx.geometry]
    exact h.refilled
  flight := by
    rw [hx.geometry]
    exact h.flight

/-- A fresh session and a fresh link. -/
theorem attended_new (seed : Seed) (c : Shared) (addr : SocketAddr) :
    Attended seed c (Session.new c addr) .idle where
  controlSeen := rfl
  tended := trivial
  accepted h := absurd rfl h
  alive h := by cases h
  served h := by rcases h with h | h <;> cases h
  ready _ h := by rcases h with h | h <;> cases h
  refilled h := by cases h
  flight := ⟨[], [], 0, 0, 0, 0, rfl, rfl, .waiting rfl, fun _ hm => (by cases hm),
    fun _ => ⟨rfl, rfl⟩, fun _ h => (by cases h)⟩

/-- While the session is choked nothing is in flight. -/
theorem Flight.quiet_of_choked {g : Geometry} {greeting hello : List Message} {i lo a q : Nat}
    (h : Flight seed g p l greeting hello i lo a q) (hc : p.choked = true) :
    p.current = none ∧ a = 0 ∧ q = 0 := by
  cases hcur : p.current with
  | none => exact ⟨rfl, h.idle hcur⟩
  | some asm =>
    obtain ⟨-, -, -, -, -, -, hch⟩ := h.busy asm hcur
    rw [hc] at hch
    cases hch

end Invariant

end Torrentina.Seeding
