import Torrentina.Core.Variant
import Torrentina.Disk.Storage
import Torrentina.Download.Coordinator
import Torrentina.Download.PieceSet
import Torrentina.Peer.Codec

/-!
# A swarm with one honest seeder

The seeder of the repository's loopback demonstration answers the handshake,
advertises every piece, unchokes, and then serves each request with the slice it
names; the seeders of its tests advertise fewer pieces. One session of a run, of
any index, talks to it over a link that keeps the order of messages both ways;
what arrives is what the decoder makes of the encoding. All other sessions are as
free as in any run.
-/

namespace Torrentina.Seeding

open Torrentina.Core Peer Download Disk

/-- What a seeder is started with. -/
structure Seed where
  content : List UInt8
  pieceLength : Nat
  numPieces : Nat
  /-- The pieces it advertises. -/
  advertise : List Nat

/-- What `run_seeder` is started with: it advertises every piece. -/
def Seed.whole (content : List UInt8) (pieceLength numPieces : Nat) : Seed :=
  ⟨content, pieceLength, numPieces, List.range numPieces⟩

/-- Where the seeder task is. -/
inductive SeederPhase
  /-- Before `accept` and the handshake. -/
  | accepting
  /-- Before `Bitfield` is sent. -/
  | greeting
  /-- Before `Unchoke` is sent. -/
  | unchoking
  /-- In the loop that serves requests. -/
  | serving
  /-- The task panicked or left its loop. -/
  | ended
  deriving DecidableEq, Repr

/-- The seeder and what is under way between it and its session. -/
structure Link where
  phase : SeederPhase
  toSeeder : List Message
  toSession : List Message

/-- What a receiver makes of a message: the decoder's answer to the encoder's bytes. -/
def received (m : Message) : Except Error (Option Message) :=
  (PeerCodec.decode (PeerCodec.encode m)).1

namespace Seed

/-- The bitfield with the advertised pieces set. -/
def offered (seed : Seed) : Bitfield := (Bitfield.new seed.numPieces).setAll seed.advertise

/-- The block a request names; slicing outside the content panics. -/
def block (seed : Seed) (b : BlockInfo) : Option Block :=
  let start := b.index.toNat * seed.pieceLength + b.begin.toNat
  let stop := start + b.length.toNat
  if stop ≤ seed.content.length then
    some ⟨b.index, b.begin, (seed.content.drop start).take b.length.toNat⟩
  else none

/-- What the seeder does with what it read. -/
def serve (seed : Seed) (l : Link) : Except Error (Option Message) → Link
  | .ok (some (.request b)) =>
    match seed.block b with
    | some block => { l with toSession := l.toSession ++ [.piece block] }
    | none => { l with phase := .ended }
  | .ok (some _) => l
  | _ => { l with phase := .ended }

/-- One step of `run_seeder`. -/
def step (seed : Seed) (l : Link) : Option Link :=
  match l.phase with
  | .accepting => some { l with phase := .greeting }
  | .greeting => some { l with
      phase := .unchoking
      toSession := l.toSession ++ [.bitfield seed.offered.toMessageBytes] }
  | .unchoking => some { l with phase := .serving, toSession := l.toSession ++ [.unchoke] }
  | .serving =>
    match l.toSeeder with
    | [] => none
    | m :: rest => some (seed.serve { l with toSeeder := rest } (received m))
  | .ended => none

theorem serve_interested (seed : Seed) (l : Link) : seed.serve l (.ok (some .interested)) = l := rfl

theorem serve_request {seed : Seed} {b : BlockInfo} {block : Block}
    (h : seed.block b = some block) (l : Link) : seed.serve l (.ok (some (.request b))) =
      { l with toSession := l.toSession ++ [.piece block] } := by
  rw [serve, h]

end Seed

namespace Link

/-- A link before the session dials. -/
def idle : Link := ⟨.accepting, [], []⟩

/-- The session sends a message. -/
def send (l : Link) (m : Message) : Link := { l with toSeeder := l.toSeeder ++ [m] }

/-- The link after an event of its session, absent when the link does not let it happen: the
dial succeeds once the seeder accepted, sends succeed while the seeder is there, and what is
received is the oldest message under way. -/
def carry (g : Geometry) (p : Session) (l : Link) : SessionEvent → Option Link
  | .connect (.ok ()) => if l.phase = .accepting then none else some l
  | .connect (.error _) => none
  | .sendInterested (.ok ()) => some (l.send .interested)
  | .sendInterested (.error _) => if l.phase = .ended then some l else none
  | .request (.ok ()) => (p.nextRequest g).map fun b => l.send (.request b)
  | .request (.error _) => if l.phase = .ended then some l else none
  | .recv r =>
    match l.toSession with
    | m :: rest => if r = received m then some { l with toSession := rest } else none
    | [] => if l.phase = .ended ∧ r = .ok none then some l else none
  | _ => some l

end Link

/-- A run's state and the link of one of its sessions. -/
structure Seeded where
  swarm : Swarm
  link : Link

/-- An event of the run that is not the session's, an event of the session, or a step of its
seeder. -/
inductive SeededEvent
  | swarm (e : SwarmEvent)
  | own (e : SessionEvent)
  | seeder

/-- Events of the session are taken with its link. -/
def isProc (k : Nat) : SwarmEvent → Bool
  | .proc j _ => j == k
  | _ => false

/-- One step of a run whose session `k` talks to the seeder. -/
def seededStep (sha1 : List UInt8 → List UInt8) (seed : Seed) (k : Nat) (s : Seeded) :
    SeededEvent → Option Seeded
  | .swarm e =>
    if isProc k e then none
    else ((Download.swarm sha1).poolStep s.swarm e).map fun w => { s with swarm := w }
  | .own e => s.swarm.procs[k]?.bind fun p =>
    (s.link.carry s.swarm.shared.geometry p e).bind fun link =>
      ((Download.swarm sha1).poolStep s.swarm (.proc k e)).map fun w => ⟨w, link⟩
  | .seeder =>
    if k < s.swarm.procs.length then (seed.step s.link).map fun link => { s with link } else none

/-- The runs of a coordinator whose session `k` talks to the seeder. -/
def seededSystem (sha1 : List UInt8 → List UInt8) (seed : Seed) (k : Nat) (c : Coordinator) :
    System Seeded SeededEvent where
  init := ⟨(c.system sha1).init, .idle⟩
  step := seededStep sha1 seed k

/-- No command is given, the coordinator is kept, and the seeder answers before the session's
request timer fires. -/
def undisturbed : SeededEvent → Bool
  | .swarm (.env .pause) | .swarm (.env .resume) | .swarm (.env .cancel) => false
  | .swarm (.env .dropCoordinator) => false
  | .own .timeout => false
  | _ => true

/-- The steps of the session and of its seeder. -/
def SeededEvent.isSeeding : SeededEvent → Bool
  | .swarm _ => false
  | .own _ | .seeder => true

/-- The seeder was started with the content of the torrent. -/
structure Seed.Offers (sha1 : List UInt8 → List UInt8) (info : Info) (seed : Seed) : Prop where
  pieceLength : seed.pieceLength = info.pieceLength.toNat
  numPieces : seed.numPieces = info.numPieces
  total : ∃ total, info.totalLength = .ok total ∧ total.toNat = seed.content.length
  hashes : ∃ hashes, info.pieceHashes = .ok hashes ∧ ∀ i < info.numPieces,
    hashes[i]? = some (sha1 ((seed.content.drop (i * seed.pieceLength)).take seed.pieceLength))
  /-- The bitfield fits a message. -/
  fits : byteLen info.numPieces < maxMessageLen

/-- The seeder advertises every piece. -/
def Seed.Whole (seed : Seed) : Prop := ∀ i < seed.numPieces, seed.offered.has i = true

theorem Seed.whole_whole (content : List UInt8) (pieceLength numPieces : Nat) :
    (Seed.whole content pieceLength numPieces).Whole := by
  intro i hi
  rw [← Bitfield.mem_pieces, Seed.offered, Bitfield.pieces_setAll]
  exact Finset.mem_union_right _
    (Finset.mem_filter.mpr ⟨List.mem_toFinset.mpr (List.mem_range.mpr hi), hi⟩)

end Torrentina.Seeding
