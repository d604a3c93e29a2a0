import Torrentina.Core.Channel
import Torrentina.Download.Assembler
import Torrentina.Download.State
import Torrentina.Download.Stats

/-!
# The per-peer session

A session is the state machine of one peer task, from the connection attempt to
the end of the task. A step runs from one suspension point to the next: the
local code before a critical section and the section itself are one step, and
between two steps any other session may run. Errors that leave the loop through
`?` go to the cleanup without touching the piece in progress; a panic skips the
cleanup as well.
-/

namespace Torrentina.Download

open Torrentina.Core Peer

/-- Runtime control state, broadcast to every peer task. -/
inductive ControlState
  | running
  | paused
  | cancelled
  deriving DecidableEq, Repr

/-- A fully downloaded and verified piece. -/
structure VerifiedPiece where
  index : Nat
  data : List UInt8
  deriving DecidableEq, Repr

/-- How many block requests are kept in flight per peer at once. -/
def maxPipelinedRequests : Nat := 5

/-- How long a peer may hold an in-flight piece without delivering, in seconds. -/
def requestTimeoutSecs : Nat := 30

/-- Drives a torrent download across a set of peers. -/
structure Coordinator where
  name : String
  geometry : Geometry
  tracker : PieceTracker
  stats : SwarmStats
  control : Watch ControlState
  done : Watch Bool
  infoHash : List UInt8
  peerId : List UInt8
  requestTimeout : Nat

/-- Build a coordinator for a torrent. -/
def Coordinator.new (info : Info) (infoHash peerId : List UInt8) : Except Error Coordinator := do
  let geometry ← Geometry.fromInfo info
  let tracker ← PieceTracker.fromInfo info
  return {
    name := info.name
    geometry
    tracker
    stats := SwarmStats.new
    control := Watch.channel .running
    done := Watch.channel false
    infoHash
    peerId
    requestTimeout := requestTimeoutSecs }

/-- What the sessions of a run share: the coordinator and the output channel. -/
structure Shared extends Coordinator where
  completed : Queue VerifiedPiece

/-- Where a session is suspended. -/
inductive Phase
  /-- Before `PeerConnection::connect` returns. -/
  | connecting
  /-- Before `Interested` is sent. -/
  | starting
  /-- At the head of the loop. -/
  | top
  /-- The control state was read; its critical section is next. -/
  | observed (state : ControlState)
  /-- In the paused branch, at `control.changed()`. -/
  | pausedWait
  /-- In the loop that refills the request pipeline. -/
  | refilling
  /-- At the `select!`. -/
  | selecting
  /-- In `handle_block`, between `mark_have` and the end of `completed.send`. -/
  | sending (piece : VerifiedPiece) (complete : Bool)
  /-- Before `done_tx.send(true)` and the `break` after it. -/
  | signalling
  /-- Out of the loop, before the availability cleanup. -/
  | leaving (result : Except Error Unit)
  /-- `peer_task` has returned. -/
  | finished (result : Except Error Unit)
  /-- The task panicked. -/
  | panicked

/-- Inside the session loop. -/
def Phase.inLoop : Phase → Bool
  | .top | .observed _ | .pausedWait | .refilling | .selecting | .sending _ _ | .signalling => true
  | _ => false

/-- Where a session never has a piece in progress. -/
def Phase.emptyHanded : Phase → Bool
  | .connecting | .starting | .pausedWait | .sending _ _ | .signalling => true
  | _ => false

/-- The local state of a peer task. `exclusive` records how `current` was last
taken, by `reserve_piece` or in the endgame; no step reads it. -/
structure Session where
  addr : SocketAddr
  phase : Phase
  peerHas : Bitfield
  choked : Bool
  current : Option PieceAssembler
  exclusive : Bool
  nextBlock : Nat
  inFlight : Nat
  controlSeen : Nat
  doneSeen : Nat

/-- What the world outside a session decides: results of I/O, and which enabled
branch runs. -/
inductive SessionEvent
  | connect (r : Except Error Unit)
  | sendInterested (r : Except Error Unit)
  | poll
  | proceed
  | request (r : Except Error Unit)
  | refilled
  | controlChanged
  | doneChanged
  | timeout
  | recv (r : Except Error (Option Message))
  | emit
  | signal
  | cleanup

namespace Shared

/-- `release_piece` of the piece in progress, if there is one. -/
def release (c : Shared) : Option PieceAssembler → Shared
  | some asm => { c with tracker := c.tracker.releasePiece asm.index }
  | none => c

/-- The task's receivers are dropped when it ends. -/
def dropReceivers (c : Shared) : Shared :=
  { c with control := c.control.unsubscribe, done := c.done.unsubscribe }

end Shared

/-! ## handle_block -/

/-- How far `handle_block` gets in one step. -/
inductive BlockOutcome
  | returned (torrentComplete : Bool)
  | failed (e : Error)
  | panicked
  | sending (piece : VerifiedPiece) (complete : Bool)

/-- What `handle_block` leaves behind at its first suspension or return. -/
structure BlockResult where
  outcome : BlockOutcome
  current : Option PieceAssembler
  inFlight : Nat
  tracker : PieceTracker

/-- Apply a received block to the current piece. -/
def handleBlock (sha1 : List UInt8 → List UInt8) (block : Block)
    (current : Option PieceAssembler) (inFlight : Nat) (tracker : PieceTracker) : BlockResult :=
  match current with
  | none => ⟨.returned false, none, inFlight, tracker⟩
  | some asm =>
    if block.index.toNat ≠ asm.index then ⟨.returned false, some asm, inFlight, tracker⟩
    else
      match asm.addBlock block.begin.toNat block.data with
      | .error (.error e) => ⟨.failed e, some asm, inFlight, tracker⟩
      | .error .panic => ⟨.panicked, some asm, inFlight, tracker⟩
      | .ok asm' =>
        if !asm'.isComplete then ⟨.returned false, some asm', inFlight - 1, tracker⟩
        else if tracker.has asm'.index then
          ⟨.returned tracker.isComplete, none, inFlight - 1, tracker⟩
        else if tracker.verify sha1 asm'.index asm'.intoBytes then
          ⟨.sending ⟨asm'.index, asm'.intoBytes⟩ (tracker.markHave asm'.index).isComplete, none,
            inFlight - 1, tracker.markHave asm'.index⟩
        else ⟨.returned false, none, inFlight - 1, tracker.releasePiece asm'.index⟩

/-! ## run_session -/

namespace Session

/-- A freshly spawned task, with its own receivers. -/
def new (c : Shared) (addr : SocketAddr) : Session where
  addr
  phase := .connecting
  peerHas := Bitfield.new c.geometry.numPieces
  choked := true
  current := none
  exclusive := false
  nextBlock := 0
  inFlight := 0
  controlSeen := c.control.version
  doneSeen := c.done.version

/-- `current.take()` and the reset of the request counters that follows it. -/
def dropCurrent (p : Session) : Session :=
  match p.current with
  | some _ => { p with current := none, nextBlock := 0, inFlight := 0 }
  | none => p

/-- Start assembling a reserved piece. -/
def assign (p : Session) (g : Geometry) (index : Nat) (exclusive : Bool) : Session :=
  { p with
    phase := .refilling
    current := some (PieceAssembler.new index (g.pieceLengthOf index))
    exclusive
    nextBlock := 0
    inFlight := 0 }

/-- If idle and unchoked, claim a new piece to work on. -/
def reserve (c : Shared) (p : Session) : Shared × Session :=
  if p.current.isNone && !p.choked then
    match c.tracker.reservePiece p.peerHas with
    | (some index, tracker) => ({ c with tracker }, p.assign c.geometry index true)
    | (none, _) =>
      if c.tracker.isComplete then (c, { p with phase := .signalling })
      else
        match c.tracker.reservePieceEndgame p.peerHas with
        | some index => (c, p.assign c.geometry index false)
        | none => (c, { p with phase := .refilling })
  else (c, { p with phase := .refilling })

/-- The block the refill loop requests next, absent when the loop ends. -/
def nextRequest (g : Geometry) (p : Session) : Option BlockInfo :=
  if p.choked then none
  else
    match p.current with
    | some asm =>
      if p.inFlight < maxPipelinedRequests ∧ p.nextBlock < g.numBlocks asm.index then
        some (g.blockInfo asm.index p.nextBlock)
      else none
    | none => none

/-- Store what `handle_block` left behind and act on its outcome. -/
def afterBlock (c : Shared) (p : Session) (r : BlockResult) : Shared × Session :=
  let c' := { c with tracker := r.tracker }
  let p' := { p with current := r.current, inFlight := r.inFlight }
  match r.outcome with
  | .returned true => (c', { p' with phase := .signalling })
  | .returned false => (c', { p' with phase := .top })
  | .failed e => (c', { p' with phase := .leaving (.error e) })
  | .panicked => (c'.dropReceivers, { p' with phase := .panicked })
  | .sending piece complete => (c', { p' with phase := .sending piece complete })

/-- React to one message of the peer. -/
def handleMessage (sha1 : List UInt8 → List UInt8) (c : Shared) (p : Session) :
    Message → Shared × Session
  | .choke =>
    ({ c.release p.current with stats := c.stats.setChoked p.addr true },
      { p.dropCurrent with phase := .top, choked := true })
  | .unchoke =>
    ({ c with stats := c.stats.setChoked p.addr false },
      { p with phase := .top, choked := false })
  | .have index =>
    let idx := index.toNat
    if !p.peerHas.has idx then
      let peerHas := p.peerHas.set idx
      ({ c with
          tracker := c.tracker.addAvailability idx
          stats := c.stats.setHaveCount p.addr (peerHas.count % 2 ^ 32) },
        { p with phase := .top, peerHas })
    else
      ({ c with stats := c.stats.setHaveCount p.addr (p.peerHas.count % 2 ^ 32) },
        { p with phase := .top })
  | .bitfield bits =>
    match Bitfield.fromBytes bits c.geometry.numPieces with
    | .error e => (c, { p with phase := .leaving (.error e) })
    | .ok newHas =>
      ({ c with
          tracker :=
            (c.tracker.removeBitfieldAvailability p.peerHas).addBitfieldAvailability newHas
          stats := c.stats.setHaveCount p.addr (newHas.count % 2 ^ 32) },
        { p with phase := .top, peerHas := newHas })
  | .piece block =>
    p.afterBlock { c with stats := c.stats.recordBlock p.addr block.data.length }
      (handleBlock sha1 block p.current p.inFlight c.tracker)
  | _ => (c, { p with phase := .top })

/-- One step of a peer task; an event that cannot happen where the task is
suspended has no successor. -/
def step (sha1 : List UInt8 → List UInt8) (c : Shared) (p : Session) (e : SessionEvent) :
    Option (Shared × Session) :=
  match p.phase, e with
  | .connecting, .connect (.ok ()) =>
    some ({ c with stats := c.stats.peerConnected p.addr }, { p with phase := .starting })
  | .connecting, .connect (.error err) =>
    some (c.dropReceivers, { p with phase := .finished (.error err) })
  | .starting, .sendInterested (.ok ()) => some (c, { p with phase := .top })
  | .starting, .sendInterested (.error err) =>
    some ({ c.dropReceivers with stats := c.stats.peerDisconnected p.addr },
      { p with phase := .finished (.error err) })
  | .top, .poll =>
    some (c, { p with phase := .observed c.control.value, controlSeen := c.control.version })
  | .observed .cancelled, .proceed =>
    some (c.release p.current, { p with phase := .leaving (.ok ()) })
  | .observed .paused, .proceed =>
    some (c.release p.current, { p.dropCurrent with phase := .pausedWait })
  | .observed .running, .proceed => some (reserve c p)
  | .pausedWait, .controlChanged =>
    match c.control.changed p.controlSeen with
    | some (.ok version) => some (c, { p with phase := .top, controlSeen := version })
    | some (.error ()) => some (c, { p with phase := .leaving (.ok ()) })
    | none => none
  | .refilling, .request r =>
    match p.nextRequest c.geometry, r with
    | some _, .ok () =>
      some (c, { p with nextBlock := p.nextBlock + 1, inFlight := p.inFlight + 1 })
    | some _, .error err => some (c, { p with phase := .leaving (.error err) })
    | none, _ => none
  | .refilling, .refilled =>
    match p.nextRequest c.geometry with
    | some _ => none
    | none => some (c, { p with phase := .selecting })
  | .selecting, .controlChanged =>
    match c.control.changed p.controlSeen with
    | some (.ok version) => some (c, { p with phase := .top, controlSeen := version })
    | some (.error ()) => some (c, { p with phase := .top })
    | none => none
  | .selecting, .doneChanged =>
    match c.done.changed p.doneSeen with
    | some _ => some (c, { p with phase := .leaving (.ok ()) })
    | none => none
  | .selecting, .timeout =>
    if p.current.isSome ∧ p.inFlight > 0 then
      some (c.release p.current,
        { p with phase := .top, current := none, nextBlock := 0, inFlight := 0 })
    else none
  | .selecting, .recv (.error err) => some (c, { p with phase := .leaving (.error err) })
  | .selecting, .recv (.ok none) =>
    some (c.release p.current, { p with phase := .leaving (.ok ()) })
  | .selecting, .recv (.ok (some message)) => some (handleMessage sha1 c p message)
  | .sending piece complete, .emit =>
    some ({ c with completed := c.completed.send piece },
      { p with phase := if complete then .signalling else .top })
  | .signalling, .signal =>
    some ({ c with done := c.done.send true }, { p with phase := .leaving (.ok ()) })
  | .leaving result, .cleanup =>
    some ({ c.dropReceivers with
        tracker := c.tracker.removeBitfieldAvailability p.peerHas
        stats := c.stats.peerDisconnected p.addr },
      { p with phase := .finished result })
  | _, _ => none

end Session

end Torrentina.Download
