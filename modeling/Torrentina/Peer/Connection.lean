import Torrentina.Core.Stream
import Torrentina.Core.System
import Torrentina.Peer.Codec
import Torrentina.Peer.Handshake

/-!
# A connection between two peers

Both ends run the same code: write a handshake, read exactly as many bytes, check
them, and from then on send and receive framed messages. Bytes reach the network in
pieces of any size and arrive in pieces of any size; either end may stop at any
time, also with a message half sent, and gives up when the stream or the handshake
takes too long.
-/

namespace Torrentina.Peer

open Torrentina.Core

/-! ## The endpoints -/

/-- Two lower-case hexadecimal digits. -/
def hexByte (b : UInt8) : String :=
  String.ofList [Nat.digitChar (b.toNat / 16), Nat.digitChar (b.toNat % 16)]

/-- `Display for InfoHash`. -/
def displayHash (infoHash : Bytes 20) : String := String.join (infoHash.val.map hexByte)

/-- The end of `handshake`: parse what was read and compare the info hash. -/
def checkHandshake (infoHash : Bytes 20) (buf : List UInt8) : Except Error Handshake := do
  let remote ← Handshake.fromBytes buf
  if remote.infoHash ≠ infoHash then
    .error (.peerProtocol (s!"peer info hash {displayHash remote.infoHash} " ++
      s!"does not match ours {displayHash infoHash}"))
  else .ok remote

/-- What `connect` fails with when `CONNECT_TIMEOUT` passes; `addr` is the printed address. -/
def connectTimedOut (addr : String) : Error := .peerProtocol s!"connection to {addr} timed out"

/-- What `connect` fails with when `HANDSHAKE_TIMEOUT` passes. -/
def handshakeTimedOut (addr : String) : Error := .peerProtocol s!"handshake with {addr} timed out"

/-- Where an end of a connection is. -/
inductive EndpointPhase
  /-- Before the end of `TcpStream::connect`, or of `write_all` of the handshake. -/
  | opening
  /-- In `read_exact`, with the bytes read so far. -/
  | exchanging (buf : List UInt8)
  /-- The handshake is done; messages are framed, with the bytes not decoded yet. -/
  | ready (remote : Handshake) (buf : List UInt8)
  /-- The connection was given up with an error. -/
  | failed (e : Error)
  /-- The stream was dropped or the other end's was. -/
  | closed
  deriving DecidableEq

/-- One end of a connection. What it wrote and what the network has not taken yet is
its `outbox`; `addr` is the address of the other end. -/
structure Endpoint where
  addr : String
  infoHash : Bytes 20
  peerId : Bytes 20
  phase : EndpointPhase
  outbox : List UInt8
  sent : List Message
  received : List Message

namespace Endpoint

/-- The handshake an end writes. -/
def ours (e : Endpoint) : Handshake := Handshake.new e.infoHash e.peerId

/-- Whether the end has dropped its stream. -/
def gone (e : Endpoint) : Bool := e.phase matches .failed _ | .closed

/-- A timer of `connect` has run out at the end. -/
def TimedOut (e : Endpoint) : Prop :=
  e.phase = .failed (connectTimedOut e.addr) ∨ e.phase = .failed (handshakeTimedOut e.addr)

/-- The end was dropped, or its timer has run out. -/
def Quit (e : Endpoint) : Prop := e.phase = .closed ∨ e.TimedOut

theorem Quit.gone {e : Endpoint} (h : e.Quit) : e.gone = true := by
  rcases h with h | h | h <;> rw [Endpoint.gone, h]

/-- Drop the stream, and with it what the network has not taken. -/
def leave (e : Endpoint) (phase : EndpointPhase) : Endpoint := { e with phase, outbox := [] }

/-- Everything an end writes over its life. -/
def written (e : Endpoint) : List UInt8 := e.ours.toBytes ++ e.sent.flatMap PeerCodec.encode

end Endpoint

/-- What happens at an end. -/
inductive Action
  /-- `write_all` of the handshake. -/
  | write
  /-- The network takes `n` bytes. -/
  | flush (n : Nat)
  /-- `n` bytes arrive. -/
  | read (n : Nat)
  /-- `read_exact` has filled its buffer. -/
  | check
  /-- `framed.send`. -/
  | send (m : Message)
  /-- `framed.next` finds a frame, or an error, in its buffer. -/
  | recv
  /-- `CONNECT_TIMEOUT` passes. -/
  | connectTimeout
  /-- `HANDSHAKE_TIMEOUT` passes. -/
  | handshakeTimeout
  /-- The end is dropped. -/
  | close
  /-- The end of the other stream is read. -/
  | eof

/-- Both ends, and the bytes on their way to each. -/
structure Connection where
  ends : Bool → Endpoint
  wire : Bool → List UInt8

namespace Connection

/-- Replace one end. -/
def setEnd (s : Connection) (side : Bool) (e : Endpoint) : Connection :=
  { s with ends := Function.update s.ends side e }

/-- Replace the bytes on their way to one end. -/
def setWire (s : Connection) (side : Bool) (bytes : List UInt8) : Connection :=
  { s with wire := Function.update s.wire side bytes }

/-- What an end does with its buffer once framed. -/
def next (e : Endpoint) (remote : Handshake) (buf : List UInt8) : Option Endpoint :=
  match PeerCodec.decode buf with
  | (.ok none, _) => none
  | (.ok (some m), rest) =>
    some { e with phase := .ready remote rest, received := e.received ++ [m] }
  | (.error err, _) => some (e.leave (.failed err))

/-- What an end does at the end of the other stream. -/
def atEof (e : Endpoint) : EndpointPhase → Option Endpoint
  | .exchanging buf =>
    if buf.length < handshakeLen then some (e.leave (.failed (.io "early eof"))) else none
  | .ready _ buf =>
    match (PeerCodec.decode buf).1 with
    | .ok none =>
      if buf.isEmpty then some (e.leave .closed)
      else some (e.leave (.failed (.io "bytes remaining on stream")))
    | _ => none
  | _ => none

/-- One step of an end. -/
def step (s : Connection) (side : Bool) (a : Action) : Option Connection :=
  let e := s.ends side
  match a, e.phase with
  | .write, .opening =>
    some (s.setEnd side { e with phase := .exchanging [], outbox := e.ours.toBytes })
  | .flush n, _ =>
    if n ≤ e.outbox.length then
      some ((s.setEnd side { e with outbox := e.outbox.drop n }).setWire (!side)
        (s.wire (!side) ++ e.outbox.take n))
    else none
  | .read n, .exchanging buf =>
    -- `read_exact` offers only what is missing of its buffer
    if n ≤ (s.wire side).length ∧ n ≤ handshakeLen - buf.length then
      some ((s.setEnd side { e with phase := .exchanging (buf ++ (s.wire side).take n) }).setWire
        side ((s.wire side).drop n))
    else none
  | .read n, .ready remote buf =>
    if n ≤ (s.wire side).length then
      some ((s.setEnd side { e with phase := .ready remote (buf ++ (s.wire side).take n) }).setWire
        side ((s.wire side).drop n))
    else none
  | .check, .exchanging buf =>
    if buf.length = handshakeLen then
      match checkHandshake e.infoHash buf with
      | .ok remote => some (s.setEnd side { e with phase := .ready remote [] })
      | .error err => some (s.setEnd side (e.leave (.failed err)))
    else none
  | .send m, .ready _ _ =>
    some (s.setEnd side
      { e with outbox := e.outbox ++ PeerCodec.encode m, sent := e.sent ++ [m] })
  | .recv, .ready remote buf => (next e remote buf).map (s.setEnd side)
  | .connectTimeout, .opening =>
    some (s.setEnd side (e.leave (.failed (connectTimedOut e.addr))))
  | .handshakeTimeout, .opening =>
    some (s.setEnd side (e.leave (.failed (handshakeTimedOut e.addr))))
  | .handshakeTimeout, .exchanging _ =>
    some (s.setEnd side (e.leave (.failed (handshakeTimedOut e.addr))))
  | .close, _ => if e.gone then none else some (s.setEnd side (e.leave .closed))
  | .eof, phase =>
    if (s.ends (!side)).gone ∧ s.wire side = [] then (atEof e phase).map (s.setEnd side) else none
  | _, _ => none

/-- All runs of a connection between two ends with the given info hashes and peer ids, each
of which knows the other by its address. -/
def system (addr : Bool → String) (infoHash peerId : Bool → Bytes 20) :
    System Connection (Bool × Action) where
  init := ⟨fun side => ⟨addr side, infoHash side, peerId side, .opening, [], [], []⟩, fun _ => []⟩
  step s e := s.step e.1 e.2

end Connection

/-! ## The stream from one end to the other -/

/-- What end `y` has of the stream of end `x`, where `lost` never gets to the network. -/
def Carried (x y : Endpoint) (wire lost : List UInt8) : Prop :=
  match y.phase with
  | .opening => y.received = [] ∧ wire ++ (x.outbox ++ lost) = x.written
  | .exchanging buf => y.received = [] ∧ buf ++ (wire ++ (x.outbox ++ lost)) = x.written
  | .ready remote buf => remote = x.ours ∧ x.infoHash = y.infoHash ∧
    ∃ ms, x.sent = y.received ++ ms ∧
      buf ++ (wire ++ (x.outbox ++ lost)) = ms.flatMap PeerCodec.encode
  | .failed _ | .closed => y.received <+: x.sent

/-- The invariant of one direction of a connection, from `x` to `y`: nothing is lost of the
stream unless `x` has not begun or has gone. -/
structure Directed (x y : Endpoint) (wire : List UInt8) : Prop where
  fits : ∀ m ∈ x.sent, m.body.length ≤ maxMessageLen
  opening : x.phase = .opening → x.outbox = [] ∧ x.sent = []
  left : x.gone = true → x.outbox = []
  carried : ∃ lost, (x.phase = .opening → lost = x.written) ∧
    (lost ≠ [] → x.phase = .opening ∨ x.gone = true) ∧ Carried x y wire lost
  failed : ∀ e, y.phase = .failed e → x.infoHash ≠ y.infoHash ∨ y.TimedOut ∨ x.Quit

section Stream

variable {x x' y : Endpoint} {wire wire' lost lost' : List UInt8}

/-- Messages read back from their own encoding. -/
theorem peerFraming_encodes :
    PeerCodec.peerFraming.Encodes PeerCodec.encode fun m => m.body.length ≤ maxMessageLen where
  empty := rfl
  decode_enc m hm rest := by
    rw [PeerCodec.encode_eq (PeerCodec.payload_lt_of_body hm)]
    exact PeerCodec.decode_body_append hm rest

/-- Moving bytes along the stream changes nothing for the receiver. -/
theorem Carried.sender (h : Carried x y wire lost) (hhash : x'.infoHash = x.infoHash)
    (hid : x'.peerId = x.peerId) (hsent : x'.sent = x.sent)
    (hbytes : wire' ++ (x'.outbox ++ lost') = wire ++ (x.outbox ++ lost)) :
    Carried x' y wire' lost' := by
  have hours : x'.ours = x.ours := by rw [Endpoint.ours, hhash, hid, Endpoint.ours]
  have hwritten : x'.written = x.written := by
    rw [Endpoint.written, hours, hsent, Endpoint.written]
  unfold Carried at h ⊢
  rw [hbytes, hwritten, hours, hhash, hsent]
  exact h

/-- The received messages are a beginning of the sent ones. -/
theorem Carried.prefix (h : Carried x y wire lost) : y.received <+: x.sent := by
  unfold Carried at h
  split at h
  · rw [h.1]
    exact List.nil_prefix
  · rw [h.1]
    exact List.nil_prefix
  · obtain ⟨-, -, ms, hms, -⟩ := h
    rw [hms]
    exact List.prefix_append _ _
  · exact h
  · exact h

/-- A message sent by an end that has begun and not gone goes behind everything else. -/
theorem Carried.send (h : Carried x y wire []) (m : Message) :
    Carried { x with outbox := x.outbox ++ PeerCodec.encode m, sent := x.sent ++ [m] } y wire
      [] := by
  have hwritten : ({ x with outbox := x.outbox ++ PeerCodec.encode m, sent := x.sent ++ [m] } :
      Endpoint).written = x.written ++ PeerCodec.encode m := by
    simp [Endpoint.written, Endpoint.ours]
  have hpre := h.prefix
  unfold Carried at h ⊢
  split at h
  · refine ⟨h.1, ?_⟩
    rw [hwritten, ← h.2]
    simp
  · refine ⟨h.1, ?_⟩
    rw [hwritten, ← h.2]
    simp
  · obtain ⟨hremote, hhash, ms, hms, hbytes⟩ := h
    refine ⟨hremote, hhash, ms ++ [m], ?_, ?_⟩
    · rw [hms, List.append_assoc]
    · rw [List.flatMap_append, ← hbytes]
      simp
  · exact hpre.trans (List.prefix_append _ _)
  · exact hpre.trans (List.prefix_append _ _)

/-- Reading moves bytes from the network to the buffer. -/
theorem read_append (buf wire rest : List UInt8) (n : Nat) :
    buf ++ wire.take n ++ (wire.drop n ++ rest) = buf ++ (wire ++ rest) := by
  rw [List.append_assoc, ← List.append_assoc (wire.take n), List.take_append_drop]

/-- A full handshake buffer holds the other end's handshake, and the messages follow. -/
theorem Carried.check {buf : List UInt8} (hph : y.phase = .exchanging buf)
    (h : Carried x y wire lost) (hlen : buf.length = handshakeLen) :
    checkHandshake y.infoHash buf = (if x.infoHash ≠ y.infoHash then
      .error (.peerProtocol (s!"peer info hash {displayHash x.infoHash} " ++
        s!"does not match ours {displayHash y.infoHash}")) else .ok x.ours) ∧
      y.received = [] ∧ wire ++ (x.outbox ++ lost) = x.sent.flatMap PeerCodec.encode := by
  unfold Carried at h
  rw [hph] at h
  obtain ⟨hrec, hbytes⟩ := h
  rw [Endpoint.written] at hbytes
  obtain ⟨rfl, hrest⟩ := List.append_inj hbytes (hlen.trans x.ours.length_toBytes.symm)
  refine ⟨?_, hrec, hrest⟩
  rw [checkHandshake, x.ours.fromBytes_toBytes]
  rfl

/-- Decoding a frame of the stream gives the next message that was sent. -/
theorem Carried.recv {remote : Handshake} {buf : List UInt8} (hph : y.phase = .ready remote buf)
    (hfits : ∀ m ∈ x.sent, m.body.length ≤ maxMessageLen) (h : Carried x y wire lost)
    {y' : Endpoint} (hnext : Connection.next y remote buf = some y') :
    Carried x y' wire lost ∧ y'.infoHash = y.infoHash ∧ y'.peerId = y.peerId ∧
      y'.outbox = y.outbox ∧ y'.sent = y.sent ∧ ∃ rest, y'.phase = .ready remote rest := by
  unfold Carried at h
  rw [hph] at h
  obtain ⟨hremote, hhash, ms, hms, hbytes⟩ := h
  have hall : ∀ m ∈ ms, m.body.length ≤ maxMessageLen := by
    intro m hm
    exact hfits m (hms ▸ List.mem_append_right _ hm)
  rcases peerFraming_encodes.decode_beginning hall hbytes with hd | ⟨m, ms', rfl, hd, hrest⟩
  · have hd' : PeerCodec.decode buf = (.ok none, (PeerCodec.decode buf).2) := Prod.ext hd rfl
    rw [Connection.next, hd'] at hnext
    cases hnext
  · have hd' : PeerCodec.decode buf = (.ok (some m), (PeerCodec.decode buf).2) := Prod.ext hd rfl
    rw [Connection.next, hd'] at hnext
    obtain rfl := Option.some.inj hnext
    refine ⟨⟨hremote, hhash, ms', ?_, hrest⟩, rfl, rfl, rfl, rfl, _, rfl⟩
    rw [hms]
    simp

end Stream

/-! ## What each action does to both directions -/

section Directions

variable {x x' y y' : Endpoint} {wire : List UInt8}

/-- An end that only moved on as a receiver is the same sender. -/
theorem Directed.sameSender (h : Directed x y wire) (hhash : x'.infoHash = x.infoHash)
    (hid : x'.peerId = x.peerId) (hsent : x'.sent = x.sent) (hout : x'.outbox = x.outbox)
    (hbegun : x.phase ≠ .opening) (hbegun' : x'.phase ≠ .opening) (hgone : x.gone = false)
    (hgone' : x'.gone = false) : Directed x' y wire := by
  obtain ⟨lost, -, hlost, hc⟩ := h.carried
  have hnil : lost = [] := by
    by_contra hne
    rcases hlost hne with hph | hg
    · exact hbegun hph
    · rw [hgone] at hg
      cases hg
  subst hnil
  refine ⟨hsent ▸ h.fits, fun hph => absurd hph hbegun', fun hg => ?_, ⟨[], ?_, ?_, ?_⟩, ?_⟩
  · rw [hgone'] at hg
    cases hg
  · exact fun hph => absurd hph hbegun'
  · exact fun hne => absurd rfl hne
  · exact hc.sender hhash hid hsent (by rw [hout])
  · intro e he
    rcases h.failed e he with hne | htimed | hquit
    · exact .inl (hhash ▸ hne)
    · exact .inr (.inl htimed)
    · cases hquit.gone.symm.trans hgone

/-- An end that goes loses what the network has not taken. -/
theorem Directed.senderLeaves (h : Directed x y wire) (hgone : x.gone = false)
    {phase : EndpointPhase} (hphase : (x.leave phase).gone = true) :
    Directed (x.leave phase) y wire := by
  obtain ⟨lost, -, -, hc⟩ := h.carried
  have hbegun : phase ≠ .opening := by
    rintro rfl
    cases hphase
  refine ⟨h.fits, fun hph => absurd hph hbegun, fun _ => rfl, ⟨x.outbox ++ lost, ?_, ?_, ?_⟩, ?_⟩
  · exact fun hph => absurd hph hbegun
  · exact fun _ => .inr hphase
  · exact hc.sender rfl rfl rfl rfl
  · intro e he
    rcases h.failed e he with hne | htimed | hquit
    · exact .inl hne
    · exact .inr (.inl htimed)
    · cases hquit.gone.symm.trans hgone

/-- An end that writes its handshake begins its stream. -/
theorem Directed.senderWrites (h : Directed x y wire) (hx : x.phase = .opening) :
    Directed { x with phase := .exchanging [], outbox := x.ours.toBytes } y wire := by
  obtain ⟨hout, hsent⟩ := h.opening hx
  obtain ⟨lost, hopen, -, hc⟩ := h.carried
  refine ⟨h.fits, fun hph => (by cases hph), fun hg => (by cases hg), ⟨[], ?_, ?_, ?_⟩, ?_⟩
  · exact fun hph => (by cases hph)
  · exact fun hne => absurd rfl hne
  · refine hc.sender rfl rfl rfl ?_
    rw [hopen hx, hout, Endpoint.written, hsent]
    simp
  · intro e he
    rcases h.failed e he with hne | htimed | hquit
    · exact .inl hne
    · exact .inr (.inl htimed)
    · have hgone := hquit.gone
      rw [Endpoint.gone, hx] at hgone
      cases hgone

/-- The network takes bytes of an end. -/
theorem Directed.senderFlushes (h : Directed x y wire) (n : Nat) :
    Directed { x with outbox := x.outbox.drop n } y (wire ++ x.outbox.take n) := by
  obtain ⟨lost, hopen, hlost, hc⟩ := h.carried
  refine ⟨h.fits, fun hph => ?_, fun hg => ?_, ⟨lost, hopen, hlost, ?_⟩, h.failed⟩
  · obtain ⟨hout, hsent⟩ := h.opening hph
    exact ⟨by simp [hout], hsent⟩
  · have hout := h.left hg
    simp [hout]
  · refine hc.sender rfl rfl rfl ?_
    exact read_append wire x.outbox lost n

/-- A ready end sends a message. -/
theorem Directed.senderSends (h : Directed x y wire) {remote : Handshake} {buf : List UInt8}
    (hx : x.phase = .ready remote buf) {m : Message} (hm : m.body.length ≤ maxMessageLen) :
    Directed { x with outbox := x.outbox ++ PeerCodec.encode m, sent := x.sent ++ [m] } y
      wire := by
  obtain ⟨lost, -, hlost, hc⟩ := h.carried
  have hnil : lost = [] := by
    by_contra hne
    rcases hlost hne with hph | hg
    · rw [hx] at hph
      cases hph
    · rw [Endpoint.gone, hx] at hg
      cases hg
  subst hnil
  refine ⟨fun m' hm' => ?_, fun hph => ?_, fun hg => ?_, ⟨[], ?_, ?_, hc.send m⟩, h.failed⟩
  · rcases List.mem_append.mp hm' with hm' | hm'
    · exact h.fits m' hm'
    · rw [List.mem_singleton.mp hm']
      exact hm
  · simp only [hx] at hph
    cases hph
  · simp only [Endpoint.gone, hx] at hg
    cases hg
  · intro hph
    simp only [hx] at hph
    cases hph
  · exact fun hne => absurd rfl hne

/-- What an end does as a sender does not matter to what it receives. -/
theorem Directed.sameReceiver (h : Directed x y wire) (hhash : y'.infoHash = y.infoHash)
    (hrec : y'.received = y.received) (hphase : y'.phase = y.phase) (haddr : y'.addr = y.addr) :
    Directed x y' wire := by
  obtain ⟨lost, hopen, hlost, hc⟩ := h.carried
  refine ⟨h.fits, h.opening, h.left, ⟨lost, hopen, hlost, ?_⟩, ?_⟩
  · unfold Carried at hc ⊢
    rw [hphase, hhash, hrec]
    exact hc
  · rw [Endpoint.TimedOut, hphase, hhash, haddr]
    exact h.failed

/-- A receiver that goes keeps what it has received. -/
theorem Directed.receiverLeaves (h : Directed x y wire) {phase : EndpointPhase}
    (hphase : (y.leave phase).gone = true)
    (hfailed : ∀ e, phase = .failed e →
      x.infoHash ≠ y.infoHash ∨ (y.leave phase).TimedOut ∨ x.Quit) :
    Directed x (y.leave phase) wire := by
  obtain ⟨lost, hopen, hlost, hc⟩ := h.carried
  refine ⟨h.fits, h.opening, h.left, ⟨lost, hopen, hlost, ?_⟩, hfailed⟩
  have hpre := hc.prefix
  unfold Carried
  cases phase with
  | failed e => exact hpre
  | closed => exact hpre
  | _ => cases hphase

/-- A receiver writes its handshake and begins to read. -/
theorem Directed.receiverWrites (h : Directed x y wire) (hy : y.phase = .opening) :
    Directed x { y with phase := .exchanging [], outbox := y.ours.toBytes } wire := by
  obtain ⟨lost, hopen, hlost, hc⟩ := h.carried
  refine ⟨h.fits, h.opening, h.left, ⟨lost, hopen, hlost, ?_⟩, fun e he => (by cases he)⟩
  unfold Carried at hc ⊢
  rw [hy] at hc
  exact hc

/-- A receiver reads a part of its handshake. -/
theorem Directed.readsHandshake (h : Directed x y wire) {buf : List UInt8}
    (hy : y.phase = .exchanging buf) (n : Nat) :
    Directed x { y with phase := .exchanging (buf ++ wire.take n) } (wire.drop n) := by
  obtain ⟨lost, hopen, hlost, hc⟩ := h.carried
  refine ⟨h.fits, h.opening, h.left, ⟨lost, hopen, hlost, ?_⟩, fun e he => (by cases he)⟩
  unfold Carried at hc ⊢
  rw [hy] at hc
  refine ⟨hc.1, ?_⟩
  rw [read_append]
  exact hc.2

/-- A receiver reads into its frame buffer. -/
theorem Directed.readsFrames (h : Directed x y wire) {remote : Handshake} {buf : List UInt8}
    (hy : y.phase = .ready remote buf) (n : Nat) :
    Directed x { y with phase := .ready remote (buf ++ wire.take n) } (wire.drop n) := by
  obtain ⟨lost, hopen, hlost, hc⟩ := h.carried
  refine ⟨h.fits, h.opening, h.left, ⟨lost, hopen, hlost, ?_⟩, fun e he => (by cases he)⟩
  unfold Carried at hc ⊢
  rw [hy] at hc
  obtain ⟨hremote, hhash, ms, hms, hbytes⟩ := hc
  refine ⟨hremote, hhash, ms, hms, ?_⟩
  rw [read_append]
  exact hbytes

/-- The handshake of an end with the same info hash is accepted. -/
theorem Directed.checks (h : Directed x y wire) {buf : List UInt8}
    (hy : y.phase = .exchanging buf) (hlen : buf.length = handshakeLen) :
    (∀ remote, checkHandshake y.infoHash buf = .ok remote →
      Directed x { y with phase := .ready remote [] } wire) ∧
    ∀ e, checkHandshake y.infoHash buf = .error e → x.infoHash ≠ y.infoHash := by
  obtain ⟨lost, hopen, hlost, hc⟩ := h.carried
  obtain ⟨hcheck, hrec, hbytes⟩ := hc.check hy hlen
  constructor
  · intro remote hok
    rw [hcheck] at hok
    split at hok
    · cases hok
    · rename_i heq
      obtain rfl := Except.ok.inj hok
      refine ⟨h.fits, h.opening, h.left, ⟨lost, hopen, hlost, ?_⟩, fun e he => (by cases he)⟩
      exact ⟨rfl, not_not.mp heq, x.sent, by rw [hrec]; rfl, hbytes⟩
  · intro e herror
    rw [hcheck] at herror
    split at herror
    · assumption
    · cases herror

/-- A receiver takes the next message. -/
theorem Directed.receives (h : Directed x y wire) {remote : Handshake} {buf : List UInt8}
    (hy : y.phase = .ready remote buf) (hnext : Connection.next y remote buf = some y') :
    Directed x y' wire ∧ y'.infoHash = y.infoHash ∧ y'.peerId = y.peerId ∧
      y'.outbox = y.outbox ∧ y'.sent = y.sent ∧ ∃ rest, y'.phase = .ready remote rest := by
  obtain ⟨lost, hopen, hlost, hc⟩ := h.carried
  obtain ⟨hc', hhash, hid, hout, hsent, rest, hph⟩ := hc.recv hy h.fits hnext
  refine ⟨⟨h.fits, h.opening, h.left, ⟨lost, hopen, hlost, hc'⟩, fun e he => ?_⟩, hhash, hid,
    hout, hsent, rest, hph⟩
  rw [hph] at he
  cases he

end Directions

/-! ## Runs -/

namespace Connection

/-- The invariant of a connection. -/
structure Inv (infoHash peerId : Bool → Bytes 20) (s : Connection) : Prop where
  infoHash : ∀ side, (s.ends side).infoHash = infoHash side
  peerId : ∀ side, (s.ends side).peerId = peerId side
  directed : ∀ side, Directed (s.ends (!side)) (s.ends side) (s.wire side)

section Steps

variable {infoHash peerId : Bool → Bytes 20} {s s' : Connection} {side : Bool} {e : Endpoint}
  {w : List UInt8}

@[simp] theorem ends_setEnd_self : (s.setEnd side e).ends side = e := Function.update_self ..

@[simp] theorem ends_setEnd_other : (s.setEnd side e).ends (!side) = s.ends (!side) :=
  Function.update_of_ne (by simp) ..

@[simp] theorem wire_setWire_self : (s.setWire side w).wire side = w := Function.update_self ..

theorem wire_setWire_of_ne {t : Bool} (h : t ≠ side) : (s.setWire side w).wire t = s.wire t :=
  Function.update_of_ne h ..

/-- One end and the two directions it is in are all that a step touches. -/
theorem Inv.of_end (h : s.Inv infoHash peerId) (hends : s'.ends = (s.setEnd side e).ends)
    (hhash : e.infoHash = (s.ends side).infoHash) (hid : e.peerId = (s.ends side).peerId)
    (hin : Directed (s.ends (!side)) e (s'.wire side))
    (hout : Directed e (s.ends (!side)) (s'.wire (!side))) : s'.Inv infoHash peerId := by
  have hself : s'.ends side = e := by rw [hends, ends_setEnd_self]
  have hother : s'.ends (!side) = s.ends (!side) := by rw [hends, ends_setEnd_other]
  have hcases : ∀ t : Bool, t = side ∨ t = !side := by
    intro t
    cases t <;> cases side <;> simp
  refine ⟨fun t => ?_, fun t => ?_, fun t => ?_⟩
  · rcases hcases t with rfl | rfl
    · rw [hself, hhash, h.infoHash]
    · rw [hother, h.infoHash]
  · rcases hcases t with rfl | rfl
    · rw [hself, hid, h.peerId]
    · rw [hother, h.peerId]
  · rcases hcases t with rfl | rfl
    · rw [hself, hother]
      exact hin
    · rw [Bool.not_not, hself, hother]
      exact hout

/-- An end that goes, for a reason the other direction accounts for. -/
theorem Inv.leave (h : s.Inv infoHash peerId) {phase : EndpointPhase}
    (hgone : (s.ends side).gone = false) (hphase : ((s.ends side).leave phase).gone = true)
    (hfailed : ∀ err, phase = .failed err →
      (s.ends (!side)).infoHash ≠ (s.ends side).infoHash ∨
        ((s.ends side).leave phase).TimedOut ∨ (s.ends (!side)).Quit) :
    (s.setEnd side ((s.ends side).leave phase)).Inv infoHash peerId := by
  refine h.of_end rfl rfl rfl ?_ ?_
  · exact (h.directed side).receiverLeaves hphase hfailed
  · have hout := h.directed (!side)
    rw [Bool.not_not] at hout
    exact hout.senderLeaves hgone hphase

/-- The end of the other stream is only read when the other end has quit, or the two
were of different torrents. -/
theorem Inv.peer_gone (h : s.Inv infoHash peerId) (hgone : (s.ends (!side)).gone = true)
    (hlive : (s.ends side).gone = false) :
    (s.ends (!side)).infoHash ≠ (s.ends side).infoHash ∨ (s.ends (!side)).Quit := by
  cases hph : (s.ends (!side)).phase with
  | closed => exact .inr (.inl hph)
  | failed err =>
    have hout := (h.directed (!side)).failed err hph
    rw [Bool.not_not] at hout
    rcases hout with hne | htimed | hquit
    · exact .inl hne.symm
    · exact .inr (.inr htimed)
    · cases hquit.gone.symm.trans hlive
  | _ =>
    rw [Endpoint.gone, hph] at hgone
    cases hgone

/-- Every action keeps the invariant. -/
theorem Inv.step (h : s.Inv infoHash peerId) {a : Action}
    (hfits : ∀ m, a = .send m → m.body.length ≤ maxMessageLen)
    (hstep : s.step side a = some s') : s'.Inv infoHash peerId := by
  have hin := h.directed side
  have hout := h.directed (!side)
  rw [Bool.not_not] at hout
  have hne : (!side) ≠ side := by simp
  unfold Connection.step at hstep
  simp only at hstep
  split at hstep
  case h_1 hph =>
    obtain rfl := Option.some.inj hstep
    exact h.of_end rfl rfl rfl (hin.receiverWrites hph) (hout.senderWrites hph)
  case h_2 _ _ n =>
    split at hstep
    · obtain rfl := Option.some.inj hstep
      refine h.of_end rfl rfl rfl ?_ ?_
      · rw [wire_setWire_of_ne hne.symm]
        exact hin.sameReceiver rfl rfl rfl rfl
      · rw [wire_setWire_self]
        exact hout.senderFlushes n
    · cases hstep
  case h_3 n buf hph =>
    split at hstep
    · obtain rfl := Option.some.inj hstep
      refine h.of_end rfl rfl rfl ?_ ?_
      · rw [wire_setWire_self]
        exact hin.readsHandshake hph n
      · rw [wire_setWire_of_ne hne]
        exact hout.sameSender rfl rfl rfl rfl (by simp [hph]) (by simp)
          (by simp [Endpoint.gone, hph]) rfl
    · cases hstep
  case h_4 n remote buf hph =>
    split at hstep
    · obtain rfl := Option.some.inj hstep
      refine h.of_end rfl rfl rfl ?_ ?_
      · rw [wire_setWire_self]
        exact hin.readsFrames hph n
      · rw [wire_setWire_of_ne hne]
        exact hout.sameSender rfl rfl rfl rfl (by simp [hph]) (by simp)
          (by simp [Endpoint.gone, hph]) rfl
    · cases hstep
  case h_5 buf hph =>
    split at hstep
    · rename_i hlen
      obtain ⟨hok, herror⟩ := hin.checks hph hlen
      split at hstep
      · rename_i remote hcheck
        obtain rfl := Option.some.inj hstep
        refine h.of_end rfl rfl rfl (hok remote hcheck) ?_
        exact hout.sameSender rfl rfl rfl rfl (by simp [hph]) (by simp)
          (by simp [Endpoint.gone, hph]) rfl
      · rename_i err hcheck
        obtain rfl := Option.some.inj hstep
        exact h.leave (by simp [Endpoint.gone, hph]) rfl
          fun _ _ => .inl (herror err hcheck)
    · cases hstep
  case h_6 m remote buf hph =>
    obtain rfl := Option.some.inj hstep
    refine h.of_end rfl rfl rfl (hin.sameReceiver rfl rfl rfl rfl) ?_
    exact hout.senderSends hph (hfits m rfl)
  case h_7 remote buf hph =>
    obtain ⟨e, hnext, rfl⟩ := Option.map_eq_some_iff.mp hstep
    obtain ⟨hin', hhash, hid, hoeq, hsent, rest, hph'⟩ := hin.receives hph hnext
    refine h.of_end rfl hhash hid hin' ?_
    exact hout.sameSender hhash hid hsent hoeq (by simp [hph]) (by simp [hph'])
      (by simp [Endpoint.gone, hph]) (by simp [Endpoint.gone, hph'])
  case h_8 hph =>
    obtain rfl := Option.some.inj hstep
    exact h.leave (by simp [Endpoint.gone, hph]) rfl fun _ _ => .inr (.inl (.inl rfl))
  case h_9 hph =>
    obtain rfl := Option.some.inj hstep
    exact h.leave (by simp [Endpoint.gone, hph]) rfl fun _ _ => .inr (.inl (.inr rfl))
  case h_10 buf hph =>
    obtain rfl := Option.some.inj hstep
    exact h.leave (by simp [Endpoint.gone, hph]) rfl fun _ _ => .inr (.inl (.inr rfl))
  case h_11 phase =>
    split at hstep
    · cases hstep
    · rename_i hlive
      obtain rfl := Option.some.inj hstep
      exact h.leave (Bool.not_eq_true _ ▸ hlive) rfl fun _ he => by cases he
  case h_12 phase =>
    split at hstep
    · rename_i hgone
      obtain ⟨e, heof, rfl⟩ := Option.map_eq_some_iff.mp hstep
      unfold atEof at heof
      split at heof
      · rename_i buf hph
        have hlive : (s.ends side).gone = false := by simp [Endpoint.gone, hph]
        split at heof
        · obtain rfl := Option.some.inj heof
          exact h.leave hlive rfl fun _ _ => (h.peer_gone hgone.1 hlive).imp_right .inr
        · cases heof
      · rename_i remote buf hph
        have hlive : (s.ends side).gone = false := by simp [Endpoint.gone, hph]
        split at heof
        · split at heof
          · obtain rfl := Option.some.inj heof
            exact h.leave hlive rfl fun _ he => by cases he
          · obtain rfl := Option.some.inj heof
            exact h.leave hlive rfl fun _ _ => (h.peer_gone hgone.1 hlive).imp_right .inr
        · cases heof
      · cases heof
    · cases hstep
  case h_13 => cases hstep

theorem inv_init {addr : Bool → String} :
    (system addr infoHash peerId).init.Inv infoHash peerId where
  infoHash _ := rfl
  peerId _ := rfl
  directed side := by
    refine ⟨fun m hm => (by cases hm), fun _ => ⟨rfl, rfl⟩, fun hg => (by cases hg),
      ⟨_, fun _ => rfl, fun _ => .inl rfl, rfl, ?_⟩, fun e he => (by cases he)⟩
    rfl

end Steps

end Connection

end Torrentina.Peer
