import Torrentina.Core.Pool
import Torrentina.Download.SessionStep

/-!
# A coordinator run as a transition system

A run is a pool of sessions over the coordinator and the output channel. Every
interleaving of the sessions' steps is a run, together with control commands at
any time and a consumer that takes pieces from the channel or goes away.

This module states once what is true of every reachable state whatever the
peers do: the sizes that were checked at construction, the validity of every
verified piece, and that completion is only ever announced when it is true.
-/

namespace Torrentina.Download

open Torrentina.Core Peer

/-- What happens around the sessions. -/
inductive RunEvent
  | pause
  | resume
  | cancel
  | dropCoordinator
  | receive
  | dropReceiver

/-- Send a command on the control channel, while the coordinator is alive. -/
def Shared.command (c : Shared) (state : ControlState) : Option Shared :=
  if c.control.senderAlive then some { c with control := c.control.send state } else none

/-- `Coordinator::run`, `pause`, `resume` and `cancel`, and the consumer of `completed`. -/
def swarm (sha1 : List UInt8 → List UInt8) :
    PoolProgram Shared Session SocketAddr SessionEvent RunEvent where
  spawn c addr :=
    if c.control.senderAlive then
      some ({ c with control := c.control.subscribe, done := c.done.subscribe },
        Session.new c addr)
    else none
  step := Session.step sha1
  env c
    | .pause => c.command .paused
    | .resume => c.command .running
    | .cancel => c.command .cancelled
    | .dropCoordinator => some { c with control := c.control.close }
    | .receive => c.completed.recv.map fun completed => { c with completed }
    | .dropReceiver => some { c with completed := c.completed.close }

/-- A coordinator with a fresh output channel. -/
def Coordinator.start (c : Coordinator) : Shared := { c with completed := Queue.channel }

/-- A state of a run. -/
abbrev Swarm := Pool Shared Session

/-- An event of a run. -/
abbrev SwarmEvent := PoolEvent SocketAddr SessionEvent RunEvent

/-- The events of a run. -/
abbrev Trace := List SwarmEvent

/-- What a run records. -/
abbrev Run := List (Transition Swarm SwarmEvent)

/-- All runs of a coordinator. -/
def Coordinator.system (sha1 : List UInt8 → List UInt8) (c : Coordinator) :
    System Swarm SwarmEvent :=
  (swarm sha1).system c.start

/-! ## The shared state after a release and at the end of a task -/

namespace Shared

variable (c : Shared) (current : Option PieceAssembler) (i : Nat)

@[simp] theorem geometry_release : (c.release current).geometry = c.geometry := by
  cases current <;> rfl

@[simp] theorem control_release : (c.release current).control = c.control := by
  cases current <;> rfl

@[simp] theorem done_release : (c.release current).done = c.done := by
  cases current <;> rfl

@[simp] theorem completed_release : (c.release current).completed = c.completed := by
  cases current <;> rfl

@[simp] theorem pieceHashes_release :
    (c.release current).tracker.pieceHashes = c.tracker.pieceHashes := by
  cases current <;> rfl

@[simp] theorem has_release : (c.release current).tracker.has i = c.tracker.has i := by
  cases current <;> rfl

@[simp] theorem isComplete_release :
    (c.release current).tracker.isComplete = c.tracker.isComplete := by
  cases current <;> rfl

@[simp] theorem avail_release : (c.release current).tracker.avail i = c.tracker.avail i := by
  cases current <;> rfl

@[simp] theorem isClaimed_release : (c.release current).tracker.isClaimed i =
    if current.map PieceAssembler.index = some i then false else c.tracker.isClaimed i := by
  cases current with
  | none => simp [release]
  | some asm => simp [release, eq_comm]

@[simp] theorem tracker_dropReceivers : c.dropReceivers.tracker = c.tracker := rfl

@[simp] theorem geometry_dropReceivers : c.dropReceivers.geometry = c.geometry := rfl

@[simp] theorem completed_dropReceivers : c.dropReceivers.completed = c.completed := rfl

end Shared

namespace Session

@[simp] theorem current_dropCurrent (p : Session) : p.dropCurrent.current = none := by
  unfold dropCurrent
  cases h : p.current with
  | none => exact h
  | some asm => rfl

@[simp] theorem peerHas_dropCurrent (p : Session) : p.dropCurrent.peerHas = p.peerHas := by
  unfold dropCurrent
  cases p.current <;> rfl

@[simp] theorem choked_dropCurrent (p : Session) : p.dropCurrent.choked = p.choked := by
  unfold dropCurrent
  cases p.current <;> rfl

@[simp] theorem doneSeen_dropCurrent (p : Session) : p.dropCurrent.doneSeen = p.doneSeen := by
  unfold dropCurrent
  cases p.current <;> rfl

@[simp] theorem exclusive_dropCurrent (p : Session) :
    p.dropCurrent.exclusive = p.exclusive := by
  unfold dropCurrent
  cases p.current <;> rfl

end Session

/-! ## What no step changes, and what only grows -/

/-- The sizes and hashes are those of the torrent, verified pieces stay
verified, and the completion signal only moves forward. -/
structure Shared.Extends (c c' : Shared) : Prop where
  geometry : c'.geometry = c.geometry
  pieceHashes : c'.tracker.pieceHashes = c.tracker.pieceHashes
  has : ∀ i, c.tracker.has i = true → c'.tracker.has i = true
  done : c.done.version ≤ c'.done.version

namespace Shared.Extends

/-- A coordinator extends itself. -/
theorem refl (c : Shared) : c.Extends c := ⟨rfl, rfl, fun _ h => h, Nat.le_refl _⟩

/-- What extends an extension extends the original. -/
theorem trans {a b c : Shared} (h : a.Extends b) (h' : b.Extends c) : a.Extends c where
  geometry := by rw [h'.geometry, h.geometry]
  pieceHashes := by rw [h'.pieceHashes, h.pieceHashes]
  has i hi := h'.has i (h.has i hi)
  done := Nat.le_trans h.done h'.done

/-- A complete torrent stays complete. -/
theorem isComplete {c c' : Shared} (h : c.Extends c') (hc : c.tracker.isComplete = true) :
    c'.tracker.isComplete = true := by
  rw [PieceTracker.isComplete_iff] at hc ⊢
  intro i hi
  rw [PieceTracker.numPieces, h.pieceHashes] at hi
  exact h.has i (hc i hi)

end Shared.Extends

/-- Sending never takes a watch channel back. -/
theorem version_le_send {α : Type} (w : Watch α) (a : α) : w.version ≤ (w.send a).version := by
  unfold Watch.send
  split
  · exact Nat.le_refl _
  · exact Nat.le_succ _

/-- Every step of a session extends the coordinator. -/
theorem Session.Step.extends {sha1 : List UInt8 → List UInt8} {c c' : Shared} {p p' : Session}
    {e : SessionEvent} (h : Step sha1 c p e c' p') : c.Extends c' := by
  cases h with
  | signalled => exact ⟨rfl, rfl, fun _ h => h, version_le_send _ _⟩
  | pieceVerified block asm =>
    refine ⟨rfl, rfl, fun i h => ?_, Nat.le_refl _⟩
    simp only [PieceTracker.has_markHave, h, Bool.true_or]
  | _ => constructor <;> simp [Shared.dropReceivers, Watch.unsubscribe]

/-- A spawned session listens to both watch channels. -/
theorem swarm_spawn {sha1 : List UInt8 → List UInt8} {c c' : Shared} {addr : SocketAddr}
    {p : Session} (h : (swarm sha1).spawn c addr = some (c', p)) :
    c' = { c with control := c.control.subscribe, done := c.done.subscribe } ∧
      p = Session.new c addr := by
  simp only [swarm] at h
  split at h
  · cases h
    exact ⟨rfl, rfl⟩
  · cases h

/-- Around the sessions only the control channel and the consumer's end move. -/
theorem swarm_env {sha1 : List UInt8 → List UInt8} {c c' : Shared} {e : RunEvent}
    (h : (swarm sha1).env c e = some c') :
    ∃ control completed, c' = { c with control, completed } ∧
      completed.sent = c.completed.sent ∧
      (completed.receiverAlive = true → c.completed.receiverAlive = true) := by
  have hcommand : ∀ state, c.command state = some c' →
      ∃ control, c' = { c with control } := by
    intro state h
    unfold Shared.command at h
    split at h
    · cases h
      exact ⟨_, rfl⟩
    · cases h
  cases e with
  | pause =>
    obtain ⟨control, rfl⟩ := hcommand _ h
    exact ⟨control, c.completed, rfl, rfl, id⟩
  | resume =>
    obtain ⟨control, rfl⟩ := hcommand _ h
    exact ⟨control, c.completed, rfl, rfl, id⟩
  | cancel =>
    obtain ⟨control, rfl⟩ := hcommand _ h
    exact ⟨control, c.completed, rfl, rfl, id⟩
  | dropCoordinator =>
    cases h
    exact ⟨_, c.completed, rfl, rfl, id⟩
  | receive =>
    obtain ⟨completed, hr, rfl⟩ := Option.map_eq_some_iff.mp h
    obtain ⟨hs, ha⟩ := Queue.recv_eq_some hr
    exact ⟨c.control, completed, rfl, hs, fun h => ha ▸ h⟩
  | dropReceiver =>
    cases h
    exact ⟨c.control, _, rfl, rfl, fun h => by cases h⟩

/-- Every step of a run extends the shared state. -/
theorem swarm_extends {sha1 : List UInt8 → List UInt8} {s s' : Swarm}
    {e : SwarmEvent} (h : (swarm sha1).poolStep s e = some s') :
    s.shared.Extends s'.shared := by
  cases e with
  | spawn addr =>
    obtain ⟨c', p, hs, rfl⟩ := PoolProgram.poolStep_spawn h
    obtain ⟨rfl, -⟩ := swarm_spawn hs
    exact ⟨rfl, rfl, fun _ h => h, Nat.le_refl _⟩
  | proc k ev =>
    obtain ⟨p, c', p', -, hs, rfl⟩ := PoolProgram.poolStep_proc h
    exact (Session.step_cases hs).extends
  | env ev =>
    obtain ⟨c', hs, rfl⟩ := PoolProgram.poolStep_env h
    obtain ⟨control, completed, rfl, -⟩ := swarm_env hs
    exact ⟨rfl, rfl, fun _ h => h, Nat.le_refl _⟩

/-- Every reachable state extends the fresh coordinator. -/
theorem Coordinator.extends_start {sha1 : List UInt8 → List UInt8} {c : Coordinator} {s : Swarm}
    (hr : (c.system sha1).Reachable s) : c.start.Extends s.shared :=
  hr.invariant (P := fun s => c.start.Extends s.shared) (Shared.Extends.refl _)
    fun _ _ _ _ hx hstep => hx.trans (swarm_extends hstep)

/-! ## The invariant of every run -/

/-- A piece of the torrent: in range, of the piece's length, and with its hash. -/
structure VerifiedPiece.Valid (sha1 : List UInt8 → List UInt8) (g : Geometry)
    (hashes : List (List UInt8)) (piece : VerifiedPiece) : Prop where
  index_lt : piece.index < g.numPieces
  length_data : piece.data.length = g.pieceLengthOf piece.index
  hash : hashes[piece.index]? = some (sha1 piece.data)

/-- What every reachable coordinator satisfies. -/
structure Shared.Sound (sha1 : List UInt8 → List UInt8) (c : Shared) : Prop where
  wellFormed : c.geometry.WellFormed
  numPieces_le : c.geometry.numPieces ≤ c.tracker.numPieces
  sent : ∀ piece ∈ c.completed.sent, piece.Valid sha1 c.geometry c.tracker.pieceHashes
  not_claimed : ∀ i, c.tracker.has i = true → c.tracker.isClaimed i = false
  done_sender : c.done.senderAlive = true
  done_complete : 0 < c.done.version → c.tracker.isComplete = true

/-- What every session of a reachable state satisfies. -/
structure Session.Sound (sha1 : List UInt8 → List UInt8) (c : Shared) (p : Session) : Prop where
  peerHas : p.peerHas.numPieces = c.geometry.numPieces
  current : ∀ asm, p.current = some asm → asm.index < c.geometry.numPieces ∧
    asm.length = c.geometry.pieceLengthOf asm.index
  emptyHanded : p.phase.emptyHanded = true → p.current = none
  sending : ∀ piece complete, p.phase = .sending piece complete →
    piece.Valid sha1 c.geometry c.tracker.pieceHashes ∧
      (complete = true → c.tracker.isComplete = true)
  signalling : p.phase = .signalling → c.tracker.isComplete = true
  doneSeen : p.doneSeen ≤ c.done.version

section Invariant

variable {sha1 : List UInt8 → List UInt8} {c c' : Shared} {p p' : Session} {e : SessionEvent}

/-- A valid piece stays valid. -/
theorem Shared.Extends.valid (h : c.Extends c') {piece : VerifiedPiece}
    (hv : piece.Valid sha1 c.geometry c.tracker.pieceHashes) :
    piece.Valid sha1 c'.geometry c'.tracker.pieceHashes := by
  rw [h.geometry, h.pieceHashes]
  exact hv

/-- What another session's step does keeps a session sound. -/
theorem Session.Sound.extends (hp : p.Sound sha1 c) (h : c.Extends c') : p.Sound sha1 c' where
  peerHas := by rw [h.geometry, hp.peerHas]
  current := by
    rw [h.geometry]
    exact hp.current
  emptyHanded := hp.emptyHanded
  sending piece complete hs :=
    ⟨h.valid (hp.sending piece complete hs).1,
      fun hc => h.isComplete ((hp.sending piece complete hs).2 hc)⟩
  signalling hs := h.isComplete (hp.signalling hs)
  doneSeen := Nat.le_trans hp.doneSeen h.done

/-- The channel only grows by the piece a session is sending. -/
theorem Session.Step.completed (h : Step sha1 c p e c' p') :
    c'.completed = c.completed ∨
      ∃ piece complete, e = .emit ∧ p.phase = .sending piece complete ∧
        c'.completed = c.completed.send piece := by
  cases h with
  | emitted piece complete hp => exact .inr ⟨piece, complete, rfl, hp, rfl⟩
  | _ => left; simp

/-- The set of verified pieces only grows by the verified piece of one session. -/
theorem Session.Step.has_cases (h : Step sha1 c p e c' p') :
    (∀ i, c'.tracker.has i = c.tracker.has i) ∨
      ∃ block data complete asm, e = .recv (.ok (some (.piece block))) ∧
        p.phase = .selecting ∧ p.current = some asm ∧ data.length = asm.length ∧
        c.tracker.has asm.index = false ∧ c.tracker.verify sha1 asm.index data = true ∧
        c'.tracker = c.tracker.markHave asm.index ∧ c'.completed = c.completed ∧
        complete = c'.tracker.isComplete ∧
        p'.phase = .sending ⟨asm.index, data⟩ complete := by
  cases h with
  | pieceVerified block asm asm' hp hc hi ha hd hh hv =>
    have hl := (PieceAssembler.addBlock_frame ha).2
    exact .inr ⟨block, _, _, asm, rfl, hp, hc, by rw [asm'.length_intoBytes, hl], hh, hv, rfl, rfl,
      rfl, rfl⟩
  | _ => left; intro i; simp

/-- Data that verify have the expected hash. -/
theorem PieceTracker.verify_eq_true {t : PieceTracker} {i : Nat} {data : List UInt8}
    (h : t.verify sha1 i data = true) : t.pieceHashes[i]? = some (sha1 data) := by
  unfold verify at h
  split at h
  · rename_i expected he
    rw [he, eq_of_beq h]
  · cases h

/-- The completion signal only moves when a session that saw completion sends it. -/
theorem Session.Step.done_cases (h : Step sha1 c p e c' p') :
    (c'.done.version = c.done.version ∧ c'.done.senderAlive = c.done.senderAlive) ∨
      p.phase = .signalling ∧ c'.done = c.done.send true := by
  cases h with
  | signalled hp => exact .inr ⟨hp, rfl⟩
  | _ => left; simp [Shared.dropReceivers, Watch.unsubscribe]

/-- A complete torrent has no claim left. -/
theorem Shared.Sound.not_claimed_of_complete (hc : c.Sound sha1)
    (hd : c.tracker.isComplete = true) (i : Nat) : c.tracker.isClaimed i = false := by
  by_contra hi
  have hcl := Bool.not_eq_false _ ▸ hi
  have hhas := (PieceTracker.isComplete_iff _).mp hd i (PieceTracker.lt_of_isClaimed hcl)
  exact hi (hc.not_claimed i hhas)

/-- A reservation never claims a piece that is had. -/
theorem Session.Step.not_claimed (hc : c.Sound sha1) (hp : p.Sound sha1 c)
    (h : Step sha1 c p e c' p') {i : Nat} (hi : c'.tracker.has i = true) :
    c'.tracker.isClaimed i = false := by
  have hn := hc.not_claimed i
  cases h with
  | reserved index hph hcur hch hr =>
    have hlt := hc.wellFormed.numPieces_lt
    obtain ⟨-, hnot, -⟩ := PieceTracker.rarestNeeded_eligible (by rw [hp.peerHas]; omega) hr
    simp only [PieceTracker.has_claim] at hi
    have hne : i ≠ index := by
      intro he
      rw [he, hnot] at hi
      cases hi
    simpa [hne] using hn hi
  | pieceVerified block asm asm' =>
    simp only [PieceTracker.has_markHave, Bool.or_eq_true, decide_eq_true_eq] at hi
    simp only [PieceTracker.isClaimed_markHave]
    split
    · rfl
    · rename_i hne
      rcases hi with hi | ⟨he, -⟩
      · exact hn hi
      · exact absurd he hne
  | _ => simp_all

/-- A step keeps the shared state sound. -/
theorem Session.Step.sound_shared (hc : c.Sound sha1) (hp : p.Sound sha1 c)
    (h : Step sha1 c p e c' p') : c'.Sound sha1 := by
  have hx := h.extends
  refine ⟨?_, ?_, ?_, fun i hi => h.not_claimed hc hp hi, ?_, ?_⟩
  · rw [hx.geometry]
    exact hc.wellFormed
  · rw [hx.geometry, PieceTracker.numPieces, hx.pieceHashes]
    exact hc.numPieces_le
  · intro piece hm
    apply hx.valid
    rcases h.completed with he | ⟨piece', complete, -, hs, he⟩
    · rw [he] at hm
      exact hc.sent piece hm
    · rw [he, Queue.sent_send] at hm
      split at hm
      · rcases List.mem_append.mp hm with hm | hm
        · exact hc.sent piece hm
        · obtain rfl := List.mem_singleton.mp hm
          exact (hp.sending piece complete hs).1
      · exact hc.sent piece hm
  · rcases h.done_cases with ⟨-, hs⟩ | ⟨-, hd⟩
    · rw [hs, hc.done_sender]
    · rw [hd]
      unfold Watch.send
      split <;> exact hc.done_sender
  · intro hv
    apply hx.isComplete
    rcases h.done_cases with ⟨hs, -⟩ | ⟨hs, -⟩
    · exact hc.done_complete (hs ▸ hv)
    · exact hp.signalling hs

/-- A reserved piece is one of the torrent's. -/
theorem Session.Sound.assign (hc : c.Sound sha1) (hp : p.Sound sha1 c) {index : Nat}
    {skip exclusive : Bool} (hr : c.tracker.rarestNeeded p.peerHas skip = some index) :
    ∀ asm, (p.assign c.geometry index exclusive).current = some asm →
      asm.index < c.geometry.numPieces ∧ asm.length = c.geometry.pieceLengthOf asm.index := by
  intro asm hasm
  obtain rfl := (Option.some.inj hasm).symm
  have hlt := hc.wellFormed.numPieces_lt
  obtain ⟨-, -, hh, -⟩ := PieceTracker.rarestNeeded_eligible (by rw [hp.peerHas]; omega) hr
  have hidx := Bitfield.lt_of_has hh
  rw [hp.peerHas] at hidx
  exact ⟨hidx, rfl⟩

/-- A step keeps its session's piece inside the torrent. -/
theorem Session.Step.current_sound (hc : c.Sound sha1) (hp : p.Sound sha1 c)
    (h : Step sha1 c p e c' p') : ∀ asm, p'.current = some asm →
      asm.index < c.geometry.numPieces ∧ asm.length = c.geometry.pieceLengthOf asm.index := by
  have hcur := hp.current
  cases h with
  | reserved index hph hn hch hr => exact hp.assign hc hr
  | endgame index hph hn hch hr hd he => exact hp.assign hc he
  | blockAdded block asm asm' hph hca hi ha =>
    obtain ⟨hidx, hlen⟩ := PieceAssembler.addBlock_frame ha
    intro asm'' he
    obtain rfl := Option.some.inj he
    rw [hidx, hlen]
    exact hcur asm hca
  | _ => simp_all

/-- After a piece is sent the session goes on, or signals that the torrent is complete. -/
theorem ite_phase_cases {b : Bool} {phase : Phase}
    (h : (if b = true then Phase.signalling else Phase.top) = phase) :
    phase = .top ∨ phase = .signalling ∧ b = true := by
  split at h
  · rename_i hb
    exact .inr ⟨h.symm, hb⟩
  · exact .inl h.symm

/-- A session starts sending only where it marked the piece. -/
theorem Session.Step.sending_cases (h : Step sha1 c p e c' p') {piece : VerifiedPiece}
    {complete : Bool} (hs : p'.phase = .sending piece complete) :
    ∃ block asm, e = .recv (.ok (some (.piece block))) ∧ p.phase = .selecting ∧
      p.current = some asm ∧ piece.index = asm.index ∧ piece.data.length = asm.length ∧
      c.tracker.has asm.index = false ∧ c.tracker.verify sha1 asm.index piece.data = true ∧
      c'.tracker = c.tracker.markHave asm.index ∧ complete = c'.tracker.isComplete := by
  cases h with
  | pieceVerified block asm asm' hp hc hi ha hd hh hv =>
    obtain ⟨rfl, rfl⟩ := Phase.sending.inj hs
    have hl := (PieceAssembler.addBlock_frame ha).2
    exact ⟨block, asm, rfl, hp, hc, rfl, asm'.length_intoBytes.trans hl, hh, hv, rfl, rfl⟩
  | pieceAlreadyHad => rcases ite_phase_cases hs with h | ⟨h, -⟩ <;> cases h
  | emitted => rcases ite_phase_cases hs with h | ⟨h, -⟩ <;> cases h
  | requested block hp =>
    simp only [hp] at hs
    cases hs
  | _ => cases hs

/-- A session signals only a complete torrent. -/
theorem Session.Step.signalling_complete (hp : p.Sound sha1 c) (h : Step sha1 c p e c' p')
    (hs : p'.phase = .signalling) : c'.tracker.isComplete = true := by
  cases h with
  | torrentDone hph hn hch hr hd => exact hd
  | pieceAlreadyHad =>
    rcases ite_phase_cases hs with h | ⟨-, hc⟩
    · cases h
    · exact hc
  | emitted piece complete hph =>
    rcases ite_phase_cases hs with h | ⟨-, hc⟩
    · cases h
    · exact (hp.sending piece complete hph).2 hc
  | requested block hph =>
    simp only [hph] at hs
    cases hs
  | _ => cases hs

/-- A session has no piece in progress where it never has one. -/
theorem Session.Step.emptyHanded (hp : p.Sound sha1 c) (h : Step sha1 c p e c' p')
    (hs : p'.phase.emptyHanded = true) : p'.current = none := by
  have hold := hp.emptyHanded
  cases h with
  | connected hph => exact hold (by rw [hph]; rfl)
  | paused => exact p.current_dropCurrent
  | torrentDone hph hn => exact hn
  | pieceAlreadyHad => rfl
  | pieceVerified => rfl
  | emitted piece complete hph => exact hold (by rw [hph]; rfl)
  | requested block hph =>
    simp only [hph] at hs
    cases hs
  | _ => cases hs

/-- A step keeps its own session sound. -/
theorem Session.Step.sound (hc : c.Sound sha1) (hp : p.Sound sha1 c)
    (h : Step sha1 c p e c' p') : p'.Sound sha1 c' := by
  have hx := h.extends
  refine ⟨?_, ?_, h.emptyHanded hp, ?_, ?_, ?_⟩
  · rw [hx.geometry]
    have hh := hp.peerHas
    cases h with
    | bitfield bits newHas hph hb => exact Bitfield.numPieces_fromBytes hb
    | _ => simpa [Session.assign] using hh
  · rw [hx.geometry]
    exact h.current_sound hc hp
  · intro piece complete hs
    obtain ⟨block, asm, -, -, hcur, hidx, hlen, -, hv, -, hcomp⟩ := h.sending_cases hs
    obtain ⟨hlt, hlen'⟩ := hp.current asm hcur
    refine ⟨hx.valid ⟨?_, ?_, ?_⟩, fun hc => hcomp ▸ hc⟩
    · rwa [hidx]
    · rw [hlen, hlen', hidx]
    · rw [hidx]
      exact PieceTracker.verify_eq_true hv
  · exact h.signalling_complete hp
  · have hd := hp.doneSeen
    refine Nat.le_trans ?_ (Nat.le_trans hd hx.done)
    cases h <;> simp [Session.assign]

/-- What the user and the consumer do keeps the coordinator sound. -/
theorem Shared.Sound.env (hc : c.Sound sha1) {e : RunEvent} (h : (swarm sha1).env c e = some c') :
    c'.Sound sha1 ∧ c.Extends c' := by
  obtain ⟨control, completed, rfl, hs, -⟩ := swarm_env h
  refine ⟨⟨hc.wellFormed, hc.numPieces_le, ?_, hc.not_claimed, hc.done_sender, hc.done_complete⟩,
    rfl, rfl, fun _ h => h, Nat.le_refl _⟩
  intro piece hm
  exact hc.sent piece (hs ▸ hm)

/-- A spawned session is sound. -/
theorem Shared.Sound.spawn (hc : c.Sound sha1) {addr : SocketAddr}
    (h : (swarm sha1).spawn c addr = some (c', p)) :
    c'.Sound sha1 ∧ p.Sound sha1 c' ∧ c.Extends c' := by
  obtain ⟨rfl, rfl⟩ := swarm_spawn h
  refine ⟨⟨hc.wellFormed, hc.numPieces_le, hc.sent, hc.not_claimed, hc.done_sender,
    hc.done_complete⟩, ?_, rfl, rfl, fun _ h => h, Nat.le_refl _⟩
  exact ⟨rfl, fun _ h => (by cases h), fun _ => rfl, fun _ _ h => (by cases h),
    fun h => (by cases h), Nat.le_refl _⟩

/-- Soundness is an invariant of the pool. -/
theorem sound_inductive : (swarm sha1).Inductive (Shared.Sound sha1) (Session.Sound sha1) where
  spawn c addr c' p hc h := by
    obtain ⟨hc', hp, hx⟩ := hc.spawn h
    exact ⟨hc', hp, fun q hq => hq.extends hx⟩
  step c p e c' p' hc hp h := by
    have hs := Session.step_cases h
    exact ⟨hs.sound_shared hc hp, hs.sound hc hp, fun q hq => hq.extends hs.extends⟩
  env c e c' hc h := by
    obtain ⟨hc', hx⟩ := hc.env h
    exact ⟨hc', fun q hq => hq.extends hx⟩

end Invariant

/-! ## Runs of a coordinator built from a metainfo -/

/-- What a coordinator that could be made consists of. -/
theorem Coordinator.new_eq_ok {info : Info} {infoHash peerId : List UInt8} {c : Coordinator}
    (h : Coordinator.new info infoHash peerId = .ok c) :
    Geometry.fromInfo info = .ok c.geometry ∧
      info.pieceHashes = .ok c.tracker.pieceHashes ∧
      c.tracker = PieceTracker.ofHashes c.tracker.pieceHashes ∧ c.done = Watch.channel false ∧
      c.control = Watch.channel .running := by
  obtain ⟨g, hg, h⟩ := bind_eq_ok_iff.mp h
  obtain ⟨t, ht, h⟩ := bind_eq_ok_iff.mp h
  obtain ⟨hashes, hh, ht⟩ := bind_eq_ok_iff.mp ht
  obtain rfl := Except.ok.inj ht
  obtain rfl := Except.ok.inj h
  exact ⟨hg, hh, rfl, rfl, rfl⟩

/-- A geometry and hashes are all it takes to make a coordinator. -/
theorem Coordinator.new_of_ok {info : Info} {g : Geometry} {hashes : List (List UInt8)}
    (hg : Geometry.fromInfo info = .ok g) (hh : info.pieceHashes = .ok hashes)
    (infoHash peerId : List UInt8) :
    Coordinator.new info infoHash peerId = .ok
      { name := info.name, geometry := g, tracker := PieceTracker.ofHashes hashes,
        stats := SwarmStats.new, control := Watch.channel .running, done := Watch.channel false,
        infoHash, peerId, requestTimeout := requestTimeoutSecs } := by
  rw [Coordinator.new, hg, PieceTracker.fromInfo, hh]
  rfl

/-- A fresh coordinator is sound. -/
theorem Coordinator.start_sound (sha1 : List UInt8 → List UInt8) {info : Info}
    {infoHash peerId : List UInt8} {c : Coordinator}
    (h : Coordinator.new info infoHash peerId = .ok c) : c.start.Sound sha1 := by
  obtain ⟨hg, hh, ht, hd, -⟩ := Coordinator.new_eq_ok h
  obtain ⟨-, -, hnum, hwf⟩ := Geometry.fromInfo_eq_ok hg
  refine ⟨hwf, ?_, ?_, ?_, ?_, ?_⟩
  · show c.geometry.numPieces ≤ c.tracker.numPieces
    rw [PieceTracker.numPieces, Info.length_pieceHashes hh, hnum]
    exact Nat.mod_le _ _
  · intro piece hm
    cases hm
  · intro i hi
    change c.tracker.has i = true at hi
    rw [ht] at hi
    exact absurd hi (by simp [PieceTracker.has, PieceTracker.ofHashes])
  · show c.done.senderAlive = true
    rw [hd]
    rfl
  · intro hv
    change 0 < c.done.version at hv
    rw [hd] at hv
    cases hv

/-- Every state of every run of a coordinator is sound. -/
theorem Coordinator.sound {sha1 : List UInt8 → List UInt8} {info : Info}
    {infoHash peerId : List UInt8} {c : Coordinator}
    (h : Coordinator.new info infoHash peerId = .ok c) {s : Swarm}
    (hr : (c.system sha1).Reachable s) :
    s.shared.Sound sha1 ∧ ∀ p ∈ s.procs, p.Sound sha1 s.shared :=
  sound_inductive.reachable (Coordinator.start_sound sha1 h) hr

/-! ## A torrent of one byte

The smallest run there is: one piece, the letter `a`. -/

/-- The SHA-1 digest of the letter `a`. -/
def digestOfA : List UInt8 :=
  [0x86, 0xf7, 0xe4, 0x37, 0xfa, 0xa5, 0xa7, 0xfc, 0xe1, 0x5d, 0x1d, 0xdc, 0xb9, 0xea, 0xea, 0xea,
    0x37, 0x76, 0x67, 0xb8]

/-- SHA-1 on the only content the small torrent has. -/
def sha1OfA (data : List UInt8) : List UInt8 :=
  if data = [0x61] then digestOfA else List.replicate sha1Len 0

def tinyInfo : Info where
  name := "a"
  pieceLength := 1
  pieces := digestOfA
  length := some 1
  files := none

/-- What `Coordinator.new` makes of the one-byte torrent. -/
def tiny : Coordinator where
  name := "a"
  geometry := ⟨1, 1, 1, 1⟩
  tracker := PieceTracker.ofHashes [digestOfA]
  stats := SwarmStats.new
  control := Watch.channel .running
  done := Watch.channel false
  infoHash := []
  peerId := []
  requestTimeout := requestTimeoutSecs

theorem tiny_new : Coordinator.new tinyInfo [] [] = .ok tiny := rfl

/-- Spawn session `k` and bring it to its first `select!`. -/
def Trace.join (k : Nat) : Trace :=
  [.spawn (.v4 0 0), .proc k (.connect (.ok ())), .proc k (.sendInterested (.ok ())),
    .proc k .poll, .proc k .proceed, .proc k .refilled]

/-- Session `k` receives a message and comes back to its `select!` without requesting. -/
def Trace.deliver (k : Nat) (m : Message) : Trace :=
  [.proc k (.recv (.ok (some m))), .proc k .poll, .proc k .proceed, .proc k .refilled]

/-- Session `k`, which holds nothing, is unchoked, takes a piece and requests one block. -/
def Trace.take (k : Nat) : Trace :=
  [.proc k (.recv (.ok (some .unchoke))), .proc k .poll, .proc k .proceed,
    .proc k (.request (.ok ())), .proc k .refilled]

/-- One peer delivers the one-byte torrent. -/
def tinyDownload : Trace :=
  Trace.join 0 ++ Trace.deliver 0 (.have 0) ++ Trace.take 0 ++
    [.proc 0 (.recv (.ok (some (.piece ⟨0, 0, [0x61]⟩)))), .proc 0 .emit, .proc 0 .signal,
      .env .receive]

/-! ## A torrent of three blocks

One piece of which the last block is a single byte. -/

def threeBlocksInfo : Info where
  name := "a"
  pieceLength := 32769
  pieces := digestOfA
  length := some 32769
  files := none

/-- What `Coordinator.new` makes of the torrent of three blocks. -/
def threeBlocks : Coordinator where
  name := "a"
  geometry := ⟨32769, 32769, 1, 32769⟩
  tracker := PieceTracker.ofHashes [digestOfA]
  stats := SwarmStats.new
  control := Watch.channel .running
  done := Watch.channel false
  infoHash := []
  peerId := []
  requestTimeout := requestTimeoutSecs

theorem threeBlocks_new : Coordinator.new threeBlocksInfo [] [] = .ok threeBlocks := rfl

/-- Session `k` takes a piece at the head of its loop and requests `n` blocks of it. -/
def Trace.takeBlocks (k n : Nat) : Trace :=
  [.proc k .poll, .proc k .proceed] ++ List.replicate n (.proc k (.request (.ok ()))) ++
    [.proc k .refilled]

/-- One peer offers the piece, unchokes, and is asked for all three blocks. -/
def threeBlocksAsked : Trace :=
  Trace.join 0 ++ Trace.deliver 0 (.have 0) ++ [.proc 0 (.recv (.ok (some .unchoke)))] ++
    Trace.takeBlocks 0 3

/-! ## A torrent of two pieces

Both are the letter `a`. -/

def twoPiecesInfo : Info where
  name := "b"
  pieceLength := 1
  pieces := digestOfA ++ digestOfA
  length := some 2
  files := none

/-- What `Coordinator.new` makes of the torrent of two pieces. -/
def twoPieces : Coordinator where
  name := "b"
  geometry := ⟨2, 1, 2, 1⟩
  tracker := PieceTracker.ofHashes [digestOfA, digestOfA]
  stats := SwarmStats.new
  control := Watch.channel .running
  done := Watch.channel false
  infoHash := []
  peerId := []
  requestTimeout := requestTimeoutSecs

theorem twoPieces_new : Coordinator.new twoPiecesInfo [] [] = .ok twoPieces := rfl

end Torrentina.Download
