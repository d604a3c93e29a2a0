import Torrentina.Download.Coordinator

/-!
# No idle session with useful work

Idle sessions are not woken when another session releases a piece. They need
not be: a session only reaches its `select!` without a piece after the endgame
reservation found nothing its peer has and the client lacks, verified pieces
stay verified, and only the session's own messages change what its peer has.
-/

namespace Torrentina.Download

open Torrentina.Core

/-- Past the reservation of its iteration, an unchoked session without a piece
wants nothing its peer has. The `select!` is reached from the running branch
only. -/
def Session.Served (c : Shared) (p : Session) : Prop :=
  p.phase = .refilling ∨ p.phase = .selecting → p.choked = false → p.current = none →
    ∀ i, p.peerHas.has i = true → c.tracker.has i = true

theorem Session.Served.extends {c c' : Shared} {p : Session} (h : p.Served c)
    (hx : c.Extends c') : p.Served c' := by
  intro hphase hch hcur i hi
  exact hx.has i (h hphase hch hcur i hi)

/-- When the endgame finds nothing, every piece of the peer is had. -/
theorem Session.Sound.served_of_idle {sha1 : List UInt8 → List UInt8} {c : Shared} {p : Session}
    (hc : c.Sound sha1) (hp : p.Sound sha1 c)
    (he : c.tracker.rarestNeeded p.peerHas false = none) {i : Nat}
    (hi : p.peerHas.has i = true) : c.tracker.has i = true := by
  have hlt := Bitfield.lt_of_has hi
  rw [hp.peerHas] at hlt
  have hnot := PieceTracker.rarestNeeded_eq_none_iff.mp he i
    (Nat.lt_of_lt_of_le hlt hc.numPieces_le)
  by_contra hn
  exact hnot ⟨Bool.not_eq_true _ ▸ hn, hi, fun h => by cases h⟩

/-- A session's own step keeps it served. -/
theorem Session.Step.served {sha1 : List UInt8 → List UInt8} {c c' : Shared} {p p' : Session}
    {e : SessionEvent} (hc : c.Sound sha1) (hp : p.Sound sha1 c) (hs : p.Served c)
    (h : Step sha1 c p e c' p') : p'.Served c' := by
  intro hphase hch hcur i hi
  cases h with
  | busy hph hb =>
    rcases hb with hb | hb
    · exact absurd hcur hb
    · rw [hb] at hch
      cases hch
  | idle hph hn hchoked he => exact hp.served_of_idle hc he hi
  | reserved => cases hcur
  | endgame => cases hcur
  | requested block hph => exact hs (.inl hph) hch hcur i hi
  | refilled hph => exact hs (.inl hph) hch hcur i hi
  | pieceAlreadyHad =>
    rcases hphase with h | h <;> rcases ite_phase_cases h with h | ⟨h, -⟩ <;> cases h
  | emitted =>
    rcases hphase with h | h <;> rcases ite_phase_cases h with h | ⟨h, -⟩ <;> cases h
  | _ => rcases hphase with h | h <;> cases h

/-- Being served is an invariant of the pool. -/
theorem served_inductive {sha1 : List UInt8 → List UInt8} :
    (swarm sha1).Inductive (Shared.Sound sha1) fun c p => p.Sound sha1 c ∧ p.Served c where
  spawn c addr c' p hc h := by
    obtain ⟨hc', hp, hx⟩ := hc.spawn h
    refine ⟨hc', ⟨hp, ?_⟩, fun q hq => ⟨hq.1.extends hx, hq.2.extends hx⟩⟩
    obtain ⟨-, rfl⟩ := swarm_spawn h
    intro hphase
    rcases hphase with h | h <;> cases h
  step c p e c' p' hc hp h := by
    have hs := Session.step_cases h
    have hx := hs.extends
    exact ⟨hs.sound_shared hc hp.1, ⟨hs.sound hc hp.1, hs.served hc hp.1 hp.2⟩,
      fun q hq => ⟨hq.1.extends hx, hq.2.extends hx⟩⟩
  env c e c' hc h := by
    obtain ⟨hc', hx⟩ := hc.env h
    exact ⟨hc', fun q hq => ⟨hq.1.extends hx, hq.2.extends hx⟩⟩

/-- In every reachable state, an unchoked session that waits at its `select!`
without a piece has no piece its peer advertises and the client lacks. -/
theorem waiting_session_wants_nothing {sha1 : List UInt8 → List UInt8} {info : Info}
    {infoHash peerId : List UInt8} {c : Coordinator}
    (h : Coordinator.new info infoHash peerId = .ok c) {s : Swarm}
    (hr : (c.system sha1).Reachable s) {p : Session} (hp : p ∈ s.procs)
    (hphase : p.phase = .selecting) (hch : p.choked = false) (hcur : p.current = none) :
    ¬∃ i, p.peerHas.has i = true ∧ s.shared.tracker.has i = false := by
  rintro ⟨i, hi, hn⟩
  have hall := (served_inductive.reachable (Coordinator.start_sound sha1 h) hr).2
  have hhas := (hall p hp).2 (.inr hphase) hch hcur i hi
  rw [hn] at hhas
  cases hhas

/-- The first peer has both pieces, delivers the first and is asked for the second; the second
peer has the first piece only and unchokes. -/
def firstDelivered : Trace :=
  List.flatten [Trace.join 0, Trace.deliver 0 (.bitfield [0xC0]), Trace.take 0,
    [.proc 0 (.recv (.ok (some (.piece ⟨0, 0, [0x61]⟩)))), .proc 0 .emit, .proc 0 .poll,
      .proc 0 .proceed, .proc 0 (.request (.ok ())), .proc 0 .refilled],
    Trace.join 1, Trace.deliver 1 (.bitfield [0x80]), Trace.deliver 1 .unchoke]

/-- The second session waits without a piece although the download is not over: the one
piece of its peer was delivered by the first session. -/
theorem waiting_session_wants_nothing_twoPieces :
    ∃ s p, (twoPieces.system sha1OfA).Reachable s ∧ p ∈ s.procs ∧ p.phase = .selecting ∧
      p.choked = false ∧ p.current = none ∧ p.peerHas.has 0 = true ∧
      s.shared.tracker.has 0 = true ∧ s.shared.tracker.has 1 = false ∧
      ¬∃ i, p.peerHas.has i = true ∧ s.shared.tracker.has i = false := by
  obtain ⟨s, hr, ⟨p, hp, hphase, hch, hcur, hadv⟩, hhas, hlacks⟩ :=
    System.History.exists_of_exec (twoPieces.system sha1OfA)
      (P := fun s => (∃ p ∈ s.procs[1]?, (p.phase matches .selecting) ∧ p.choked = false ∧
          p.current = none ∧ p.peerHas.has 0 = true) ∧
        s.shared.tracker.has 0 = true ∧ s.shared.tracker.has 1 = false)
      firstDelivered (by decide +kernel)
  have hmem : p ∈ s.procs := List.mem_of_getElem? hp
  have hsel : p.phase = .selecting := by
    split at hphase
    · assumption
    · cases hphase
  exact ⟨s, p, ⟨_, hr⟩, hmem, hsel, hch, hcur, hadv, hhas, hlacks,
    waiting_session_wants_nothing twoPieces_new ⟨_, hr⟩ hmem hsel hch hcur⟩

end Torrentina.Download
