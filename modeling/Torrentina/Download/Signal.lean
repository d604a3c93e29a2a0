import Torrentina.Download.Completion
import Torrentina.Download.Idle
import Torrentina.Download.PieceSet

/-!
# Completion is always signalled

The session that verifies the last piece is on its way to the signal from the
moment the torrent is complete, so a complete torrent is signalled or about to
be. A session without work found the torrent incomplete, so the signal that wakes
it is still to come. Each piece is sent once and each session signals once, so the
steps to the signal are bounded.
-/

namespace Torrentina.Download

open Torrentina.Core Peer

/-- The session is on its way to signal that the torrent is complete. -/
def Session.Reports (p : Session) : Prop :=
  (∃ piece, p.phase = .sending piece true) ∨ p.phase = .signalling

/-- Completion has been signalled, or a session is on its way to do it. -/
def SignalOwed (s : Swarm) : Prop :=
  s.shared.tracker.isComplete = true →
    0 < s.shared.done.version ∨ ∃ (k : Nat) (p : Session), s.procs[k]? = some p ∧ p.Reports

/-- A session that is idle at its `select!` has not seen the signal. -/
def Session.Unsignalled (p : Session) : Prop :=
  p.phase = .refilling ∨ p.phase = .selecting → p.choked = false → p.current = none →
    p.doneSeen = 0

section Step

variable {sha1 : List UInt8 → List UInt8} {c c' : Shared} {p p' : Session} {e : SessionEvent}

/-- Only the session that verifies the last piece completes the torrent. -/
theorem Session.Step.completes (h : Step sha1 c p e c' p') (hdone : c'.tracker.isComplete = true) :
    c.tracker.isComplete = true ∨ p'.Reports := by
  cases h with
  | pieceVerified block asm asm' hph hcur hi ha hd hh hv =>
    refine .inr (.inl ⟨⟨asm.index, asm'.intoBytes⟩, ?_⟩)
    simp only [hdone]
  | _ =>
    left
    simpa using hdone

/-- What is on its way to the signal gets there. -/
theorem Session.Step.reports (h : Step sha1 c p e c' p') (hp : p.Reports) :
    p'.Reports ∨ e = .signal := by
  rcases hp with ⟨piece, hp⟩ | hp
  · cases h with
    | emitted piece' complete hph =>
      obtain ⟨rfl, rfl⟩ := Phase.sending.inj (hph.symm.trans hp)
      exact .inl (.inr rfl)
    | _ => simp_all
  · cases h with
    | signalled hph => exact .inr rfl
    | _ => simp_all

/-- A reservation that finds nothing to do finds the torrent incomplete. -/
theorem not_complete_of_idle (hch : p.choked = false) (hcur : p.current = none)
    (hph : (Session.reserve c p).2.phase = .refilling)
    (hnone : (Session.reserve c p).2.current = none) : c.tracker.isComplete = false := by
  unfold Session.reserve PieceTracker.reservePiece at hph hnone
  rw [hcur, hch] at hph hnone
  simp only [Option.isNone_none, Bool.not_false, Bool.and_self, if_true] at hph hnone
  cases hr : c.tracker.rarestNeeded p.peerHas true with
  | some index =>
    simp only [hr] at hnone
    cases hnone
  | none =>
    simp only [hr] at hph
    split at hph
    · cases hph
    · rename_i hd
      exact Bool.not_eq_true _ ▸ hd

/-- A session's own step keeps it waiting for a signal that is still to come. -/
theorem Session.unsignalled_step (hc : c.Sound sha1) (hp : p.Sound sha1 c) (hu : p.Unsignalled)
    (hrun : Session.step sha1 c p e = some (c', p')) : p'.Unsignalled := by
  intro hphase hch hcur
  have h := Session.step_cases hrun
  rw [h.doneSeen]
  cases h with
  | busy hph hb =>
    rcases hb with hb | hb
    · exact absurd hcur hb
    · rw [hb] at hch
      cases hch
  | idle hph hn hchoked he =>
    simp only [Session.step, hph] at hrun
    have hr := Option.some.inj hrun
    have hinc := not_complete_of_idle hchoked hn (by rw [hr]) (by rw [hr]; exact hn)
    by_contra hpos
    have hle := hp.doneSeen
    rw [hc.done_complete (by omega)] at hinc
    cases hinc
  | reserved => cases hcur
  | endgame => cases hcur
  | requested block hph => exact hu (.inl hph) hch hcur
  | refilled hph => exact hu (.inl hph) hch hcur
  | pieceAlreadyHad =>
    rcases hphase with h | h <;> rcases ite_phase_cases h with h | ⟨h, -⟩ <;> cases h
  | emitted =>
    rcases hphase with h | h <;> rcases ite_phase_cases h with h | ⟨h, -⟩ <;> cases h
  | _ => rcases hphase with h | h <;> cases h

end Step

section Runs

variable {sha1 : List UInt8 → List UInt8} {info : Info} {infoHash peerId : List UInt8}
  {c : Coordinator} {s s' : Swarm}

theorem unsignalled_inductive : (swarm sha1).Inductive (Shared.Sound sha1)
    fun c p => p.Sound sha1 c ∧ p.Unsignalled where
  spawn c addr c' p hc h := by
    obtain ⟨hc', hp, hx⟩ := hc.spawn h
    refine ⟨hc', ⟨hp, ?_⟩, fun q hq => ⟨hq.1.extends hx, hq.2⟩⟩
    obtain ⟨-, rfl⟩ := swarm_spawn h
    intro hphase
    rcases hphase with h | h <;> cases h
  step c p e c' p' hc hp h := by
    have hs := Session.step_cases h
    have hx := hs.extends
    exact ⟨hs.sound_shared hc hp.1, ⟨hs.sound hc hp.1, Session.unsignalled_step hc hp.1 hp.2 h⟩,
      fun q hq => ⟨hq.1.extends hx, hq.2⟩⟩
  env c e c' hc h := by
    obtain ⟨hc', hx⟩ := hc.env h
    exact ⟨hc', fun q hq => ⟨hq.1.extends hx, hq.2⟩⟩

/-- A session that is idle at its `select!` has not seen the signal. -/
theorem unsignalled_reachable (hnew : Coordinator.new info infoHash peerId = .ok c)
    (hr : (c.system sha1).Reachable s) {p : Session} (hp : p ∈ s.procs) : p.Unsignalled :=
  ((unsignalled_inductive.reachable (Coordinator.start_sound sha1 hnew) hr).2 p hp).2

/-- A fresh torrent is not complete. -/
theorem start_not_complete (hnew : Coordinator.new info infoHash peerId = .ok c) :
    c.start.tracker.isComplete = false := by
  have hsound := Coordinator.start_sound (fun bytes => bytes) hnew
  have hpos := hsound.wellFormed.numPieces_pos
  have hle := hsound.numPieces_le
  obtain ⟨-, -, ht, -, -⟩ := Coordinator.new_eq_ok hnew
  by_contra hn
  have hhas := (PieceTracker.isComplete_iff _).mp (Bool.not_eq_false _ ▸ hn) 0 (by omega)
  change c.tracker.has 0 = true at hhas
  rw [ht, PieceTracker.has_ofHashes] at hhas
  cases hhas

/-- One step keeps the signal owed. -/
theorem SignalOwed.poolStep (hw : Wired s) (hs : SignalOwed s) {e : SwarmEvent}
    (h : (swarm sha1).poolStep s e = some s') : SignalOwed s' := by
  intro hdone
  cases e with
  | spawn addr =>
    obtain ⟨c', p, hspawn, rfl⟩ := PoolProgram.poolStep_spawn h
    obtain ⟨rfl, -⟩ := swarm_spawn hspawn
    rcases hs hdone with hpos | ⟨j, q, hq, hrep⟩
    · exact .inl hpos
    · exact .inr ⟨j, q, PoolProgram.getElem?_procs_of_other h (fun _ he => by cases he) hq, hrep⟩
  | env ev =>
    obtain ⟨c', henv, rfl⟩ := PoolProgram.poolStep_env h
    obtain ⟨control, completed, rfl, -⟩ := swarm_env henv
    exact hs hdone
  | proc k ev =>
    obtain ⟨p, c', p', hk, hrun, rfl⟩ := PoolProgram.poolStep_proc h
    have hstep := Session.step_cases hrun
    have hown : (s.procs.set k p')[k]? = some p' := by
      rw [PoolProgram.getElem?_set_proc hk, if_pos rfl]
    rcases hstep.completes hdone with hbefore | hrep
    · rcases hs hbefore with hpos | ⟨j, q, hq, hrep⟩
      · exact .inl (Nat.lt_of_lt_of_le hpos hstep.extends.done)
      · by_cases hjk : j = k
        · subst hjk
          obtain rfl := Option.some.inj (hk.symm.trans hq)
          rcases hstep.reports hrep with hrep' | rfl
          · exact .inr ⟨j, p', hown, hrep'⟩
          · exact .inl (done_version_pos_of_signal hw h)
        · refine .inr ⟨j, q, ?_, hrep⟩
          rw [PoolProgram.getElem?_set_proc hk, if_neg hjk]
          exact hq
    · exact .inr ⟨k, p', hown, hrep⟩

/-- In every reachable state, a complete torrent has been signalled, or a session is on its way
to do it. -/
theorem signalOwed (hnew : Coordinator.new info infoHash peerId = .ok c)
    (hr : (c.system sha1).Reachable s) : SignalOwed s := by
  refine hr.invariant ?_ fun s e s' hr hs h => hs.poolStep (Coordinator.wired hnew hr) h
  intro hdone
  rw [show (c.system sha1).init.shared = c.start from rfl, start_not_complete hnew] at hdone
  cases hdone

end Runs

/-! ## The number of reports -/

/-- A session sends a piece to the consumer, or signals that the torrent is complete. -/
def isReport : SwarmEvent → Bool
  | .proc _ .emit | .proc _ .signal => true
  | _ => false

/-- The session is on its way to send a piece. -/
def Session.sends (p : Session) : Bool :=
  match p.phase with
  | .sending _ _ => true
  | _ => false

/-- The session is out of its loop. -/
def Session.out (p : Session) : Bool :=
  match p.phase with
  | .leaving _ | .finished _ | .panicked => true
  | _ => false

/-- The number of verified pieces. -/
def Shared.had (c : Shared) : Nat := c.tracker.have_.pieces.card

/-- What reports are paid from: verified pieces, and sessions that are out of their loop. -/
def reportsPaid (s : Swarm) : Nat := s.shared.had + s.procs.countP Session.out

section Reports

variable {sha1 : List UInt8 → List UInt8} {c c' : Shared} {p p' : Session} {e : SessionEvent}

/-- Verified pieces stay verified. -/
theorem Shared.Extends.had_le (h : c.Extends c') : c.had ≤ c'.had :=
  Finset.card_le_card fun i hi =>
    Bitfield.mem_pieces.mpr (h.has i (Bitfield.mem_pieces.mp hi))

/-- One step of a session pays for its report: it verifies the piece before it sends it, and leaves
its loop with the signal. -/
theorem Session.Step.reports_paid (hc : c.Sound sha1) (hp : p.Sound sha1 c)
    (h : Step sha1 c p e c' p') (k : Nat) :
    (isReport (.proc k e)).toNat + p'.sends.toNat + c.had + p.out.toNat ≤
      p.sends.toNat + c'.had + p'.out.toNat := by
  have hle := h.extends.had_le
  cases h with
  | pieceVerified block asm asm' hph hcur hi ha hd hh hv =>
    have hlt : asm.index < c.tracker.have_.numPieces := by
      rw [c.tracker.numPieces_have]
      exact Nat.lt_of_lt_of_le (hp.current asm hcur).1 hc.numPieces_le
    have hnot : asm.index ∉ c.tracker.have_.pieces := by
      rw [Bitfield.mem_pieces]
      exact fun h => Bool.false_ne_true (hh.symm.trans h)
    have hone : (c.tracker.markHave asm.index).have_.pieces.card = c.had + 1 := by
      show (c.tracker.have_.set asm.index).pieces.card = _
      rw [Bitfield.pieces_set, if_pos hlt, Finset.card_insert_of_notMem hnot, Shared.had]
    simp only [isReport, sends, out, hph, Bool.toNat_false, Bool.toNat_true, Shared.had] at hone ⊢
    omega
  | emitted piece complete hph => cases complete <;> simp_all [isReport, sends, out]
  | pieceAlreadyHad block asm asm' hph hcur hi ha hd hh =>
    cases hdone : c.tracker.isComplete <;> simp_all [isReport, sends, out]
  | _ => simp_all [isReport, sends, out, assign] <;> omega

/-- One step pays for its report, but for the piece a session is about to send. -/
theorem reports_paid_step {s s' : Swarm} {e : SwarmEvent}
    (hsound : s.shared.Sound sha1 ∧ ∀ p ∈ s.procs, p.Sound sha1 s.shared)
    (h : (swarm sha1).poolStep s e = some s') :
    (isReport e).toNat + s'.procs.countP Session.sends + reportsPaid s ≤
      s.procs.countP Session.sends + reportsPaid s' := by
  have hle := (swarm_extends h).had_le
  cases e with
  | spawn addr =>
    obtain ⟨c', p, hspawn, rfl⟩ := PoolProgram.poolStep_spawn h
    obtain ⟨rfl, rfl⟩ := swarm_spawn hspawn
    simp only [reportsPaid, isReport, List.countP_append, List.countP_singleton, Session.new,
      Session.sends, Session.out, Bool.toNat_false, Bool.false_eq_true, if_false] at hle ⊢
    omega
  | env ev =>
    obtain ⟨c', henv, rfl⟩ := PoolProgram.poolStep_env h
    simp only [reportsPaid, isReport, Bool.toNat_false] at hle ⊢
    omega
  | proc k ev =>
    obtain ⟨p, c', p', hk, hrun, rfl⟩ := PoolProgram.poolStep_proc h
    have hpaid := (Session.step_cases hrun).reports_paid hsound.1
      (hsound.2 p (List.mem_of_getElem? hk)) k
    have hsends : (s.procs.set k p').countP Session.sends + p.sends.toNat = _ :=
      PoolProgram.countP_set_proc Session.sends hk
    have hout : (s.procs.set k p').countP Session.out + p.out.toNat = _ :=
      PoolProgram.countP_set_proc Session.out hk
    simp only [reportsPaid]
    omega

/-- There are no more reports than pieces and sessions. -/
theorem reportsPaid_le (s : Swarm) :
    reportsPaid s ≤ s.shared.tracker.numPieces + s.procs.length := by
  refine Nat.add_le_add ?_ List.countP_le_length
  refine (Finset.card_filter_le _ _).trans ?_
  rw [Finset.card_range, s.shared.tracker.numPieces_have]
  exact Nat.le_refl _

end Reports

end Torrentina.Download
