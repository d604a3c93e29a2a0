import Torrentina.Download.Control

/-!
# The completion signal

A session that completes the torrent signals it on a watch channel, and every
session that waits at its `select!` is woken by it. A session in the paused
branch waits for the next command only, and a session spawned after the signal
has already seen it. Where neither happens, no session is left waiting.
-/

namespace Torrentina.Download

open Torrentina.Core Peer

/-- A step out of the loop that takes no message of the peer. The step is a
session's own, so it takes no command either. -/
def Session.CanLeave (sha1 : List UInt8 → List UInt8) (c : Shared) (p : Session) : Prop :=
  ∃ e c' p', Session.step sha1 c p e = some (c', p') ∧ p'.phase.inLoop = false ∧
    ∀ r, e ≠ .recv r

/-- No session is spawned after the signal, none waits in the paused branch when
the signal is sent, and none enters that branch after it. -/
structure Attended (s : Swarm) (e : SwarmEvent) : Prop where
  spawn : ∀ addr, e = .spawn addr → s.shared.done.version = 0
  signal : ∀ k, e = .proc k .signal → ∀ p ∈ s.procs, p.phase ≠ .pausedWait
  pause : ∀ k p, e = .proc k .proceed → s.procs[k]? = some p → p.phase = .observed .paused →
    s.shared.done.version = 0

/-- Every session was spawned before the signal, and after the signal none of
them waits in the paused branch. -/
def Listening (s : Swarm) : Prop :=
  ∀ p ∈ s.procs, p.doneSeen = 0 ∧ (0 < s.shared.done.version → p.phase ≠ .pausedWait)

section Step

variable {sha1 : List UInt8 → List UInt8} {c c' : Shared} {p p' : Session} {e : SessionEvent}

theorem Session.Step.doneSeen (h : Step sha1 c p e c' p') : p'.doneSeen = p.doneSeen := by
  cases h <;> simp [Session.assign]

/-- The paused branch is entered from a poll that saw `Paused`, and only there. -/
theorem Session.Step.pausedWait_cases (h : Step sha1 c p e c' p')
    (hp' : p'.phase = .pausedWait) : e = .proceed ∧ p.phase = .observed .paused ∧
      c'.done = c.done := by
  cases h with
  | paused hp => exact ⟨rfl, hp, c.done_release p.current⟩
  | requested block hp =>
    simp only [hp] at hp'
    cases hp'
  | pieceAlreadyHad => rcases ite_phase_cases hp' with h | ⟨h, -⟩ <;> cases h
  | emitted => rcases ite_phase_cases hp' with h | ⟨h, -⟩ <;> cases h
  | _ => cases hp'

/-- Only the signal moves the version of the completion channel. -/
theorem Session.Step.done_version (h : Step sha1 c p e c' p') (hne : e ≠ .signal) :
    c'.done.version = c.done.version := by
  obtain ⟨-, ⟨-, -, hd | ⟨he, -⟩⟩ | ⟨-, -, hd⟩⟩ := h.channels
  · rw [hd]
  · exact absurd he hne
  · rw [hd, Watch.unsubscribe]

/-- A waiting session that has not seen the signal can leave. -/
theorem Session.canLeave_of_unseen (hp : p.phase = .selecting)
    (hd : p.doneSeen ≠ c.done.version) : p.CanLeave sha1 c := by
  refine ⟨.doneChanged, c, { p with phase := .leaving (.ok ()) }, ?_, rfl, fun r h => by cases h⟩
  simp [Session.step, hp, Watch.changed, hd.symm]

/-- A paused session has no step before the next command, whatever was signalled. -/
theorem Session.step_of_pausedWait (hp : p.phase = .pausedWait)
    (hv : c.control.changed p.controlSeen = none) : Session.step sha1 c p e = none := by
  cases hs : Session.step sha1 c p e with
  | none => rfl
  | some r =>
    obtain ⟨c', p'⟩ := r
    cases Session.step_cases hs <;> simp_all

end Step

/-- Attended steps keep every session listening. -/
theorem Listening.poolStep {sha1 : List UInt8 → List UInt8} {s s' : Swarm} {e : SwarmEvent}
    (hs : Listening s) (hok : Attended s e) (h : (swarm sha1).poolStep s e = some s') :
    Listening s' := by
  intro q hq
  cases e with
  | spawn addr =>
    obtain ⟨c', p, hspawn, rfl⟩ := PoolProgram.poolStep_spawn h
    obtain ⟨rfl, rfl⟩ := swarm_spawn hspawn
    rcases List.mem_append.mp hq with hq | hq
    · exact hs q hq
    · obtain rfl := List.mem_singleton.mp hq
      exact ⟨hok.spawn addr rfl, fun _ h => by cases h⟩
  | proc k ev =>
    obtain ⟨p, c', p', hk, hstep, rfl⟩ := PoolProgram.poolStep_proc h
    have hst := Session.step_cases hstep
    rcases PoolProgram.mem_set_proc hk hq with rfl | hq
    · refine ⟨hst.doneSeen.trans (hs p (List.mem_of_getElem? hk)).1, fun hpos hwait => ?_⟩
      obtain ⟨rfl, hph, hd⟩ := hst.pausedWait_cases hwait
      have hzero := hok.pause k p rfl hk hph
      simp only [hd, hzero] at hpos
      cases hpos
    · refine ⟨(hs q hq).1, fun hpos => ?_⟩
      by_cases he : ev = .signal
      · subst he
        exact hok.signal k rfl q hq
      · apply (hs q hq).2
        rw [← hst.done_version he]
        exact hpos
  | env ev =>
    obtain ⟨c', henv, rfl⟩ := PoolProgram.poolStep_env h
    obtain ⟨-, hd⟩ := swarm_env_channels henv
    simp only [hd]
    exact hs q hq

/-- A session that has not ended hears its own signal, so the send takes effect. -/
theorem done_version_pos_of_signal {sha1 : List UInt8 → List UInt8} {s s' : Swarm} {k : Nat}
    (hw : Wired s) (h : (swarm sha1).poolStep s (.proc k .signal) = some s') :
    0 < s'.shared.done.version := by
  obtain ⟨p, c', p', hk, hstep, rfl⟩ := PoolProgram.poolStep_proc h
  cases Session.step_cases hstep with
  | signalled hp =>
    have hpos : 0 < s.procs.countP Session.subscribed :=
      List.countP_pos_iff.mpr ⟨p, List.mem_of_getElem? hk, by rw [Session.subscribed, hp]⟩
    rw [← hw.done] at hpos
    simp only [Watch.send, if_neg (Nat.pos_iff_ne_zero.mp hpos)]
    exact Nat.succ_pos _

/-- Once a session has signalled, the signal stays on the channel. -/
theorem done_version_pos {sha1 : List UInt8 → List UInt8} {info : Info}
    {infoHash peerId : List UInt8} {c : Coordinator}
    (h : Coordinator.new info infoHash peerId = .ok c) {run : Run} {s : Swarm}
    (hr : (c.system sha1).History run s) {t : Transition Swarm SwarmEvent} (ht : t ∈ run) {k : Nat}
    (hsig : t.event = .proc k .signal) : 0 < s.shared.done.version := by
  revert ht
  refine hr.invariant (P := fun run s => t ∈ run → 0 < s.shared.done.version) ?_ ?_
  · intro ht
    cases ht
  · intro run s e s' hrun ih _ hstep ht
    rcases List.mem_append.mp ht with ht | ht
    · exact Nat.lt_of_lt_of_le (ih ht) (swarm_extends hstep).done
    · obtain rfl := List.mem_singleton.mp ht
      obtain rfl : e = .proc k .signal := hsig
      exact done_version_pos_of_signal (Coordinator.wired h ⟨run, hrun⟩) hstep

/-- Completion reaches every session. In every run whose steps are attended,
once a session has signalled completion the torrent is complete and every
session at one of its wait points has a step out of the loop. -/
theorem completion_reaches_every_session {sha1 : List UInt8 → List UInt8} {info : Info}
    {infoHash peerId : List UInt8} {c : Coordinator}
    (h : Coordinator.new info infoHash peerId = .ok c) {run : Run} {s : Swarm}
    (hr : (c.system sha1).HistoryWhere Attended run s) {t : Transition Swarm SwarmEvent}
    (ht : t ∈ run) {k : Nat} (hsig : t.event = .proc k .signal) :
    s.shared.tracker.isComplete = true ∧ ∀ p ∈ s.procs,
      p.phase = .selecting ∨ p.phase = .pausedWait → p.CanLeave sha1 s.shared := by
  have hpos := done_version_pos h hr.history ht hsig
  have hlist : Listening s := by
    refine hr.state_invariant ?_ fun s e s' _ hs hok hstep => hs.poolStep hok hstep
    intro p hp
    cases hp
  refine ⟨(Coordinator.sound h ⟨run, hr.history⟩).1.done_complete hpos, fun p hp hwait => ?_⟩
  obtain ⟨hseen, hnot⟩ := hlist p hp
  rcases hwait with hsel | hpause
  · apply Session.canLeave_of_unseen hsel
    omega
  · exact absurd hpause (hnot hpos)

/-- The side condition, checked on the state and the event. -/
def attends (s : Swarm) : SwarmEvent → Bool
  | .spawn _ => s.shared.done.version == 0
  | .proc _ .signal => s.procs.all fun p => !(p.phase matches .pausedWait)
  | .proc _ .proceed => s.shared.done.version == 0
  | _ => true

theorem attended_of_attends (s : Swarm) (e : SwarmEvent) (h : attends s e = true) :
    Attended s e where
  spawn addr he := by
    subst he
    exact eq_of_beq h
  signal k he p hp hph := by
    subst he
    have hnot := List.all_eq_true.mp h p hp
    rw [hph] at hnot
    cases hnot
  pause k p he _ _ := by
    subst he
    exact eq_of_beq h

/-- Two sessions on the one-byte torrent: the peer of session 0 is asked for the piece. -/
def twoSessions : Trace :=
  Trace.join 0 ++ Trace.join 1 ++ Trace.deliver 0 (.have 0) ++ Trace.take 0

/-- Session 0 receives the piece and puts it on the channel. -/
def lastPiece : Trace :=
  [.proc 0 (.recv (.ok (some (.piece ⟨0, 0, [0x61]⟩)))), .proc 0 .emit]

/-- Session 0 has the whole torrent and is about to signal; session 1 waits at its `select!`. -/
def aboutToSignal : Swarm :=
  ((tiny.system sha1OfA).exec (tiny.system sha1OfA).init
    (twoSessions ++ lastPiece)).getD ⟨tiny.start, []⟩

theorem completion_reaches_every_session_tiny : ∃ run s t p,
    (tiny.system sha1OfA).HistoryWhere Attended run s ∧ t ∈ run ∧ t.event = .proc 0 .signal ∧
      s.procs[1]? = some p ∧ p.phase = .selecting ∧ p.CanLeave sha1OfA s.shared := by
  obtain ⟨run, hr, -⟩ : ∃ run, (tiny.system sha1OfA).HistoryWhere Attended ([] ++ run)
      aboutToSignal ∧ _ :=
    System.HistoryWhere.execWhile attends attended_of_attends .nil (twoSessions ++ lastPiece) rfl
  have hs := hr.snoc (attended_of_attends aboutToSignal (.proc 0 .signal) rfl) rfl
  refine ⟨_, _, _, _, hs, List.mem_append_right _ List.mem_cons_self, rfl, rfl, rfl, ?_⟩
  exact (completion_reaches_every_session tiny_new hs
    (List.mem_append_right _ List.mem_cons_self) rfl).2 _ (.tail _ (.head _)) (.inl rfl)

/-- Session 0 is about to signal, and session 1 has been paused and waits for a command. -/
def aboutToSignalPaused : Swarm :=
  ((tiny.system sha1OfA).exec (tiny.system sha1OfA).init (twoSessions ++
    [.env .pause, .proc 1 .controlChanged, .proc 1 .poll, .proc 1 .proceed] ++
    lastPiece)).getD ⟨tiny.start, []⟩

/-- A paused session does not hear the signal: the torrent is complete, the
signal was sent, and the session has no step at all. -/
theorem paused_session_misses_completion : ∃ run s t p,
    (tiny.system sha1OfA).History run s ∧ s.shared.tracker.isComplete = true ∧ t ∈ run ∧
      t.event = .proc 0 .signal ∧ s.procs[1]? = some p ∧ p.phase = .pausedWait ∧
      ¬p.CanLeave sha1OfA s.shared ∧ ∀ e, Session.step sha1OfA s.shared p e = none := by
  have hr : (tiny.system sha1OfA).History _ aboutToSignalPaused :=
    System.History.ofExec (twoSessions ++
      [.env .pause, .proc 1 .controlChanged, .proc 1 .poll, .proc 1 .proceed] ++ lastPiece) rfl
  have hs := hr.snoc trivial (e := .proc 0 .signal) rfl
  refine ⟨_, _, _, _, hs, rfl, List.mem_append_right _ List.mem_cons_self, rfl, rfl, rfl, ?_, ?_⟩
  · rintro ⟨e, c', p', hstep, -⟩
    rw [Session.step_of_pausedWait rfl rfl] at hstep
    cases hstep
  · intro e
    exact Session.step_of_pausedWait rfl rfl

end Torrentina.Download
