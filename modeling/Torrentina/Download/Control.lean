import Torrentina.Download.Coordinator

/-!
# Control commands and the completion signal

Both travel on watch channels. A watch channel drops what is sent while nobody
listens, keeps only the last value, and wakes only those who wait on it. So a
command given while no session is alive is lost, a command given after a cancel
replaces it, and a session that waits for the next command while it is paused
does not hear that the torrent is complete.

The receivers of both channels are the sessions whose task has not ended. This
is the invariant that turns conditions on the channels into conditions on the
sessions.
-/

namespace Torrentina.Download

open Torrentina.Core Peer

/-- A task keeps its receivers until it ends. -/
def Session.subscribed (p : Session) : Bool :=
  match p.phase with
  | .finished _ | .panicked => false
  | _ => true

/-! ## The receivers of a run -/

section Channels

variable {sha1 : List UInt8 → List UInt8} {c c' : Shared} {p p' : Session} {e : SessionEvent}

/-- A session that has sent its piece still listens. -/
theorem subscribed_ite {b : Bool}
    (h : p.phase = if b = true then .signalling else .top) : p.subscribed = true := by
  rw [Session.subscribed, h]
  cases b <;> rfl

/-- A step leaves the control channel alone, and only the signal uses the
completion channel, except that the end of a task drops its receivers. -/
theorem Session.Step.channels (h : Step sha1 c p e c' p') :
    p.subscribed = true ∧
      (p'.subscribed = true ∧ c'.control = c.control ∧
          (c'.done = c.done ∨ e = .signal ∧ c'.done = c.done.send true) ∨
        p'.subscribed = false ∧ c'.control = c.control.unsubscribe ∧
          c'.done = c.done.unsubscribe) := by
  cases h with
  | pieceAlreadyHad block asm asm' hp =>
    exact ⟨by rw [subscribed, hp], .inl ⟨subscribed_ite rfl, rfl, .inl rfl⟩⟩
  | emitted piece complete hp =>
    exact ⟨by rw [subscribed, hp], .inl ⟨subscribed_ite rfl, rfl, .inl rfl⟩⟩
  | _ => simp_all [subscribed, Session.assign, Shared.dropReceivers]

end Channels

/-- The receivers of both channels are the sessions that have not ended. -/
structure Wired (s : Swarm) : Prop where
  control : s.shared.control.receivers = s.procs.countP Session.subscribed
  done : s.shared.done.receivers = s.procs.countP Session.subscribed

/-- Sending does not change who listens. -/
theorem receivers_send {α : Type} (w : Watch α) (a : α) :
    (w.send a).receivers = w.receivers := by
  unfold Watch.send
  split <;> rfl

/-- A command changes nothing but the value of the control channel. -/
theorem swarm_env_channels {sha1 : List UInt8 → List UInt8} {c c' : Shared} {e : RunEvent}
    (h : (swarm sha1).env c e = some c') :
    c'.control.receivers = c.control.receivers ∧ c'.done = c.done := by
  have hcommand : ∀ state, c.command state = some c' →
      c'.control.receivers = c.control.receivers ∧ c'.done = c.done := by
    intro state h
    unfold Shared.command at h
    split at h
    · obtain rfl := Option.some.inj h
      exact ⟨receivers_send _ _, rfl⟩
    · cases h
  cases e with
  | pause => exact hcommand _ h
  | resume => exact hcommand _ h
  | cancel => exact hcommand _ h
  | dropCoordinator =>
    cases h
    exact ⟨rfl, rfl⟩
  | receive =>
    obtain ⟨completed, -, rfl⟩ := Option.map_eq_some_iff.mp h
    exact ⟨rfl, rfl⟩
  | dropReceiver =>
    cases h
    exact ⟨rfl, rfl⟩

/-- The wiring is kept by every step. -/
theorem Wired.poolStep {sha1 : List UInt8 → List UInt8} {s s' : Swarm} {e : SwarmEvent}
    (hs : Wired s) (h : (swarm sha1).poolStep s e = some s') : Wired s' := by
  obtain ⟨hcontrol, hdone⟩ := hs
  cases e with
  | spawn addr =>
    obtain ⟨c', p, hspawn, rfl⟩ := PoolProgram.poolStep_spawn h
    obtain ⟨rfl, rfl⟩ := swarm_spawn hspawn
    constructor <;>
      simp [Watch.subscribe, List.countP_append, Session.subscribed, Session.new, hcontrol, hdone]
  | proc k ev =>
    obtain ⟨p, c', p', hk, hstep, rfl⟩ := PoolProgram.poolStep_proc h
    have hcount : (s.procs.set k p').countP Session.subscribed + p.subscribed.toNat = _ :=
      PoolProgram.countP_set_proc Session.subscribed hk
    obtain ⟨hp, ⟨hp', hc, hd⟩ | ⟨hp', hc, hd⟩⟩ := (Session.step_cases hstep).channels
    · have hd' : c'.done.receivers = s.shared.done.receivers := by
        rcases hd with hd | ⟨-, hd⟩
        · rw [hd]
        · rw [hd, receivers_send]
      rw [hp, hp'] at hcount
      constructor <;> simp only [hc, hd'] <;> omega
    · rw [hp, hp'] at hcount
      simp only [Bool.toNat_true, Bool.toNat_false] at hcount
      constructor <;> simp only [hc, hd, Watch.unsubscribe] <;> omega
  | env ev =>
    obtain ⟨c', henv, rfl⟩ := PoolProgram.poolStep_env h
    obtain ⟨hc, hd⟩ := swarm_env_channels henv
    exact ⟨hc.trans hcontrol, by rw [hd]; exact hdone⟩

/-- Every reachable state is wired. -/
theorem Coordinator.wired {sha1 : List UInt8 → List UInt8} {info : Info}
    {infoHash peerId : List UInt8} {c : Coordinator}
    (h : Coordinator.new info infoHash peerId = .ok c) {s : Swarm}
    (hr : (c.system sha1).Reachable s) : Wired s := by
  refine hr.invariant ?_ fun s e s' _ hs hstep => hs.poolStep hstep
  obtain ⟨-, -, -, hd, hc⟩ := Coordinator.new_eq_ok h
  constructor
  · show c.control.receivers = 0
    rw [hc]
    rfl
  · show c.done.receivers = 0
    rw [hd]
    rfl

/-- Somebody listens to the channels exactly when a session has not ended. -/
theorem Wired.listening_iff {s : Swarm} (hs : Wired s) :
    s.shared.control.receivers ≠ 0 ↔ ∃ p ∈ s.procs, p.subscribed = true := by
  rw [hs.control, ← Nat.pos_iff_ne_zero, List.countP_pos_iff]

/-! ## The state the last command asked for -/

/-- The state a command asks for. -/
def RunEvent.requested : RunEvent → Option ControlState
  | .pause => some .paused
  | .resume => some .running
  | .cancel => some .cancelled
  | _ => none

/-- The state an event of a run asks for. -/
def requestedBy : SwarmEvent → Option ControlState
  | .env e => e.requested
  | _ => none

/-- The state the last command of a run asked for, `Running` before the first. -/
def requestedState (run : Run) : ControlState :=
  run.foldl (fun state t => (requestedBy t.event).getD state) .running

/-- The last command decides the state that is asked for. -/
theorem requestedState_snoc (run : Run) (t : Transition Swarm SwarmEvent) :
    requestedState (run ++ [t]) = (requestedBy t.event).getD (requestedState run) := by
  rw [requestedState, List.foldl_append]
  rfl

/-- What becomes of the control state: a command sets it if somebody listens,
and nothing else does. -/
theorem control_value_step {sha1 : List UInt8 → List UInt8} {s s' : Swarm} {e : SwarmEvent}
    (h : (swarm sha1).poolStep s e = some s') :
    s'.shared.control.value = if s.shared.control.receivers = 0 then s.shared.control.value
      else (requestedBy e).getD s.shared.control.value := by
  have hsame : requestedBy e = none → s'.shared.control.value = s.shared.control.value →
      s'.shared.control.value = if s.shared.control.receivers = 0 then s.shared.control.value
        else (requestedBy e).getD s.shared.control.value := by
    intro hr hv
    rw [hr, hv, Option.getD_none, ite_self]
  have hcommand : ∀ state c', requestedBy e = some state → s.shared.command state = some c' →
      c'.control.value = if s.shared.control.receivers = 0 then s.shared.control.value
        else (requestedBy e).getD s.shared.control.value := by
    intro state c' hr hc
    unfold Shared.command at hc
    split at hc
    · obtain rfl := Option.some.inj hc
      rw [hr, Option.getD_some, Watch.send]
      split <;> rfl
    · cases hc
  cases e with
  | spawn addr =>
    obtain ⟨c', p, hspawn, rfl⟩ := PoolProgram.poolStep_spawn h
    obtain ⟨rfl, -⟩ := swarm_spawn hspawn
    exact hsame rfl rfl
  | proc k ev =>
    obtain ⟨p, c', p', -, hstep, rfl⟩ := PoolProgram.poolStep_proc h
    refine hsame rfl ?_
    obtain ⟨-, ⟨-, hc, -⟩ | ⟨-, hc, -⟩⟩ := (Session.step_cases hstep).channels
    · simp only [hc]
    · simp only [hc, Watch.unsubscribe]
  | env ev =>
    obtain ⟨c', henv, rfl⟩ := PoolProgram.poolStep_env h
    cases ev with
    | pause => exact hcommand _ c' rfl henv
    | resume => exact hcommand _ c' rfl henv
    | cancel => exact hcommand _ c' rfl henv
    | dropCoordinator =>
      cases henv
      exact hsame rfl rfl
    | receive =>
      obtain ⟨completed, -, rfl⟩ := Option.map_eq_some_iff.mp henv
      exact hsame rfl rfl
    | dropReceiver =>
      cases henv
      exact hsame rfl rfl

/-- A session that polls observes the control state. -/
theorem observed_of_poll {sha1 : List UInt8 → List UInt8} {s s' : Swarm} {k : Nat}
    (h : (swarm sha1).poolStep s (.proc k .poll) = some s') :
    ∃ p, s'.procs[k]? = some p ∧ p.phase = .observed s.shared.control.value := by
  obtain ⟨p, c', p', hk, hstep, rfl⟩ := PoolProgram.poolStep_proc h
  have hnew : (s.procs.set k p')[k]? = some p' := by
    rw [PoolProgram.getElem?_set_proc hk, if_pos rfl]
  cases Session.step_cases hstep with
  | poll hp => exact ⟨_, hnew, rfl⟩

/-! ## No command is lost while somebody listens -/

/-- A command reaches a session that has not ended, or asks for the state there is. -/
def Heard (t : Transition Swarm SwarmEvent) : Prop :=
  ∀ state, requestedBy t.event = some state →
    (∃ p ∈ t.pre.procs, p.subscribed = true) ∨ t.pre.shared.control.value = state

/-- After every step the control state is the one asked for last, and every
session that polls observes that state. -/
def Obeyed (run : Run) : Prop :=
  ∀ before t after, run = before ++ t :: after →
    t.post.shared.control.value = requestedState (before ++ [t]) ∧
      ∀ k, t.event = .proc k .poll →
        ∃ p, t.post.procs[k]? = some p ∧ p.phase = .observed (requestedState before)

/-- A heard command leaves the control state at what it asks for. -/
theorem control_value_of_heard {sha1 : List UInt8 → List UInt8} {s s' : Swarm} {e : SwarmEvent}
    (hw : Wired s) (h : (swarm sha1).poolStep s e = some s') (hh : Heard ⟨s, e, s'⟩) :
    s'.shared.control.value = (requestedBy e).getD s.shared.control.value := by
  rw [control_value_step h]
  split
  · rename_i hnone
    cases hr : requestedBy e with
    | none => rfl
    | some state =>
      rcases hh state hr with hsome | hv
      · exact absurd hnone (hw.listening_iff.mpr hsome)
      · exact hv
  · rfl

/-- When every command was heard, the control state is the one asked for last. -/
theorem control_value_eq_requested {sha1 : List UInt8 → List UInt8} {info : Info}
    {infoHash peerId : List UInt8} {c : Coordinator}
    (h : Coordinator.new info infoHash peerId = .ok c) {run : Run} {s : Swarm}
    (hr : (c.system sha1).History run s) (hh : ∀ t ∈ run, Heard t) :
    s.shared.control.value = requestedState run := by
  revert hh
  refine hr.invariant (P := fun run s => (∀ t ∈ run, Heard t) →
    s.shared.control.value = requestedState run) ?_ ?_
  · intro _
    obtain ⟨-, -, -, -, hc⟩ := Coordinator.new_eq_ok h
    show c.control.value = .running
    rw [hc]
    rfl
  · intro run s e s' hrun ih _ hstep hh
    have hw := Coordinator.wired h ⟨run, hrun⟩
    have hlast := hh ⟨s, e, s'⟩ (List.mem_append_right _ List.mem_cons_self)
    rw [requestedState_snoc, control_value_of_heard hw hstep hlast,
      ih fun t ht => hh t (List.mem_append_left _ ht)]

/-- Commands are obeyed in exactly the runs in which each of them is heard: given
while a session is alive, or asking for the state there already is. -/
theorem commands_obeyed_iff {sha1 : List UInt8 → List UInt8} {info : Info}
    {infoHash peerId : List UInt8} {c : Coordinator}
    (h : Coordinator.new info infoHash peerId = .ok c) {run : Run} {s : Swarm}
    (hr : (c.system sha1).History run s) : Obeyed run ↔ ∀ t ∈ run, Heard t := by
  constructor
  · intro hob t ht state hreq
    obtain ⟨before, after, hsplit⟩ := List.append_of_mem ht
    obtain ⟨hreach, -, hstep⟩ := hr.mem ht
    have hpost := (hob before t after hsplit).1
    rw [requestedState_snoc, hreq, Option.getD_some, control_value_step hstep] at hpost
    by_cases hl : t.pre.shared.control.receivers = 0
    · rw [if_pos hl] at hpost
      exact .inr hpost
    · exact .inl ((Coordinator.wired h hreach).listening_iff.mp hl)
  · intro hh before t after hsplit
    have hmem : t ∈ run := by
      rw [hsplit]
      exact List.mem_append_right _ List.mem_cons_self
    obtain ⟨hreach, -, hstep⟩ := hr.mem hmem
    have hpre := control_value_eq_requested h (hr.before hsplit) fun u hu => hh u (by
      rw [hsplit]
      exact List.mem_append_left _ hu)
    refine ⟨?_, fun k hk => ?_⟩
    · rw [requestedState_snoc, ← hpre]
      exact control_value_of_heard (Coordinator.wired h hreach) hstep (hh t hmem)
    · rw [hk] at hstep
      obtain ⟨p, hp, hph⟩ := observed_of_poll hstep
      exact ⟨p, hp, by rw [hph, hpre]⟩

/-- An executable check that a command reaches a session that has not ended. -/
def hears (s : Swarm) (e : SwarmEvent) : Bool :=
  (requestedBy e).isNone || s.procs.any Session.subscribed

/-- The check implies `Heard`. -/
theorem Heard.of_hears {t : Transition Swarm SwarmEvent} (h : hears t.pre t.event = true) :
    Heard t := by
  intro state hreq
  rw [hears, hreq, Option.isNone_some, Bool.false_or] at h
  exact .inl (List.any_eq_true.mp h)

/-- A session is spawned, the download is paused, a second session is spawned and polls;
after a resume it polls again. -/
def pauseAndResume : Trace :=
  [.spawn (.v4 0 0), .env .pause, .spawn (.v4 1 0), .proc 1 (.connect (.ok ())),
    .proc 1 (.sendInterested (.ok ())), .proc 1 .poll, .proc 1 .proceed, .env .resume,
    .proc 1 .controlChanged, .proc 1 .poll]

/-- The session spawned after the pause observes it, and observes the resume after that. -/
theorem commands_obeyed_tiny : ∃ run s, (tiny.system sha1OfA).History run s ∧
    (∀ t ∈ run, Heard t) ∧ Obeyed run ∧
    (∃ t ∈ run, (t.event matches .proc 1 .poll) ∧
      ∃ p ∈ t.post.procs[1]?, p.phase matches .observed .paused) ∧
    (∃ p ∈ s.procs[1]?, p.phase matches .observed .running) ∧
    s.shared.control.value = .running := by
  obtain ⟨run, s, hr, hpaused, hrunning, hv⟩ :=
    System.HistoryWhere.exists_run (tiny.system sha1OfA)
      (P := fun run s => (∃ t ∈ run, (t.event matches .proc 1 .poll) ∧
          ∃ p ∈ t.post.procs[1]?, p.phase matches .observed .paused) ∧
        (∃ p ∈ s.procs[1]?, p.phase matches .observed .running) ∧
        s.shared.control.value = .running)
      hears (fun _ _ h => h) pauseAndResume (by decide +kernel)
  have hheard : ∀ t ∈ run, Heard t := fun t ht => .of_hears (hr.mem ht).2.1
  exact ⟨run, s, hr.history, hheard, (commands_obeyed_iff tiny_new hr.history).mpr hheard,
    hpaused, hrunning, hv⟩

/-- A pause before the first session is spawned is lost: the control state is
still `Running`, and that is what the session observes. -/
theorem early_pause_is_lost : ∃ run s p, (tiny.system sha1OfA).History run s ∧
    requestedState run = .paused ∧ s.shared.control.value = .running ∧
      p ∈ s.procs ∧ p.phase = .observed .running ∧ ¬Obeyed run := by
  have hr : (tiny.system sha1OfA).History _ _ := System.History.ofExec
    [.env .pause, .spawn (.v4 0 0), .proc 0 (.connect (.ok ())),
      .proc 0 (.sendInterested (.ok ())), .proc 0 .poll] rfl
  refine ⟨_, _, _, hr, rfl, rfl, List.mem_cons_self, rfl, fun hob => ?_⟩
  exact absurd (hob [] _ _ rfl).1 (by decide)

/-! ## Cancellation -/

/-- A command that replaces a cancel: it asks for another state, and somebody hears it. -/
def Overrides (t : Transition Swarm SwarmEvent) : Prop :=
  t.pre.shared.control.value = .cancelled ∧ (∃ p ∈ t.pre.procs, p.subscribed = true) ∧
    ∃ state, requestedBy t.event = some state ∧ state ≠ .cancelled

/-- A cancel that takes effect. -/
def Cancels (t : Transition Swarm SwarmEvent) : Prop :=
  t.event = .env .cancel ∧ t.post.shared.control.value = .cancelled

/-- Session `k` takes a piece in this transition. -/
def Reserves (k : Nat) (t : Transition Swarm SwarmEvent) : Prop :=
  t.event = .proc k .proceed ∧ ∃ p p', t.pre.procs[k]? = some p ∧ t.post.procs[k]? = some p' ∧
    p.current = none ∧ p'.current ≠ none

/-- Session `k` sends a request in this transition, or tries to. -/
def Requests (k : Nat) (t : Transition Swarm SwarmEvent) : Prop :=
  ∃ r, t.event = .proc k (.request r)

/-- After a cancel the control state stays `Cancelled`, and a session that begins
an iteration takes no piece and sends no request from there on. -/
def CancellationFinal (run : Run) : Prop :=
  ∀ before t after, run = before ++ t :: after → Cancels t →
    (∀ u ∈ after, u.post.shared.control.value = .cancelled) ∧
      ∀ mid u rest k, after = mid ++ u :: rest → u.event = .proc k .poll →
        ∀ v ∈ rest, ¬Reserves k v ∧ ¬Requests k v

/-- A session that saw the cancel and is on its way out. -/
def Session.Doomed (p : Session) : Prop :=
  p.phase = .observed .cancelled ∨ (∃ r, p.phase = .leaving r) ∨ ∃ r, p.phase = .finished r

/-- A session that saw the cancel takes no piece, sends no request and stays on its way out. -/
theorem Session.Step.doomed {sha1 : List UInt8 → List UInt8} {c c' : Shared} {p p' : Session}
    {e : SessionEvent} (h : Step sha1 c p e c' p') (hp : p.Doomed) :
    p'.Doomed ∧ p'.current = p.current ∧ ∀ r, e ≠ .request r := by
  cases h with
  | cancelled hph => exact ⟨.inr (.inl ⟨_, rfl⟩), rfl, fun r h => by cases h⟩
  | cleanedUp result hph => exact ⟨.inr (.inr ⟨_, rfl⟩), rfl, fun r h => by cases h⟩
  | _ => simp_all [Doomed]

/-- What a cancel has led to by the end of a run. -/
structure Final (after : Run) (s : Swarm) : Prop where
  value : s.shared.control.value = .cancelled
  values : ∀ u ∈ after, u.post.shared.control.value = .cancelled
  doomed : ∀ mid u rest k, after = mid ++ u :: rest → u.event = .proc k .poll →
    (∃ p, s.procs[k]? = some p ∧ p.Doomed) ∧ ∀ v ∈ rest, ¬Reserves k v ∧ ¬Requests k v

section Final

variable {sha1 : List UInt8 → List UInt8} {s s' : Swarm} {e : SwarmEvent} {after : Run}

/-- A step of a run that is not an override keeps the cancel. -/
theorem value_of_not_overrides (hw : Wired s) (h : (swarm sha1).poolStep s e = some s')
    (hn : ¬Overrides ⟨s, e, s'⟩) (hv : s.shared.control.value = .cancelled) :
    s'.shared.control.value = .cancelled := by
  rw [control_value_step h]
  split
  · exact hv
  · rename_i hl
    cases hr : requestedBy e with
    | none => exact hv
    | some state =>
      by_contra hne
      exact hn ⟨hv, hw.listening_iff.mp hl, state, hr, hne⟩

/-- What the step of a doomed session, or of another one, makes of it. -/
theorem doomed_snoc (h : (swarm sha1).poolStep s e = some s') {k : Nat} {p : Session}
    (hp : s.procs[k]? = some p) (hd : p.Doomed) :
    (∃ p, s'.procs[k]? = some p ∧ p.Doomed) ∧
      ¬Reserves k ⟨s, e, s'⟩ ∧ ¬Requests k ⟨s, e, s'⟩ := by
  by_cases he : ∃ ev, e = .proc k ev
  · obtain ⟨ev, rfl⟩ := he
    obtain ⟨q, c', q', hq, hstep, rfl⟩ := PoolProgram.poolStep_proc h
    obtain rfl : p = q := Option.some.inj (hp.symm.trans hq)
    have hnew : (s.procs.set k q')[k]? = some q' := by
      rw [PoolProgram.getElem?_set_proc hq, if_pos rfl]
    obtain ⟨hd', hcur, hreq⟩ := (Session.step_cases hstep).doomed hd
    refine ⟨⟨q', hnew, hd'⟩, ?_, ?_⟩
    · rintro ⟨-, a, b, ha, hb, hnone, hsome⟩
      obtain rfl : p = a := Option.some.inj (hp.symm.trans ha)
      obtain rfl : q' = b := Option.some.inj (hnew.symm.trans hb)
      exact hsome (hcur.trans hnone)
    · rintro ⟨r, hr⟩
      exact hreq r (PoolEvent.proc.inj hr).2
  · refine ⟨⟨p, PoolProgram.getElem?_procs_of_other h (fun ev h => he ⟨ev, h⟩) hp, hd⟩, ?_, ?_⟩
    · exact fun hr => he ⟨_, hr.1⟩
    · rintro ⟨r, hr⟩
      exact he ⟨_, hr⟩

/-- A step that overrides no cancel keeps it final. -/
theorem Final.snoc (hf : Final after s) (hw : Wired s)
    (h : (swarm sha1).poolStep s e = some s') (hn : ¬Overrides ⟨s, e, s'⟩) :
    Final (after ++ [⟨s, e, s'⟩]) s' where
  value := value_of_not_overrides hw h hn hf.value
  values u hu := by
    rcases List.mem_append.mp hu with hu | hu
    · exact hf.values u hu
    · obtain rfl := List.mem_singleton.mp hu
      exact value_of_not_overrides hw h hn hf.value
  doomed mid u rest k hsplit hpoll := by
    rcases List.eq_nil_or_concat rest with rfl | ⟨rest', v, rfl⟩
    · obtain ⟨-, hu⟩ := List.append_inj' hsplit rfl
      obtain rfl := List.head_eq_of_cons_eq hu
      obtain rfl : e = .proc k .poll := hpoll
      obtain ⟨p, hp, hph⟩ := observed_of_poll h
      refine ⟨⟨p, hp, .inl ?_⟩, fun v hv => by cases hv⟩
      rw [hph, hf.value]
    · rw [List.concat_eq_append, ← List.cons_append, ← List.append_assoc] at hsplit
      obtain ⟨hafter, hv⟩ := List.append_inj' hsplit rfl
      obtain rfl := List.head_eq_of_cons_eq hv
      obtain ⟨⟨p, hp, hd⟩, hrest⟩ := hf.doomed mid u rest' k hafter hpoll
      obtain ⟨hd', hnot⟩ := doomed_snoc h hp hd
      refine ⟨hd', fun w hw => ?_⟩
      rw [List.concat_eq_append] at hw
      rcases List.mem_append.mp hw with hw | hw
      · exact hrest w hw
      · obtain rfl := List.mem_singleton.mp hw
        exact hnot

end Final

section Cancellation

variable {sha1 : List UInt8 → List UInt8} {info : Info} {infoHash peerId : List UInt8}
  {c : Coordinator} {run : Run} {s : Swarm}

/-- Without overrides, every cancel that took effect is final. -/
theorem final_of_not_overrides (h : Coordinator.new info infoHash peerId = .ok c)
    (hr : (c.system sha1).History run s) (hno : ∀ t ∈ run, ¬Overrides t) :
    ∀ before t after, run = before ++ t :: after → Cancels t → Final after s := by
  revert hno
  refine hr.invariant (P := fun run s => (∀ t ∈ run, ¬Overrides t) →
    ∀ before t after, run = before ++ t :: after → Cancels t → Final after s) ?_ ?_
  · intro _ before t after hsplit
    simp at hsplit
  · intro run s e s' hrun ih _ hstep hno before t after hsplit hcancel
    rcases List.eq_nil_or_concat after with rfl | ⟨after', u, rfl⟩
    · obtain ⟨-, ht⟩ := List.append_inj' hsplit rfl
      obtain rfl := List.head_eq_of_cons_eq ht
      refine ⟨hcancel.2, fun u hu => ?_, fun mid u rest k hnil => ?_⟩
      · cases hu
      · simp at hnil
    · rw [List.concat_eq_append, ← List.cons_append, ← List.append_assoc] at hsplit
      obtain ⟨hbefore, hu⟩ := List.append_inj' hsplit rfl
      obtain rfl := List.head_eq_of_cons_eq hu
      rw [List.concat_eq_append]
      exact (ih (fun t ht => hno t (List.mem_append_left _ ht)) before t after' hbefore
        hcancel).snoc (Coordinator.wired h ⟨run, hrun⟩) hstep
        (hno _ (List.mem_append_right _ List.mem_cons_self))

/-- A cancelled coordinator was cancelled by a command. -/
theorem exists_cancels (h : Coordinator.new info infoHash peerId = .ok c)
    (hr : (c.system sha1).History run s) (hv : s.shared.control.value = .cancelled) :
    ∃ t ∈ run, Cancels t := by
  revert hv
  refine hr.invariant (P := fun run s => s.shared.control.value = .cancelled →
    ∃ t ∈ run, Cancels t) ?_ ?_
  · intro hv
    obtain ⟨-, -, -, -, hc⟩ := Coordinator.new_eq_ok h
    change c.control.value = .cancelled at hv
    rw [hc] at hv
    cases hv
  · intro run s e s' _ ih _ hstep hv
    have hold : s.shared.control.value = .cancelled → ∃ t ∈ run ++ [⟨s, e, s'⟩], Cancels t := by
      intro hv
      obtain ⟨t, ht, hc⟩ := ih hv
      exact ⟨t, List.mem_append_left _ ht, hc⟩
    have hval := control_value_step hstep
    rw [hv] at hval
    split at hval
    · exact hold hval.symm
    · cases hreq : requestedBy e with
      | none =>
        rw [hreq] at hval
        exact hold hval.symm
      | some state =>
        rw [hreq, Option.getD_some] at hval
        rw [← hval] at hreq
        refine ⟨_, List.mem_append_right _ List.mem_cons_self, ?_, hv⟩
        cases e with
        | env ev =>
          cases ev with
          | cancel => rfl
          | _ => cases hreq
        | _ => cases hreq

/-- Cancellation is final in exactly the runs in which no pause or resume is
given to a living session after a cancel took effect. -/
theorem cancellation_final_iff (h : Coordinator.new info infoHash peerId = .ok c)
    (hr : (c.system sha1).History run s) :
    CancellationFinal run ↔ ∀ t ∈ run, ¬Overrides t := by
  constructor
  · rintro hfin t ht ⟨hv, hl, state, hreq, hne⟩
    obtain ⟨before, after, hsplit⟩ := List.append_of_mem ht
    obtain ⟨hreach, -, hstep⟩ := hr.mem ht
    obtain ⟨u, hu, hc⟩ := exists_cancels h (hr.before hsplit) hv
    obtain ⟨first, mid, rfl⟩ := List.append_of_mem hu
    rw [List.append_assoc, List.cons_append] at hsplit
    have hpost := (hfin first u (mid ++ t :: after) hsplit hc).1 t (by simp)
    rw [control_value_step hstep, hreq,
      if_neg ((Coordinator.wired h hreach).listening_iff.mpr hl)] at hpost
    exact hne hpost
  · intro hno before t after hsplit hc
    have hf := final_of_not_overrides h hr hno before t after hsplit hc
    exact ⟨hf.values, fun mid u rest k hmid hpoll => (hf.doomed mid u rest k hmid hpoll).2⟩

end Cancellation

/-- No event of a cancelled run may be a pause or a resume. -/
def keepsCancel : SwarmEvent → Bool
  | .env .pause | .env .resume => false
  | _ => true

/-- The check rules out that a cancel is overridden. -/
theorem not_overrides_of_keepsCancel {t : Transition Swarm SwarmEvent}
    (h : keepsCancel t.event = true) : ¬Overrides t := by
  rintro ⟨-, -, state, hreq, hne⟩
  unfold keepsCancel at h
  split at h
  · cases h
  · cases h
  · rename_i hpause hresume
    cases he : t.event with
    | env ev =>
      rw [he] at hreq hpause hresume
      cases ev with
      | pause => exact hpause rfl
      | resume => exact hresume rfl
      | cancel => exact hne (Option.some.inj hreq).symm
      | _ => cases hreq
    | _ =>
      rw [he] at hreq
      cases hreq

/-- Only `cancel` matches the event. -/
theorem eq_cancel_iff {e : SwarmEvent} : (e matches .env .cancel) = true ↔ e = .env .cancel := by
  constructor
  · intro h
    split at h
    · rfl
    · cases h
  · rintro rfl
    rfl

instance (t : Transition Swarm SwarmEvent) : Decidable (Cancels t) :=
  decidable_of_iff
    ((t.event matches .env .cancel) = true ∧ t.post.shared.control.value = .cancelled)
    (by rw [Cancels, eq_cancel_iff])

/-- The session is about to begin an iteration in which it could take piece 0. -/
def CouldReserve (s : Swarm) : Prop :=
  s.shared.tracker.has 0 = false ∧ s.shared.tracker.isClaimed 0 = false ∧
    ∃ p ∈ s.procs[0]?, (p.phase matches .top) ∧ p.choked = false ∧ p.current = none ∧
      p.peerHas.has 0 = true

instance (s : Swarm) : Decidable (CouldReserve s) :=
  inferInstanceAs (Decidable (_ ∧ _ ∧ ∃ p ∈ s.procs[0]?, _))

/-- The peer offers the piece and unchokes; the download is cancelled, the session polls and
leaves its loop, the cancel is repeated, and the task ends. -/
def cancelTwice : Trace :=
  Trace.join 0 ++ Trace.deliver 0 (.have 0) ++
    [.proc 0 (.recv (.ok (some .unchoke))), .env .cancel, .proc 0 .poll, .proc 0 .proceed,
      .env .cancel, .proc 0 .cleanup]

/-- A session that could have taken the piece polls after the cancel and ends without it,
and a second cancel changes nothing. -/
theorem cancellation_final_tiny : ∃ run s, (tiny.system sha1OfA).History run s ∧
    (∃ t ∈ run, Cancels t ∧ CouldReserve t.pre) ∧
    (∃ t ∈ run, Cancels t ∧ t.pre.shared.control.value = .cancelled) ∧
    (∃ t ∈ run, (t.event matches .proc 0 .poll) ∧ t.pre.shared.control.value = .cancelled) ∧
    (∃ p ∈ s.procs[0]?, (p.phase matches .finished (.ok ())) ∧ p.current = none) ∧
    (∀ t ∈ run, ¬Overrides t) ∧ CancellationFinal run := by
  obtain ⟨run, s, hr, hcancel, hagain, hpoll, hended⟩ :=
    System.HistoryWhere.exists_run (tiny.system sha1OfA)
      (P := fun run s => (∃ t ∈ run, Cancels t ∧ CouldReserve t.pre) ∧
        (∃ t ∈ run, Cancels t ∧ t.pre.shared.control.value = .cancelled) ∧
        (∃ t ∈ run, (t.event matches .proc 0 .poll) ∧
          t.pre.shared.control.value = .cancelled) ∧
        ∃ p ∈ s.procs[0]?, (p.phase matches .finished (.ok ())) ∧ p.current = none)
      (fun _ e => keepsCancel e) (fun _ _ h => h) cancelTwice (by decide +kernel)
  have hno : ∀ t ∈ run, ¬Overrides t := fun t ht => not_overrides_of_keepsCancel (hr.mem ht).2.1
  exact ⟨run, s, hr.history, hcancel, hagain, hpoll, hended, hno,
    (cancellation_final_iff tiny_new hr.history).mpr hno⟩

/-- The one-byte torrent with one session at its `select!` whose peer has the piece. -/
def offered : Swarm :=
  ((tiny.system sha1OfA).exec (tiny.system sha1OfA).init
    (Trace.join 0 ++ Trace.deliver 0 (.have 0))).getD ⟨tiny.start, []⟩

/-- The state before the commands is reached. -/
theorem offered_history : ∃ run, (tiny.system sha1OfA).History run offered :=
  ⟨_, System.History.ofExec (Trace.join 0 ++ Trace.deliver 0 (.have 0)) rfl⟩

/-- A cancel after which the control state is Running was not final. -/
theorem not_cancellationFinal {before after : Run} {t u : Transition Swarm SwarmEvent}
    (hc : Cancels t) (hu : u ∈ after) (hv : u.post.shared.control.value = .running) :
    ¬CancellationFinal (before ++ [t] ++ after) := by
  intro hfin
  have hv' := (hfin before t after (by simp) hc).1 u hu
  rw [hv] at hv'
  cases hv'

/-- A resume after a cancel brings the run back: the session that had not polled
in between takes the piece and requests it. -/
theorem resume_overrides_cancel : ∃ before t after s,
    (tiny.system sha1OfA).History (before ++ [t] ++ after) s ∧ Cancels t ∧
      (∃ u ∈ after, Reserves 0 u) ∧ (∃ u ∈ after, Requests 0 u) ∧
      s.shared.control.value = .running ∧ ¬CancellationFinal (before ++ [t] ++ after) := by
  obtain ⟨run, hr⟩ := offered_history
  have hall := System.History.recorded (.snoc hr trivial (e := .env .cancel) rfl)
    (.env .resume :: Trace.take 0) rfl
  refine ⟨_, _, _, _, hall, ⟨rfl, rfl⟩, ?_, ?_, rfl, ?_⟩
  · refine ⟨_, .tail _ (.tail _ (.tail _ (.head _))), rfl, _, _, rfl, rfl, rfl, ?_⟩
    exact Option.some_ne_none _
  · exact ⟨_, .tail _ (.tail _ (.tail _ (.tail _ (.head _)))), _, rfl⟩
  · exact not_cancellationFinal ⟨rfl, rfl⟩ (.head _) rfl

end Torrentina.Download
