import Torrentina.Core.Variant
import Torrentina.Download.Completion

/-!
# A stop takes effect

Once the control state is `Paused` or `Cancelled` and no further command is given,
every session comes to rest after a bounded number of its own steps, whatever its
peer does. A session looks at the control state at the head of its loop, and every
way through the loop leads there; the one wait it would stay in is the one that
the command wakes. Only what it sends can hold it up: a socket that takes no more
bytes, or an output channel that nobody drains.
-/

namespace Torrentina.Download

open Torrentina.Core Peer

/-- The control state a session acts on, when it has seen the newest version of it. -/
structure Session.Informed (c : Shared) (p : Session) : Prop where
  seen : p.controlSeen ≤ c.control.version
  observed : ∀ state, p.phase = .observed state → p.controlSeen = c.control.version →
    state = c.control.value
  paused : p.phase = .pausedWait → p.controlSeen = c.control.version →
    c.control.value = .paused
  running : p.phase = .refilling ∨ p.phase = .selecting → p.controlSeen = c.control.version →
    c.control.value = .running

/-- A session that has ended, or waits for a command without a piece. -/
def Session.AtRest (sha1 : List UInt8 → List UInt8) (c : Shared) (p : Session) : Prop :=
  (∀ e, Session.step sha1 c p e = none) ∧
    (p.subscribed = false ∨ c.control.value = .paused ∧ p.current = none)

/-- What a session waits for when it makes a step. -/
inductive Wait
  /-- For nothing: the step is its own, or on the control channel. -/
  | nothing
  /-- For the end of something it sends: the dial and the handshake, a message to its peer,
  or a verified piece to the output channel. -/
  | send
  /-- For a message of its peer. -/
  | message
  deriving DecidableEq

/-- What an event of a session waits for. -/
def SessionEvent.wait : SessionEvent → Wait
  | .connect _ | .sendInterested _ | .request _ | .emit => .send
  | .recv _ => .message
  | _ => .nothing

/-- A session can make a step for which it waits so. -/
def Session.CanMove (sha1 : List UInt8 → List UInt8) (c : Shared) (p : Session) (w : Wait) :
    Prop :=
  ∃ e c' p', Session.step sha1 c p e = some (c', p') ∧ e.wait = w

/-- The steps a session has left, when the control channel is at a version at which the
session is not to run. -/
def Session.stepsLeft (version : Nat) (p : Session) : Nat :=
  match p.phase with
  | .observed .running => 13
  | .refilling => 7 + (maxPipelinedRequests - p.inFlight)
  | .connecting | .selecting => 6
  | .starting | .sending _ _ => 5
  | .top => 4
  | .pausedWait => if p.controlSeen = version then 2 else 5
  | .observed .paused => if p.controlSeen = version then 3 else 6
  | .observed .cancelled | .signalling => 2
  | .leaving _ => 1
  | .finished _ | .panicked => 0

section Step

variable {sha1 : List UInt8 → List UInt8} {c c' : Shared} {p p' : Session} {e : SessionEvent}

theorem Session.controlSeen_dropCurrent (p : Session) :
    p.dropCurrent.controlSeen = p.controlSeen := by
  unfold dropCurrent
  cases p.current <;> rfl

/-- A receiver that is told of a version is told of the newest one. -/
theorem changed_eq {w : Watch ControlState} {seen version : Nat}
    (h : w.changed seen = some (.ok version)) : version = w.version ∧ w.version ≠ seen := by
  unfold Watch.changed at h
  split at h
  · rename_i hne
    exact ⟨(Except.ok.inj (Option.some.inj h)).symm, hne⟩
  · split at h <;> cases h

/-- A session never speaks on the control channel. -/
theorem Session.Step.control_eq (h : Step sha1 c p e c' p') :
    c'.control.value = c.control.value ∧ c'.control.version = c.control.version ∧
      c'.control.senderAlive = c.control.senderAlive := by
  obtain ⟨-, ⟨-, hc, -⟩ | ⟨-, hc, -⟩⟩ := h.channels
  · rw [hc]
    exact ⟨rfl, rfl, rfl⟩
  · rw [hc]
    exact ⟨rfl, rfl, rfl⟩

/-- What a session knows of the control state only depends on the channel. -/
theorem Session.Informed.transfer (hi : p.Informed c) (hvalue : c'.control.value = c.control.value)
    (hversion : c'.control.version = c.control.version) : p.Informed c' where
  seen := hversion ▸ hi.seen
  observed := by
    rw [hvalue, hversion]
    exact hi.observed
  paused := by
    rw [hvalue, hversion]
    exact hi.paused
  running := by
    rw [hvalue, hversion]
    exact hi.running

/-- A session that has nothing to do with the control state knows all it needs. -/
theorem Session.Informed.of_phase (hseen : p.controlSeen ≤ c.control.version)
    (hobs : ∀ state, p.phase ≠ .observed state) (hpaused : p.phase ≠ .pausedWait)
    (hrun : p.phase ≠ .refilling ∧ p.phase ≠ .selecting) : p.Informed c where
  seen := hseen
  observed state h := absurd h (hobs state)
  paused h := absurd h hpaused
  running h := by
    rcases h with h | h
    · exact absurd h hrun.1
    · exact absurd h hrun.2

/-- A session that observed `Running` last goes on as one that is to run. -/
theorem Session.Informed.refilling (hi : p.Informed c) (hph : p'.phase = .refilling)
    (hseen : p'.controlSeen = p.controlSeen)
    (hrun : p.controlSeen = c.control.version → c.control.value = .running) : p'.Informed c where
  seen := hseen ▸ hi.seen
  observed state h := by
    rw [hph] at h
    cases h
  paused h := by
    rw [hph] at h
    cases h
  running _ h := hrun (hseen.symm.trans h)

/-- A session knows what it has observed. -/
theorem Session.Step.informed (h : Step sha1 c p e c' p') (hi : p.Informed c) :
    p'.Informed c' := by
  obtain ⟨hvalue, hversion, -⟩ := h.control_eq
  have key : p'.Informed c := by
    clear hvalue hversion
    cases h with
    | poll hp => exact ⟨Nat.le_refl _, fun _ h _ => (Phase.observed.inj h).symm, nofun, by simp⟩
    | paused hp =>
      refine ⟨p.controlSeen_dropCurrent ▸ hi.seen, nofun, fun _ h => ?_, by simp⟩
      exact (hi.observed _ hp (p.controlSeen_dropCurrent.symm.trans h)).symm
    | busy hp => exact hi.refilling rfl rfl fun h => (hi.observed _ hp h).symm
    | reserved index hp => exact hi.refilling rfl rfl fun h => (hi.observed _ hp h).symm
    | endgame index hp => exact hi.refilling rfl rfl fun h => (hi.observed _ hp h).symm
    | idle hp => exact hi.refilling rfl rfl fun h => (hi.observed _ hp h).symm
    | requested block hp => exact hi.refilling hp rfl (hi.running (.inl hp))
    | refilled hp => exact ⟨hi.seen, nofun, nofun, fun _ h => hi.running (.inl hp) h⟩
    | choke hp =>
      exact .of_phase (p.controlSeen_dropCurrent ▸ hi.seen) nofun nofun ⟨nofun, nofun⟩
    | resumed version hp hchanged =>
      exact .of_phase (Nat.le_of_eq (changed_eq hchanged).1) nofun nofun ⟨nofun, nofun⟩
    | controlChanged version hp hchanged =>
      exact .of_phase (Nat.le_of_eq (changed_eq hchanged).1) nofun nofun ⟨nofun, nofun⟩
    | emitted piece complete =>
      cases complete <;> exact .of_phase hi.seen nofun nofun ⟨nofun, nofun⟩
    | pieceAlreadyHad =>
      cases c.tracker.isComplete <;> exact .of_phase hi.seen nofun nofun ⟨nofun, nofun⟩
    | _ => exact .of_phase hi.seen nofun nofun ⟨nofun, nofun⟩
  exact key.transfer hvalue hversion

/-- Requests are only made below the bound of the pipeline. -/
theorem Session.inFlight_lt_of_nextRequest {block : BlockInfo}
    (hn : p.nextRequest c.geometry = some block) : p.inFlight < maxPipelinedRequests := by
  unfold nextRequest at hn
  split at hn
  · cases hn
  · split at hn
    · split at hn
      · rename_i hlt
        exact hlt.1
      · cases hn
    · cases hn

/-- A step of a session that is not to run brings it closer to rest. -/
theorem Session.Step.stepsLeft_lt (h : Step sha1 c p e c' p') (hv : c.control.value ≠ .running) :
    p'.stepsLeft c.control.version + 1 ≤ p.stepsLeft c.control.version := by
  cases h with
  | poll hp =>
    cases hval : c.control.value with
    | running => exact absurd hval hv
    | paused => simp [stepsLeft, hp]
    | cancelled => simp [stepsLeft, hp]
  | paused hp =>
    simp only [stepsLeft, hp, controlSeen_dropCurrent]
    split <;> omega
  | busy hp =>
    simp only [stepsLeft, hp, maxPipelinedRequests]
    omega
  | reserved index hp => simp [stepsLeft, hp, maxPipelinedRequests, assign]
  | endgame index hp => simp [stepsLeft, hp, maxPipelinedRequests, assign]
  | idle hp =>
    simp only [stepsLeft, hp, maxPipelinedRequests]
    omega
  | requested block hp hn =>
    have hlt := inFlight_lt_of_nextRequest hn
    simp only [stepsLeft, hp]
    omega
  | requestFailed block err hp =>
    simp only [stepsLeft, hp]
    omega
  | refilled hp =>
    simp only [stepsLeft, hp]
    omega
  | resumed version hp hchanged =>
    simp [stepsLeft, hp, (changed_eq hchanged).2.symm]
  | orphaned hp =>
    simp only [stepsLeft, hp]
    split <;> decide
  | emitted piece complete hp =>
    cases complete <;> simp [stepsLeft, hp]
  | pieceAlreadyHad block asm asm' hp =>
    cases c.tracker.isComplete <;> simp [stepsLeft, hp]
  | _ => simp_all [stepsLeft]

/-- A task that has ended takes no step. -/
theorem Session.step_of_ended (hp : p.subscribed = false) : Session.step sha1 c p e = none := by
  cases hs : Session.step sha1 c p e with
  | none => rfl
  | some r =>
    have hsub := (Session.step_cases hs).channels.1
    rw [hp] at hsub
    cases hsub

/-- A session that is not to run rests, can move, or is in one of its sends. -/
theorem Session.atRest_or_canMove (hi : p.Informed c) (hp : p.Sound sha1 c)
    (hv : c.control.value ≠ .running) :
    p.AtRest sha1 c ∨ p.CanMove sha1 c .nothing ∨ p.CanMove sha1 c .send := by
  have ended : p.subscribed = false → p.AtRest sha1 c := fun h =>
    ⟨fun e => step_of_ended h, .inl h⟩
  have moves : ∀ e, (Session.step sha1 c p e).isSome = true → p.CanMove sha1 c e.wait := by
    intro e hs
    obtain ⟨⟨c', p'⟩, hs⟩ := Option.isSome_iff_exists.mp hs
    exact ⟨e, c', p', hs, rfl⟩
  cases hph : p.phase with
  | connecting => exact .inr (.inr (moves (.connect (.ok ())) (by simp [step, hph])))
  | starting => exact .inr (.inr (moves (.sendInterested (.ok ())) (by simp [step, hph])))
  | top => exact .inr (.inl (moves .poll (by simp [step, hph])))
  | observed state =>
    refine .inr (.inl (moves .proceed ?_))
    cases state <;> simp [step, hph]
  | pausedWait =>
    -- only the newest command keeps a paused session waiting
    cases hchanged : c.control.changed p.controlSeen with
    | none =>
      have hseen : p.controlSeen = c.control.version := by
        unfold Watch.changed at hchanged
        split at hchanged
        · cases hchanged
        · rename_i hne
          exact (not_not.mp hne).symm
      refine .inl ⟨fun e => step_of_pausedWait hph hchanged, .inr ⟨hi.paused hph hseen, ?_⟩⟩
      exact hp.emptyHanded (by rw [hph]; rfl)
    | some r =>
      refine .inr (.inl (moves .controlChanged ?_))
      cases r <;> simp [step, hph, hchanged]
  | refilling =>
    cases hn : p.nextRequest c.geometry with
    | none => exact .inr (.inl (moves .refilled (by simp [step, hph, hn])))
    | some block => exact .inr (.inr (moves (.request (.ok ())) (by simp [step, hph, hn])))
  | selecting =>
    have hseen : c.control.version ≠ p.controlSeen := fun h => hv (hi.running (.inr hph) h.symm)
    exact .inr (.inl (moves .controlChanged (by simp [step, hph, Watch.changed, hseen])))
  | sending piece complete => exact .inr (.inr (moves .emit (by simp [step, hph])))
  | signalling => exact .inr (.inl (moves .signal (by simp [step, hph])))
  | leaving r => exact .inr (.inl (moves .cleanup (by simp [step, hph])))
  | finished r => exact .inl (ended (by rw [subscribed, hph]))
  | panicked => exact .inl (ended (by rw [subscribed, hph]))

end Step

/-! ## Every run -/

/-- An event of session `k`. -/
def isOwn (k : Nat) : SwarmEvent → Bool
  | .proc j _ => j == k
  | _ => false

/-- The steps session `k` has left; a session still to be spawned has those of a fresh one. -/
def Swarm.stepsLeft (k : Nat) (s : Swarm) : Nat :=
  (s.procs[k]?).elim 6 (Session.stepsLeft s.shared.control.version)

section Run

variable {sha1 : List UInt8 → List UInt8} {c : Coordinator} {s s' : Swarm} {e : SwarmEvent}

/-- Around the sessions the control channel stays as it is or moves to a new version. -/
theorem swarm_env_control {c c' : Shared} {e : RunEvent} (h : (swarm sha1).env c e = some c') :
    c'.control.value = c.control.value ∧ c'.control.version = c.control.version ∨
      c'.control.version = c.control.version + 1 := by
  have hcommand : ∀ state, c.command state = some c' →
      c'.control.value = c.control.value ∧ c'.control.version = c.control.version ∨
        c'.control.version = c.control.version + 1 := by
    intro state h
    unfold Shared.command at h
    split at h
    · obtain rfl := Option.some.inj h
      by_cases hnone : c.control.receivers = 0 <;> simp [Watch.send, hnone]
    · cases h
  cases e with
  | pause => exact hcommand _ h
  | resume => exact hcommand _ h
  | cancel => exact hcommand _ h
  | dropCoordinator =>
    cases h
    exact .inl ⟨rfl, rfl⟩
  | receive =>
    obtain ⟨completed, -, rfl⟩ := Option.map_eq_some_iff.mp h
    exact .inl ⟨rfl, rfl⟩
  | dropReceiver =>
    cases h
    exact .inl ⟨rfl, rfl⟩

/-- Every session of a run is informed. -/
theorem informed_inductive : (swarm sha1).Inductive (fun _ => True) fun c p => p.Informed c where
  spawn c addr c' p _ h := by
    obtain ⟨rfl, rfl⟩ := swarm_spawn h
    refine ⟨trivial, .of_phase (Nat.le_refl _) nofun nofun ⟨nofun, nofun⟩, fun q hq => ?_⟩
    exact hq.transfer rfl rfl
  step c p e c' p' _ hp h := by
    have hst := Session.step_cases h
    obtain ⟨hvalue, hversion, -⟩ := hst.control_eq
    exact ⟨trivial, hst.informed hp, fun q hq => hq.transfer hvalue hversion⟩
  env c e c' _ h := by
    refine ⟨trivial, fun q hq => ?_⟩
    rcases swarm_env_control h with ⟨hvalue, hversion⟩ | hversion
    · exact hq.transfer hvalue hversion
    · -- nobody has seen the new version
      have hseen := hq.seen
      refine ⟨by omega, fun _ _ h => ?_, fun _ h => ?_, fun _ h => ?_⟩ <;> omega

/-- With no command the version of the control channel stays. -/
theorem control_version_step (h : (swarm sha1).poolStep s e = some s')
    (hquiet : requestedBy e = none) :
    s'.shared.control.version = s.shared.control.version := by
  cases e with
  | spawn addr =>
    obtain ⟨c', p, hspawn, rfl⟩ := PoolProgram.poolStep_spawn h
    obtain ⟨rfl, -⟩ := swarm_spawn hspawn
    rfl
  | proc k ev =>
    obtain ⟨p, c', p', -, hstep, rfl⟩ := PoolProgram.poolStep_proc h
    exact (Session.step_cases hstep).control_eq.2.1
  | env ev =>
    obtain ⟨c', henv, rfl⟩ := PoolProgram.poolStep_env h
    cases ev with
    | pause => cases hquiet
    | resume => cases hquiet
    | cancel => cases hquiet
    | dropCoordinator =>
      cases henv
      rfl
    | receive =>
      obtain ⟨completed, -, rfl⟩ := Option.map_eq_some_iff.mp henv
      rfl
    | dropReceiver =>
      cases henv
      rfl

/-- No step leaves a session more steps, and its own step leaves it fewer. -/
theorem Swarm.stepsLeft_step (k : Nat) (h : (swarm sha1).poolStep s e = some s')
    (hquiet : requestedBy e = none) (hv : s.shared.control.value ≠ .running) :
    s'.shared.control.value ≠ .running ∧
      s'.stepsLeft k + (isOwn k e).toNat ≤ s.stepsLeft k := by
  have hvalue : s'.shared.control.value = s.shared.control.value := by
    rw [control_value_step h, hquiet, Option.getD_none, ite_self]
  refine ⟨hvalue ▸ hv, ?_⟩
  have hversion := control_version_step h hquiet
  unfold Swarm.stepsLeft
  rw [hversion]
  by_cases hown : ∃ ev, e = .proc k ev
  · obtain ⟨ev, rfl⟩ := hown
    obtain ⟨p, c', p', hk, hstep, rfl⟩ := PoolProgram.poolStep_proc h
    have hlt := (Session.step_cases hstep).stepsLeft_lt hv
    rw [PoolProgram.getElem?_set_proc hk, if_pos rfl, hk]
    simpa [isOwn] using hlt
  · have hother : (isOwn k e).toNat = 0 := by
      cases e with
      | proc j ev =>
        have hne : j ≠ k := fun hj => hown ⟨ev, by rw [hj]⟩
        simp [isOwn, hne]
      | _ => rfl
    rw [hother, Nat.add_zero]
    cases hk : s.procs[k]? with
    | some p =>
      rw [PoolProgram.getElem?_procs_of_other h (fun ev h => hown ⟨ev, h⟩) hk]
    | none =>
      cases hk' : s'.procs[k]? with
      | none => exact Nat.le_refl _
      | some p =>
        -- the session is spawned by this step
        cases e with
        | spawn addr =>
          obtain ⟨c', q, hspawn, rfl⟩ := PoolProgram.poolStep_spawn h
          obtain ⟨-, rfl⟩ := swarm_spawn hspawn
          have hlen := List.getElem?_eq_none_iff.mp hk
          rw [List.getElem?_append, if_neg (Nat.not_lt.mpr hlen)] at hk'
          obtain rfl := List.mem_singleton.mp (List.mem_of_getElem? hk')
          exact Nat.le_refl _
        | proc j ev =>
          obtain ⟨q, c', q', hq, -, rfl⟩ := PoolProgram.poolStep_proc h
          rw [PoolProgram.getElem?_set_proc hq, if_neg, hk] at hk'
          · cases hk'
          · rintro rfl
            exact hown ⟨ev, rfl⟩
        | env ev =>
          obtain ⟨c', -, rfl⟩ := PoolProgram.poolStep_env h
          rw [hk] at hk'
          cases hk'

/-- A session never has more steps left than this. -/
theorem Swarm.stepsLeft_le (k : Nat) (s : Swarm) : s.stepsLeft k ≤ 13 := by
  unfold Swarm.stepsLeft
  cases s.procs[k]? with
  | none => simp
  | some p =>
    simp only [Option.elim_some, Session.stepsLeft, maxPipelinedRequests]
    split
    any_goals split
    all_goals omega

/-- A pause or a cancel takes effect: in every interleaving, as long as no other command is
given, each session takes at most 13 steps, and one that is not yet at rest can take a step
that waits for nothing, or is in one of its sends and goes on when that ends. At rest it has
ended or, when paused, waits without a piece. -/
theorem stop_takes_effect {info : Info} {infoHash peerId : List UInt8}
    (h : Coordinator.new info infoHash peerId = .ok c) {run before after : Run}
    {t : Transition Swarm SwarmEvent} (hr : (c.system sha1).History run s)
    (hsplit : run = before ++ t :: after) (ht : t.post.shared.control.value ≠ .running)
    (hquiet : ∀ u ∈ after, requestedBy u.event = none) (k : Nat) :
    after.countP (fun u => isOwn k u.event) ≤ 13 ∧
      ∀ p, s.procs[k]? = some p → p.AtRest sha1 s.shared ∨
        p.CanMove sha1 s.shared .nothing ∨ p.CanMove sha1 s.shared .send := by
  have hreach : (c.system sha1).Reachable s := ⟨run, hr⟩
  obtain ⟨hv, hle⟩ := hr.countP_since (P := fun s : Swarm => s.shared.control.value ≠ .running)
    (isOwn k) (Swarm.stepsLeft k) hsplit ht hquiet
    fun s e s' _ hv hq hs => Swarm.stepsLeft_step k hs hq hv
  refine ⟨?_, fun p hp => ?_⟩
  · have hbound := t.post.stepsLeft_le k
    omega
  · have hmem := List.mem_of_getElem? hp
    have hinf := (informed_inductive.reachable trivial hreach).2 p hmem
    exact p.atRest_or_canMove hinf ((Coordinator.sound h hreach).2 p hmem) hv

end Run

/-- The one-byte torrent with one session that waits for the block it requested. -/
def waiting : Swarm :=
  ((tiny.system sha1OfA).exec (tiny.system sha1OfA).init
    (Trace.join 0 ++ Trace.deliver 0 (.have 0) ++ Trace.take 0)).getD ⟨tiny.start, []⟩

theorem stop_takes_effect_tiny : ∃ (run after : Run) (s : Swarm) (p : Session),
    (tiny.system sha1OfA).History (run ++ after) s ∧ s.procs[0]? = some p ∧
      after.countP (fun u => isOwn 0 u.event) = 3 ∧ p.phase = .leaving (.ok ()) ∧
      (p.AtRest sha1OfA s.shared ∨ p.CanMove sha1OfA s.shared .nothing ∨
        p.CanMove sha1OfA s.shared .send) := by
  have hwait : (tiny.system sha1OfA).History _ waiting := System.History.ofExec
    (Trace.join 0 ++ Trace.deliver 0 (.have 0) ++ Trace.take 0) rfl
  have hcancel := hwait.snoc (e := .env .cancel) trivial rfl
  have hr := System.History.recorded hcancel
    [.proc 0 .controlChanged, .proc 0 .poll, .proc 0 .proceed] rfl
  refine ⟨_, _, _, _, hr, rfl, rfl, rfl, ?_⟩
  exact (stop_takes_effect tiny_new hr (List.append_assoc ..) (by decide) (by decide) 0).2 _ rfl

end Torrentina.Download
