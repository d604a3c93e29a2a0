import Torrentina.Download.Requests

/-!
# The stall timer

A timed run stamps every event with the time it happens at. A session that
enters its `select!` with requests in flight arms a sleep of `request_timeout`,
and no event happens after the deadline of an armed sleep before the sleep has
fired. The sleep is a branch of the `select!` and made anew in every iteration
of the loop: whatever wakes the session, the next iteration starts the timeout
from zero. So a piece is held no longer than the timeout without progress as
long as the session only re-arms its sleep at a moment of progress.
-/

namespace Torrentina.Download

open Torrentina.Core Peer

/-- The timer of a session, and when it last sent a request or took a block of
its piece. No step reads `progress`. -/
structure Clock where
  deadline : Option Nat
  progress : Nat
  deriving DecidableEq

/-- A run at a moment. -/
structure TimedSwarm where
  now : Nat
  state : Swarm
  clocks : List Clock

/-- Something happens at a time, or the time just passes. -/
structure TimedEvent where
  time : Nat
  event : Option SwarmEvent

/-- The guard of the sleep branch. -/
def Session.arms (p : Session) : Bool :=
  (p.phase matches .selecting) && p.current.isSome && decide (0 < p.inFlight)

/-- The step sends a request, or takes a block of the piece in progress. -/
def Session.progresses (p : Session) : SessionEvent → Bool
  | .request (.ok ()) => true
  | .recv (.ok (some (.piece block))) =>
    match p.current with
    | some asm => block.index.toNat == asm.index &&
        (asm.addBlock block.begin.toNat block.data).isOk
    | none => false
  | _ => false

/-- The clock of a session after a step. -/
def Clock.after (clock : Clock) (time timeout : Nat) (p : Session) (e : SessionEvent)
    (p' : Session) : Clock where
  deadline := if p'.arms then some (time + timeout) else none
  progress := if p.progresses e then time else clock.progress

/-- The clocks of all sessions after a step. -/
def clocksAfter (clocks : List Clock) (time : Nat) (s s' : Swarm) : SwarmEvent → List Clock
  | .spawn _ => clocks ++ [⟨none, time⟩]
  | .proc k e =>
    match s.procs[k]?, s'.procs[k]? with
    | some p, some p' =>
      clocks.modify k fun clock => clock.after time s.shared.requestTimeout p e p'
    | _, _ => clocks
  | .env _ => clocks

namespace TimedSwarm

/-- No armed sleep is due before `time`. -/
def punctual (s : TimedSwarm) (time : Nat) : Bool :=
  s.clocks.all fun clock => clock.deadline.all (time ≤ ·)

/-- A sleep fires at its deadline. -/
def fires (s : TimedSwarm) (time : Nat) : SwarmEvent → Bool
  | .proc k .timeout => (s.clocks[k]?.bind Clock.deadline) == some time
  | _ => true

/-- One step of a timed run. -/
def step (sha1 : List UInt8 → List UInt8) (s : TimedSwarm) (e : TimedEvent) :
    Option TimedSwarm :=
  if s.now ≤ e.time ∧ s.punctual e.time = true then
    match e.event with
    | none => some { s with now := e.time }
    | some ev =>
      if s.fires e.time ev then
        ((swarm sha1).poolStep s.state ev).map fun s' =>
          ⟨e.time, s', clocksAfter s.clocks e.time s.state s' ev⟩
      else none
  else none

end TimedSwarm

/-- Override the stall timeout. -/
def Coordinator.setRequestTimeout (c : Coordinator) (timeout : Nat) : Coordinator :=
  { c with requestTimeout := timeout }

/-- All timed runs of a coordinator. -/
def Coordinator.timedSystem (sha1 : List UInt8 → List UInt8) (c : Coordinator) :
    System TimedSwarm TimedEvent where
  init := ⟨0, ⟨c.start, []⟩, []⟩
  step := TimedSwarm.step sha1

/-- A session in its loop with a piece and requests in flight. -/
structure Session.Holds (p : Session) : Prop where
  inLoop : p.phase.inLoop = true
  current : p.current ≠ none
  inFlight : 0 < p.inFlight

/-- A session that comes back to its `select!` with requests in flight has just
made progress, and no time passes while such a session is on its way there. -/
structure Prompt (s : TimedSwarm) (e : TimedEvent) : Prop where
  rearm : ∀ (k : Nat) p clock, e.event = some (.proc k .refilled) → s.state.procs[k]? = some p →
    s.clocks[k]? = some clock → p.Holds → clock.progress = e.time
  onTheWay : ∀ p ∈ s.state.procs, p.Holds → p.phase ≠ .selecting → e.time = s.now

/-- A holding session has made progress within the timeout, and its sleep ends
one timeout after that. -/
structure InTime (now timeout : Nat) (p : Session) (clock : Clock) : Prop where
  elapsed : p.Holds → now ≤ clock.progress + timeout
  deadline : p.Holds → p.phase = .selecting → clock.deadline = some (clock.progress + timeout)

/-! ## What a timed step does -/

/-- A timed step lets the time pass up to the next deadline, or is a step of the run. -/
theorem TimedSwarm.step_cases {sha1 : List UInt8 → List UInt8} {s s' : TimedSwarm}
    {e : TimedEvent} (h : s.step sha1 e = some s') :
    (∀ clock ∈ s.clocks, ∀ d, clock.deadline = some d → e.time ≤ d) ∧
      (e.event = none ∧ s' = { s with now := e.time } ∨
        ∃ ev w, e.event = some ev ∧ (swarm sha1).poolStep s.state ev = some w ∧
          s' = ⟨e.time, w, clocksAfter s.clocks e.time s.state w ev⟩) := by
  unfold TimedSwarm.step at h
  split at h
  · rename_i hguard
    refine ⟨fun clock hm d hd => ?_, ?_⟩
    · have hall := List.all_eq_true.mp hguard.2 clock hm
      rw [hd] at hall
      exact of_decide_eq_true hall
    · split at h
      · rename_i hev
        exact .inl ⟨hev, (Option.some.inj h).symm⟩
      · rename_i ev hev
        split at h
        · obtain ⟨w, hw, rfl⟩ := Option.map_eq_some_iff.mp h
          exact .inr ⟨ev, w, hev, hw, rfl⟩
        · cases h
  · cases h

/-- Without its times, a timed run is a run. -/
theorem Coordinator.reachable_of_timed {sha1 : List UInt8 → List UInt8} {c : Coordinator}
    {s : TimedSwarm} (hr : (c.timedSystem sha1).Reachable s) :
    (c.system sha1).Reachable s.state := by
  refine hr.invariant (P := fun s => (c.system sha1).Reachable s.state) .init ?_
  intro s e s' _ hs hstep
  obtain ⟨-, ⟨-, rfl⟩ | ⟨ev, w, -, hpool, rfl⟩⟩ := TimedSwarm.step_cases hstep
  · exact hs
  · exact hs.step hpool

/-- The timeout has no part in soundness. -/
theorem Coordinator.setRequestTimeout_sound (sha1 : List UInt8 → List UInt8) {info : Info}
    {infoHash peerId : List UInt8} {c : Coordinator}
    (h : Coordinator.new info infoHash peerId = .ok c) (timeout : Nat) :
    (c.setRequestTimeout timeout).start.Sound sha1 := by
  have hs := Coordinator.start_sound sha1 h
  exact ⟨hs.wellFormed, hs.numPieces_le, hs.sent, hs.not_claimed, hs.done_sender,
    hs.done_complete⟩

theorem requestTimeout_poolStep {sha1 : List UInt8 → List UInt8} {s s' : Swarm} {e : SwarmEvent}
    (h : (swarm sha1).poolStep s e = some s') :
    s'.shared.requestTimeout = s.shared.requestTimeout := by
  have hrelease : ∀ (c : Shared) current, (c.release current).requestTimeout = c.requestTimeout :=
    fun c current => by cases current <;> rfl
  cases e with
  | spawn addr =>
    obtain ⟨c', p, hs, rfl⟩ := PoolProgram.poolStep_spawn h
    obtain ⟨rfl, -⟩ := swarm_spawn hs
    rfl
  | proc k ev =>
    obtain ⟨p, c', p', -, hs, rfl⟩ := PoolProgram.poolStep_proc h
    cases Session.step_cases hs <;> simp [Shared.dropReceivers, hrelease]
  | env ev =>
    obtain ⟨c', hs, rfl⟩ := PoolProgram.poolStep_env h
    obtain ⟨control, completed, rfl, -⟩ := swarm_env hs
    rfl

section Step

variable {sha1 : List UInt8 → List UInt8} {c c' : Shared} {p p' : Session} {e : SessionEvent}

/-- A session that holds a piece after a step without progress held it before. -/
theorem Session.Step.holds (hp : p.Sound sha1 c) (h : Step sha1 c p e c' p')
    (hno : p.progresses e = false) (hp' : p'.Holds) : p.Holds := by
  obtain ⟨hloop, hcur, hin⟩ := hp'
  cases h with
  | interested hph => exact absurd (hp.emptyHanded (by rw [hph]; rfl)) hcur
  | reserved => cases hin
  | endgame => cases hin
  | requested => cases hno
  | blockAdded block asm asm' hph hold hi hadd =>
    simp [progresses, hold, hi, hadd, Except.isOk, Except.toBool] at hno
  | paused => exact absurd p.current_dropCurrent hcur
  | choke => exact absurd p.current_dropCurrent hcur
  | pieceAlreadyHad => exact absurd rfl hcur
  | pieceVerified => exact absurd rfl hcur
  | pieceBadHash => exact absurd rfl hcur
  | timeout => exact absurd rfl hcur
  | emitted piece complete hph => exact absurd (hp.emptyHanded (by rw [hph]; rfl)) hcur
  | _ =>
    refine ⟨?_, hcur, hin⟩
    simp_all [Phase.inLoop]

/-- The `select!` is entered from the end of the refill. -/
theorem Session.Step.selecting_cases (h : Step sha1 c p e c' p') (hp' : p'.phase = .selecting) :
    e = .refilled ∧ p.phase = .refilling ∧ p'.current = p.current ∧ p'.inFlight = p.inFlight := by
  cases h with
  | refilled hph => exact ⟨rfl, hph, rfl, rfl⟩
  | requested block hph =>
    simp only [hph] at hp'
    cases hp'
  | pieceAlreadyHad => rcases ite_phase_cases hp' with h | ⟨h, -⟩ <;> cases h
  | emitted => rcases ite_phase_cases hp' with h | ⟨h, -⟩ <;> cases h
  | _ => cases hp'

/-- A step of a session that re-arms only at a moment of progress keeps it in time. -/
theorem InTime.after {time timeout : Nat} {clock : Clock} (hp : p.Sound sha1 c)
    (h : Session.Step sha1 c p e c' p') (hlate : p.Holds → time ≤ clock.progress + timeout)
    (hrearm : e = .refilled → p.Holds → clock.progress = time) :
    InTime time timeout p' (clock.after time timeout p e p') where
  elapsed hp' := by
    rw [Clock.after]
    simp only
    split
    · exact Nat.le_add_right time timeout
    · rename_i hno
      exact hlate (h.holds hp (Bool.not_eq_true _ ▸ hno) hp')
  deadline hp' hsel := by
    obtain ⟨rfl, hph, hcur, hin⟩ := h.selecting_cases hsel
    have hold : p.Holds :=
      ⟨by rw [hph]; rfl, by rw [← hcur]; exact hp'.current, by rw [← hin]; exact hp'.inFlight⟩
    have harms : p'.arms = true := by
      rw [Session.arms, hsel]
      simp [Option.isSome_iff_ne_none.mpr hp'.current, hp'.inFlight]
    rw [Clock.after, harms, hrearm rfl hold]
    rfl

end Step

/-! ## Every holding session is in time -/

/-- The clocks of a run agree with its sessions. -/
structure OnTime (timeout : Nat) (s : TimedSwarm) : Prop where
  timeout_eq : s.state.shared.requestTimeout = timeout
  length_clocks : s.clocks.length = s.state.procs.length
  sessions : ∀ (k : Nat) p clock, s.state.procs[k]? = some p → s.clocks[k]? = some clock →
    InTime s.now timeout p clock

section OnTime

variable {sha1 : List UInt8 → List UInt8} {timeout : Nat} {s s' : TimedSwarm} {e : TimedEvent}

/-- No event happens more than the timeout after the last progress of a holding session. -/
theorem OnTime.time_le (hs : OnTime timeout s) (hok : Prompt s e)
    (hdue : ∀ clock ∈ s.clocks, ∀ d, clock.deadline = some d → e.time ≤ d) {k : Nat}
    {p : Session} {clock : Clock} (hp : s.state.procs[k]? = some p)
    (hclock : s.clocks[k]? = some clock) (hold : p.Holds) :
    e.time ≤ clock.progress + timeout := by
  have hin := hs.sessions k p clock hp hclock
  by_cases hsel : p.phase = .selecting
  · exact hdue clock (List.mem_of_getElem? hclock) _ (hin.deadline hold hsel)
  · rw [hok.onTheWay p (List.mem_of_getElem? hp) hold hsel]
    exact hin.elapsed hold

/-- A session that makes no step stays in time while no event is late. -/
theorem OnTime.stays (hs : OnTime timeout s) (hok : Prompt s e)
    (hdue : ∀ clock ∈ s.clocks, ∀ d, clock.deadline = some d → e.time ≤ d) {k : Nat}
    {p : Session} {clock : Clock} (hp : s.state.procs[k]? = some p)
    (hclock : s.clocks[k]? = some clock) : InTime e.time timeout p clock where
  elapsed hold := hs.time_le hok hdue hp hclock hold
  deadline := (hs.sessions k p clock hp hclock).deadline

/-- The clocks after a session's step. -/
theorem clocksAfter_proc {clocks : List Clock} {time k : Nat} {w : Swarm} {c' : Shared}
    {p p' : Session} {ev : SessionEvent} (hp : w.procs[k]? = some p) :
    clocksAfter clocks time w ⟨c', w.procs.set k p'⟩ (.proc k ev) =
      clocks.modify k fun clock => clock.after time w.shared.requestTimeout p ev p' := by
  have hnew : (w.procs.set k p')[k]? = some p' := by
    rw [PoolProgram.getElem?_set_proc hp, if_pos rfl]
  simp only [clocksAfter, hp, hnew]

/-- There is a clock for every session. -/
theorem length_clocksAfter {clocks : List Clock} {time : Nat} {w w' : Swarm} {ev : SwarmEvent}
    (h : (swarm sha1).poolStep w ev = some w') (hlen : clocks.length = w.procs.length) :
    (clocksAfter clocks time w w' ev).length = w'.procs.length := by
  cases ev with
  | spawn addr =>
    obtain ⟨c', p, -, rfl⟩ := PoolProgram.poolStep_spawn h
    simp [clocksAfter, hlen]
  | proc k ev =>
    obtain ⟨p, c', p', hk, -, rfl⟩ := PoolProgram.poolStep_proc h
    rw [clocksAfter_proc hk, List.length_modify, hlen, List.length_set]
  | env ev =>
    obtain ⟨c', -, rfl⟩ := PoolProgram.poolStep_env h
    exact hlen

/-- Prompt steps keep a run on time. -/
theorem OnTime.step (hs : OnTime timeout s)
    (hsound : s.state.shared.Sound sha1 ∧ ∀ p ∈ s.state.procs, p.Sound sha1 s.state.shared)
    (hok : Prompt s e) (h : s.step sha1 e = some s') : OnTime timeout s' := by
  obtain ⟨hdue, ⟨-, rfl⟩ | ⟨ev, w, hev, hpool, rfl⟩⟩ := TimedSwarm.step_cases h
  · exact ⟨hs.timeout_eq, hs.length_clocks, fun k p clock => hs.stays hok hdue⟩
  refine ⟨(requestTimeout_poolStep hpool).trans hs.timeout_eq,
    length_clocksAfter hpool hs.length_clocks, fun k p clock hp hclock => ?_⟩
  cases ev with
  | spawn addr =>
    obtain ⟨c', q, hspawn, rfl⟩ := PoolProgram.poolStep_spawn hpool
    obtain ⟨-, rfl⟩ := swarm_spawn hspawn
    simp only [clocksAfter, List.getElem?_append, hs.length_clocks] at hp hclock
    split at hp
    · rename_i hk
      rw [if_pos hk] at hclock
      exact hs.stays hok hdue hp hclock
    · obtain rfl := List.mem_singleton.mp (List.mem_of_getElem? hp)
      exact ⟨fun hold => absurd hold.current fun hne => hne rfl, fun hold => by cases hold.inLoop⟩
  | proc j sev =>
    obtain ⟨q, c', q', hj, hstep, rfl⟩ := PoolProgram.poolStep_proc hpool
    simp only [clocksAfter_proc hj] at hclock
    simp only [PoolProgram.getElem?_set_proc hj] at hp
    by_cases hkj : k = j
    · subst hkj
      rw [if_pos rfl] at hp
      obtain rfl := Option.some.inj hp
      rw [List.getElem?_modify_eq] at hclock
      obtain ⟨old, hold, rfl⟩ := Option.map_eq_some_iff.mp hclock
      rw [hs.timeout_eq]
      refine InTime.after (hsound.2 q (List.mem_of_getElem? hj)) (Session.step_cases hstep)
        (hs.time_le hok hdue hj hold) ?_
      rintro rfl hholds
      exact hok.rearm k q old hev hj hold hholds
    · rw [if_neg hkj] at hp
      rw [List.getElem?_modify_ne _ _ (Ne.symm hkj)] at hclock
      exact hs.stays hok hdue hp hclock
  | env rev =>
    obtain ⟨c', -, rfl⟩ := PoolProgram.poolStep_env hpool
    exact hs.stays hok hdue hp hclock

end OnTime

/-- A peer cannot hold a piece without delivering. In every timed run in which a
session that returns to its `select!` with requests in flight has just made
progress, and spends no time on the way there, no session has held its piece
for more than the timeout since its last request or block. -/
theorem piece_held_within_timeout {sha1 : List UInt8 → List UInt8} {info : Info}
    {infoHash peerId : List UInt8} {c : Coordinator}
    (h : Coordinator.new info infoHash peerId = .ok c) (timeout : Nat)
    {run : List (Transition TimedSwarm TimedEvent)} {s : TimedSwarm}
    (hr : ((c.setRequestTimeout timeout).timedSystem sha1).HistoryWhere Prompt run s) {k : Nat}
    {p : Session} {clock : Clock} (hp : s.state.procs[k]? = some p)
    (hclock : s.clocks[k]? = some clock) (hold : p.Holds) :
    s.now ≤ clock.progress + timeout := by
  have hs : OnTime timeout s := by
    refine hr.state_invariant (P := OnTime timeout) ⟨rfl, rfl, ?_⟩ ?_
    · intro k p clock hp
      change ([] : List Session)[k]? = some p at hp
      simp at hp
    · intro s e s' hreach hs hok hstep
      exact hs.step (sound_inductive.reachable (Coordinator.setRequestTimeout_sound sha1 h timeout)
        (Coordinator.reachable_of_timed hreach)) hok hstep
  exact (hs.sessions k p clock hp hclock).elapsed hold

/-- Events that all happen at one time. -/
def Trace.atTime (time : Nat) (trace : Trace) : List TimedEvent :=
  trace.map fun e => ⟨time, some e⟩

/-- A check for `Prompt`: time passes only while every session is at its
`select!`, and a timer is armed only at a moment of progress. -/
def promptly (s : TimedSwarm) (e : TimedEvent) : Bool :=
  (e.time == s.now || s.state.procs.all fun p => p.phase matches .selecting) &&
    match e.event with
    | some (.proc k .refilled) => (s.clocks[k]?.map Clock.progress).all (· == e.time)
    | _ => true

theorem prompt_of_promptly (s : TimedSwarm) (e : TimedEvent) (h : promptly s e = true) :
    Prompt s e := by
  rw [promptly, Bool.and_eq_true] at h
  obtain ⟨htime, hrearm⟩ := h
  refine ⟨fun k p clock hev hp hclock hold => ?_, fun p hp hold hne => ?_⟩
  · rw [hev] at hrearm
    simp only [hclock, Option.map_some, Option.all_some, beq_iff_eq] at hrearm
    exact hrearm
  · rcases Bool.or_eq_true_iff.mp htime with ht | ht
    · exact eq_of_beq ht
    · have hsel := List.all_eq_true.mp ht p hp
      split at hsel
      · rename_i hph
        exact absurd hph hne
      · cases hsel

theorem piece_held_within_timeout_threeBlocks : ∃ run s p clock,
    ((threeBlocks.setRequestTimeout 30).timedSystem sha1OfA).HistoryWhere Prompt run s ∧
      s.state.procs[0]? = some p ∧ s.clocks[0]? = some clock ∧ p.Holds ∧ s.now = 30 ∧
      s.now ≤ clock.progress + 30 := by
  obtain ⟨run, hr, -⟩ := System.HistoryWhere.execWhile promptly prompt_of_promptly
    (.nil : ((threeBlocks.setRequestTimeout 30).timedSystem sha1OfA).HistoryWhere _ [] _)
    (Trace.atTime 0 threeBlocksAsked ++ [⟨30, none⟩]) rfl
  refine ⟨_, _, _, _, hr, rfl, rfl, ⟨rfl, Option.some_ne_none _, Nat.zero_lt_succ 2⟩, rfl, ?_⟩
  refine piece_held_within_timeout threeBlocks_new 30 hr (k := 0) rfl rfl ?_
  exact ⟨rfl, Option.some_ne_none _, Nat.zero_lt_succ 2⟩

/-- A keep-alive after twenty seconds starts the timeout anew: after forty
seconds without a block the session still holds its piece. -/
theorem keepAlive_rearms_timer : ∃ s p clock,
    ((threeBlocks.setRequestTimeout 30).timedSystem sha1OfA).Reachable s ∧
      s.state.procs[0]? = some p ∧ s.clocks[0]? = some clock ∧ p.Holds ∧ s.now = 40 ∧
      clock.progress = 0 ∧ clock.progress + 30 < s.now := by
  have hr : ((threeBlocks.setRequestTimeout 30).timedSystem sha1OfA).Reachable _ :=
    System.Reachable.init.exec (Trace.atTime 0 threeBlocksAsked ++
      Trace.atTime 20 (Trace.deliver 0 .keepAlive) ++ [⟨40, none⟩]) rfl
  refine ⟨_, _, _, hr, rfl, rfl, ⟨rfl, Option.some_ne_none _, Nat.zero_lt_succ 2⟩, rfl, rfl, ?_⟩
  exact Nat.lt_of_sub_eq_succ (m := 40) (n := 30) rfl

end Torrentina.Download
