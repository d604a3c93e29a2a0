import Torrentina.Download.Signal
import Torrentina.Seeding.Completes

/-!
# Seeders that have every piece together

Any of the peers of a run may be honest seeders, each of some of the pieces, and all the
others may do anything. Seen from one of the seeded sessions the rest of the run is what
other sessions do, so what holds of a session with one seeder holds of each. Where the
seeders have every piece between them, the run does not stop before the sessions with a
seeder have ended with the torrent complete: as long as one of them waits, some piece is
missing, or the signal that wakes it is still to come.
-/

namespace Torrentina.Seeding

open Torrentina.Core Peer Download

/-- A run's state and the links of its sessions. -/
structure Seeders where
  swarm : Swarm
  links : Nat → Link

/-- An event of the run in which no seeder takes part, an event of a session with a seeder, or a
step of the seeder of a session. -/
inductive SeedersEvent
  | swarm (e : SwarmEvent)
  | session (k : Nat) (e : SessionEvent)
  | seeder (k : Nat)

namespace SeedersEvent

/-- No command is given, the coordinator is kept, and the seeders answer before the request
timers of their sessions fire. -/
def undisturbed : SeedersEvent → Bool
  | .swarm e => Seeding.undisturbed (.swarm e)
  | .session _ .timeout => false
  | _ => true

/-- The steps of the sessions with a seeder, and of the seeders. -/
def isSeeding : SeedersEvent → Bool
  | .swarm _ => false
  | .session _ _ | .seeder _ => true

/-- Another session sends a piece to the consumer, or signals that the torrent is complete. -/
def isReport : SeedersEvent → Bool
  | .swarm e => Download.isReport e
  | _ => false

/-- What the event is for session `k` and its seeder. -/
def seenBy (k : Nat) : SeedersEvent → Option SeededEvent
  | .swarm e => some (.swarm e)
  | .session j e => some (if j = k then .own e else .swarm (.proc j e))
  | .seeder j => if j = k then some .seeder else none

end SeedersEvent

/-- What session `k` and its seeder are part of. -/
def Seeders.at (s : Seeders) (k : Nat) : Seeded := ⟨s.swarm, s.links k⟩

/-- The state after a step of session `k` or of its seeder. -/
def Seeders.put (s : Seeders) (k : Nat) (t : Seeded) : Seeders :=
  ⟨t.swarm, Function.update s.links k t.link⟩

/-- The seeder that the session of the `k`-th peer talks to, if that peer is one. -/
def seederOf (peers : List (Option Seed)) (k : Nat) : Option Seed := peers[k]?.join

/-- The sessions with a seeder. -/
def seeded (peers : List (Option Seed)) : Finset Nat :=
  (Finset.range peers.length).filter fun k => (seederOf peers k).isSome = true

/-- The event is one of a session with a seeder. -/
def isSeeded (peers : List (Option Seed)) : SwarmEvent → Bool
  | .proc k _ => (seederOf peers k).isSome
  | _ => false

/-- One step of a run, some of whose peers are seeders. -/
def seedersStep (sha1 : List UInt8 → List UInt8) (peers : List (Option Seed)) (s : Seeders) :
    SeedersEvent → Option Seeders
  | .swarm e =>
    if isSeeded peers e then none
    else ((Download.swarm sha1).poolStep s.swarm e).map fun w => { s with swarm := w }
  | .session k e => (seederOf peers k).bind fun seed =>
      (seededStep sha1 seed k (s.at k) (.own e)).map (s.put k)
  | .seeder k => (seederOf peers k).bind fun seed =>
      (seededStep sha1 seed k (s.at k) .seeder).map (s.put k)

/-- The runs of a coordinator some of whose peers are seeders. -/
def seedersSystem (sha1 : List UInt8 → List UInt8) (peers : List (Option Seed))
    (c : Coordinator) : System Seeders SeedersEvent where
  init := ⟨(c.system sha1).init, fun _ => .idle⟩
  step := seedersStep sha1 peers

/-! ## The run as one session sees it -/

section View

variable {sha1 : List UInt8 → List UInt8} {peers : List (Option Seed)} {seed : Seed}
  {s s' : Seeders} {e : SeedersEvent} {j k : Nat}

theorem mem_seeded : k ∈ seeded peers ↔ ∃ seed, seederOf peers k = some seed := by
  rw [seeded, Finset.mem_filter, Finset.mem_range, Option.isSome_iff_exists]
  refine ⟨fun h => h.2, fun h => ⟨?_, h⟩⟩
  by_contra hlt
  obtain ⟨seed, hseed⟩ := h
  rw [seederOf, List.getElem?_eq_none (Nat.le_of_not_lt hlt)] at hseed
  cases hseed

/-- A step of one link leaves the others as they are. -/
theorem Seeders.at_put_of_ne {t : Seeded} (h : k ≠ j) :
    (s.put j t).at k = ⟨t.swarm, s.links k⟩ := by
  simp only [Seeders.at, Seeders.put, Function.update_of_ne h]

/-- A step of a link is the step of that link. -/
theorem Seeders.at_put_self (t : Seeded) : (s.put k t).at k = t := by
  simp only [Seeders.at, Seeders.put, Function.update_self]

/-- A session with a seeder steps within the run. -/
theorem poolStep_of_own {t : Seeded} {ev : SessionEvent}
    (h : seededStep sha1 seed j (s.at j) (.own ev) = some t) :
    (Download.swarm sha1).poolStep s.swarm (.proc j ev) = some t.swarm := by
  obtain ⟨p, -, h⟩ := Option.bind_eq_some_iff.mp h
  obtain ⟨link, -, h⟩ := Option.bind_eq_some_iff.mp h
  obtain ⟨w, hw, rfl⟩ := Option.map_eq_some_iff.mp h
  exact hw

/-- A seeder leaves the run as it is. -/
theorem swarm_of_seeder {t : Seeded} (h : seededStep sha1 seed j (s.at j) .seeder = some t) :
    t.swarm = s.swarm := by
  simp only [seededStep] at h
  split at h
  · obtain ⟨link, -, rfl⟩ := Option.map_eq_some_iff.mp h
    rfl
  · cases h

/-- A step is one in which no seeder takes part, of a session with a seeder, or of a seeder. -/
theorem seedersStep_cases (h : seedersStep sha1 peers s e = some s') :
    (∃ ev w, e = .swarm ev ∧ isSeeded peers ev = false ∧
      (Download.swarm sha1).poolStep s.swarm ev = some w ∧ s' = { s with swarm := w }) ∨
    (∃ j ev seed t, e = .session j ev ∧ seederOf peers j = some seed ∧
      seededStep sha1 seed j (s.at j) (.own ev) = some t ∧ s' = s.put j t) ∨
    ∃ j seed t, e = .seeder j ∧ seederOf peers j = some seed ∧
      seededStep sha1 seed j (s.at j) .seeder = some t ∧ s' = s.put j t := by
  cases e with
  | swarm ev =>
    simp only [seedersStep] at h
    split at h
    · cases h
    · rename_i hother
      obtain ⟨w, hw, rfl⟩ := Option.map_eq_some_iff.mp h
      exact .inl ⟨ev, w, rfl, Bool.not_eq_true _ ▸ hother, hw, rfl⟩
  | session j ev =>
    obtain ⟨seed, hseed, h⟩ := Option.bind_eq_some_iff.mp h
    obtain ⟨t, ht, rfl⟩ := Option.map_eq_some_iff.mp h
    exact .inr (.inl ⟨j, ev, seed, t, rfl, hseed, ht, rfl⟩)
  | seeder j =>
    obtain ⟨seed, hseed, h⟩ := Option.bind_eq_some_iff.mp h
    obtain ⟨t, ht, rfl⟩ := Option.map_eq_some_iff.mp h
    exact .inr (.inr ⟨j, seed, t, rfl, hseed, ht, rfl⟩)

/-- A step is one of the run, the same report of it, or leaves the run as it is. -/
theorem swarm_of_seedersStep (h : seedersStep sha1 peers s e = some s') :
    (∃ ev, (Download.swarm sha1).poolStep s.swarm ev = some s'.swarm ∧
      e.isReport.toNat ≤ (Download.isReport ev).toNat) ∨
    s'.swarm = s.swarm ∧ e.isReport = false := by
  rcases seedersStep_cases h with ⟨ev, w, rfl, -, hw, rfl⟩ | ⟨j, ev, seed, t, rfl, -, ht, rfl⟩ |
    ⟨j, seed, t, rfl, -, ht, rfl⟩
  · exact .inl ⟨ev, hw, Nat.le_refl _⟩
  · exact .inl ⟨.proc j ev, poolStep_of_own ht, Nat.zero_le _⟩
  · exact .inr ⟨swarm_of_seeder ht, rfl⟩

/-- What session `k` and its seeder see of a step is a step of theirs, or nothing. -/
theorem seen_step (hseed : seederOf peers k = some seed)
    (h : seedersStep sha1 peers s e = some s') :
    match e.seenBy k with
    | some e' => seededStep sha1 seed k (s.at k) e' = some (s'.at k)
    | none => s'.at k = s.at k := by
  rcases seedersStep_cases h with ⟨ev, w, rfl, hother, hw, rfl⟩ |
    ⟨j, ev, seed', t, rfl, hseed', ht, rfl⟩ | ⟨j, seed', t, rfl, hseed', ht, rfl⟩
  · have hk : isProc k ev = false := by
      cases ev with
      | proc i ev =>
        refine beq_eq_false_iff_ne.mpr ?_
        rintro rfl
        rw [isSeeded, hseed, Option.isSome_some] at hother
        cases hother
      | _ => rfl
    simp only [SeedersEvent.seenBy, seededStep, hk, Bool.false_eq_true, if_false]
    rw [Seeders.at, hw]
    rfl
  · by_cases hjk : j = k
    · subst hjk
      obtain rfl := Option.some.inj (hseed.symm.trans hseed')
      simp only [SeedersEvent.seenBy, if_true]
      rw [ht, Seeders.at_put_self]
    · have hw := poolStep_of_own ht
      have hne : isProc k (.proc j ev : SwarmEvent) = false := beq_eq_false_iff_ne.mpr hjk
      simp only [SeedersEvent.seenBy, hjk, if_false, seededStep, hne, Bool.false_eq_true]
      rw [Seeders.at_put_of_ne (Ne.symm hjk), Seeders.at, hw]
      rfl
  · by_cases hjk : j = k
    · subst hjk
      obtain rfl := Option.some.inj (hseed.symm.trans hseed')
      simp only [SeedersEvent.seenBy, if_true]
      rw [ht, Seeders.at_put_self]
    · simp only [SeedersEvent.seenBy, hjk, if_false]
      rw [Seeders.at_put_of_ne (Ne.symm hjk), swarm_of_seeder ht]
      rfl

/-- What is undisturbed is so for every session. -/
theorem undisturbed_seenBy (hok : e.undisturbed = true) {e' : SeededEvent}
    (he : e.seenBy k = some e') : Seeding.undisturbed e' = true := by
  cases e with
  | swarm e =>
    obtain rfl := Option.some.inj he
    exact hok
  | session j ev =>
    obtain rfl := Option.some.inj he
    by_cases hjk : j = k
    · rw [if_pos hjk]
      cases ev <;> first | rfl | exact hok
    · rw [if_neg hjk]
      rfl
  | seeder j =>
    simp only [SeedersEvent.seenBy] at he
    split at he
    · obtain rfl := Option.some.inj he
      rfl
    · cases he

end View

/-! ## Runs -/

section Runs

variable {sha1 : List UInt8 → List UInt8} {peers : List (Option Seed)} {seed : Seed} {info : Info}
  {infoHash peerId : List UInt8} {c : Coordinator} {s s' : Seeders} {e : SeedersEvent} {k : Nat}

/-- What a session with a seeder sees of a reachable state is reachable. -/
theorem reachable_at (hseed : seederOf peers k = some seed)
    (hr : (seedersSystem sha1 peers c).Reachable s) :
    (seededSystem sha1 seed k c).Reachable (s.at k) := by
  have hinit : (seedersSystem sha1 peers c).init.at k = (seededSystem sha1 seed k c).init := rfl
  refine hr.project (Seeders.at · k) hinit fun s e s' h => ?_
  have hseen := seen_step hseed h
  split at hseen
  · exact .inr ⟨_, hseen⟩
  · exact .inl hseen

/-- Every run with seeders is a run. -/
theorem reachable_swarm_of_seeders (hr : (seedersSystem sha1 peers c).Reachable s) :
    (c.system sha1).Reachable s.swarm := by
  refine hr.project Seeders.swarm rfl fun s e s' h => ?_
  rcases swarm_of_seedersStep h with ⟨ev, hw, -⟩ | ⟨hsame, -⟩
  · exact .inr ⟨ev, hw⟩
  · exact .inl hsame

/-- Every session with a seeder is attended. -/
def Seeders.Inv (sha1 : List UInt8 → List UInt8) (peers : List (Option Seed)) (s : Seeders) :
    Prop :=
  ∀ k seed, seederOf peers k = some seed → (s.at k).Inv sha1 seed k

/-- The work left to all sessions with a seeder and their seeders. -/
def Seeders.workLeft (peers : List (Option Seed)) (s : Seeders) : Nat :=
  ∑ k ∈ seeded peers, (s.at k).workLeft k

/-- Session `k` or its seeder takes the step. -/
def SeedersEvent.isOf (k : Nat) : SeedersEvent → Bool
  | .swarm _ => false
  | .session j _ | .seeder j => j == k

/-- One step of an undisturbed run, as session `k` sees it. -/
theorem Seeders.Inv.step_at (hnew : Coordinator.new info infoHash peerId = .ok c)
    (hr : (seedersSystem sha1 peers c).Reachable s) (hi : s.Inv sha1 peers)
    (hok : e.undisturbed = true) (h : seedersStep sha1 peers s e = some s')
    (hseed : seederOf peers k = some seed) :
    (s'.at k).Inv sha1 seed k ∧
      (s'.at k).workLeft k + (e.isOf k).toNat ≤ (s.at k).workLeft k := by
  have hseen := seen_step hseed h
  have hk := hi k seed hseed
  split at hseen
  · rename_i e' he'
    obtain ⟨hinv, hwork⟩ :=
      hk.step hnew (reachable_at hseed hr) (undisturbed_seenBy hok he') hseen
    refine ⟨hinv, ?_⟩
    have hle : (e.isOf k).toNat ≤ e'.isSeeding.toNat := by
      cases e with
      | swarm e => exact Nat.zero_le _
      | session j ev =>
        obtain rfl := Option.some.inj he'
        by_cases hjk : j = k <;> simp [SeedersEvent.isOf, SeededEvent.isSeeding, hjk]
      | seeder j =>
        simp only [SeedersEvent.seenBy] at he'
        split at he'
        · obtain rfl := Option.some.inj he'
          exact Bool.toNat_le _
        · cases he'
    omega
  · rename_i hnone
    rw [hseen]
    refine ⟨hk, ?_⟩
    cases e with
    | swarm e => cases hnone
    | session j ev => cases hnone
    | seeder j =>
      simp only [SeedersEvent.seenBy] at hnone
      split at hnone
      · cases hnone
      · rename_i hjk
        simp [SeedersEvent.isOf, hjk]

/-- A step of a session with a seeder, or of its seeder, is one of a session with a seeder. -/
theorem exists_isOf (h : seedersStep sha1 peers s e = some s') (he : e.isSeeding = true) :
    ∃ k ∈ seeded peers, e.isOf k = true := by
  rcases seedersStep_cases h with ⟨ev, w, rfl, -⟩ | ⟨j, ev, seed, t, rfl, hseed, -⟩ |
    ⟨j, seed, t, rfl, hseed, -⟩
  · cases he
  · exact ⟨j, mem_seeded.mpr ⟨seed, hseed⟩, beq_self_eq_true j⟩
  · exact ⟨j, mem_seeded.mpr ⟨seed, hseed⟩, beq_self_eq_true j⟩

/-- One step of an undisturbed run. -/
theorem Seeders.Inv.step (hnew : Coordinator.new info infoHash peerId = .ok c)
    (hr : (seedersSystem sha1 peers c).Reachable s) (hi : s.Inv sha1 peers)
    (hok : e.undisturbed = true) (h : seedersStep sha1 peers s e = some s') :
    s'.Inv sha1 peers ∧ s'.workLeft peers + e.isSeeding.toNat ≤ s.workLeft peers := by
  refine ⟨fun k seed hseed => (hi.step_at hnew hr hok h hseed).1, ?_⟩
  have hle : ∀ k ∈ seeded peers,
      (s'.at k).workLeft k + (e.isOf k).toNat ≤ (s.at k).workLeft k := by
    intro k hk
    obtain ⟨seed, hseed⟩ := mem_seeded.mp hk
    exact (hi.step_at hnew hr hok h hseed).2
  have hsum := Finset.sum_le_sum hle
  rw [Finset.sum_add_distrib] at hsum
  have hone : e.isSeeding.toNat ≤ ∑ k ∈ seeded peers, (e.isOf k).toNat := by
    cases he : e.isSeeding with
    | false => exact Nat.zero_le _
    | true =>
      obtain ⟨k, hk, hof⟩ := exists_isOf h he
      have hterm := Finset.single_le_sum (f := fun k => (e.isOf k).toNat)
        (fun k _ => Nat.zero_le _) hk
      simpa [hof] using hterm
  unfold Seeders.workLeft
  omega

/-- A step of session `k` or its seeder is one of the run. -/
theorem seedersStep_of_seeding (hseed : seederOf peers k = some seed) {e' : SeededEvent}
    {t : Seeded} (hok : Seeding.undisturbed e' = true) (he : e'.isSeeding = true)
    (h : seededStep sha1 seed k (s.at k) e' = some t) :
    ∃ e s', SeedersEvent.undisturbed e = true ∧ e.isSeeding = true ∧
      seedersStep sha1 peers s e = some s' := by
  cases e' with
  | swarm e => cases he
  | own ev =>
    refine ⟨.session k ev, s.put k t, ?_, rfl, ?_⟩
    · cases ev <;> first | rfl | cases hok
    · rw [seedersStep, hseed, Option.bind_some, h, Option.map_some]
  | seeder =>
    refine ⟨.seeder k, s.put k t, rfl, rfl, ?_⟩
    rw [seedersStep, hseed, Option.bind_some, h, Option.map_some]

/-- A session that reports that the torrent is complete can go on doing it. -/
theorem report_can_step {p : Session} (hp : s.swarm.procs[k]? = some p) (hrep : p.Reports)
    (hother : seederOf peers k = none) :
    ∃ e s', SeedersEvent.undisturbed e = true ∧ e.isReport = true ∧
      seedersStep sha1 peers s e = some s' := by
  have hgo : ∀ ev : SessionEvent, (Session.step sha1 s.swarm.shared p ev).isSome = true →
      ∃ s', seedersStep sha1 peers s (.swarm (.proc k ev)) = some s' := by
    intro ev hstep
    obtain ⟨⟨c', p'⟩, hrun⟩ := Option.isSome_iff_exists.mp hstep
    have hpool : (Download.swarm sha1).poolStep s.swarm (.proc k ev) =
        some ⟨c', s.swarm.procs.set k p'⟩ := by
      rw [PoolProgram.poolStep, hp, Option.bind_some]
      show Option.map _ (Session.step sha1 s.swarm.shared p ev) = _
      rw [hrun]
      rfl
    refine ⟨⟨⟨c', s.swarm.procs.set k p'⟩, s.links⟩, ?_⟩
    rw [seedersStep, isSeeded, hother, if_neg (by simp), hpool]
    rfl
  rcases hrep with ⟨piece, hph⟩ | hph
  · obtain ⟨s', hs'⟩ := hgo .emit (by simp [Session.step, hph])
    exact ⟨_, s', rfl, rfl, hs'⟩
  · obtain ⟨s', hs'⟩ := hgo .signal (by simp [Session.step, hph])
    exact ⟨_, s', rfl, rfl, hs'⟩

/-- The tracker has the pieces that the seeders have between them. -/
theorem Seeders.Inv.numPieces_tracker (hnew : Coordinator.new info infoHash peerId = .ok c)
    (hr : (seedersSystem sha1 peers c).Reachable s) (hi : s.Inv sha1 peers)
    (hcover : ∀ i < c.geometry.numPieces, ∃ k seed, seederOf peers k = some seed ∧
      seed.offered.has i = true) :
    s.swarm.shared.tracker.numPieces = c.geometry.numPieces := by
  have hpos := (Coordinator.start_sound sha1 hnew).wellFormed.numPieces_pos
  obtain ⟨k, seed, hseed, -⟩ := hcover 0 hpos
  have hgeometry := (Coordinator.extends_start (reachable_swarm_of_seeders hr)).geometry
  exact (hi k seed hseed).feeds.tracker.trans (congrArg Geometry.numPieces hgeometry)

/-- Unless all sessions with a seeder have ended, some step can be taken: one of these sessions
or seeders can go on, or the session that tells them that the torrent is complete. -/
theorem Seeders.Inv.can_step (hnew : Coordinator.new info infoHash peerId = .ok c)
    (hr : (seedersSystem sha1 peers c).Reachable s) (hi : s.Inv sha1 peers)
    (hcover : ∀ i < c.geometry.numPieces, ∃ k seed, seederOf peers k = some seed ∧
      seed.offered.has i = true)
    (hthere : ∀ k ∈ seeded peers, k < s.swarm.procs.length) :
    (∀ k ∈ seeded peers, ∃ p result, s.swarm.procs[k]? = some p ∧ p.phase = .finished result) ∨
      ∃ e s', SeedersEvent.undisturbed e = true ∧ (e.isSeeding = true ∨ e.isReport = true) ∧
        seedersStep sha1 peers s e = some s' := by
  have hreach := reachable_swarm_of_seeders hr
  have hsound := Coordinator.sound hnew hreach
  rw [or_iff_not_imp_right]
  intro hstuck
  -- nobody can take a step: a session with a seeder has ended or rests
  have hrests : ∀ k seed p, seederOf peers k = some seed → s.swarm.procs[k]? = some p →
      (∃ result, p.phase = .finished result) ∨ Resting seed s.swarm.shared p := by
    intro k seed p hseed hp
    by_cases hend : ∃ result, p.phase = .finished result
    · exact .inl hend
    rcases (hi k seed hseed).can_step hsound hp fun result hph => hend ⟨result, hph⟩ with
      ⟨e', t, hok, he, hstep⟩ | hrest
    · obtain ⟨e, s', hok', he', hs'⟩ := seedersStep_of_seeding hseed hok he hstep
      exact absurd ⟨e, s', hok', .inl he', hs'⟩ hstuck
    · exact .inr hrest
  have hnum := hi.numPieces_tracker hnew hr hcover
  have hcomplete : s.swarm.shared.tracker.isComplete = true := by
    refine (PieceTracker.isComplete_iff _).mpr fun i hlt => ?_
    obtain ⟨k, seed, hseed, hoffer⟩ := hcover i (hnum ▸ hlt)
    have hk := hthere k (mem_seeded.mpr ⟨seed, hseed⟩)
    have hp := List.getElem?_eq_getElem hk
    rcases hrests k seed _ hseed hp with ⟨result, hph⟩ | hrest
    · have ht := ((hi k seed hseed).attended _ hp).tended
      rw [hph] at ht
      exact (PieceTracker.isComplete_iff _).mp ht.2 i hlt
    · exact hrest.had i hoffer
  intro k hk
  obtain ⟨seed, hseed⟩ := mem_seeded.mp hk
  have hp := List.getElem?_eq_getElem (hthere k hk)
  rcases hrests k seed _ hseed hp with ⟨result, hph⟩ | hrest
  · exact ⟨_, result, hp, hph⟩
  -- a session that rests has the signal still to come
  have hseen := unsignalled_reachable hnew hreach (List.mem_of_getElem? hp) (.inr hrest.selecting)
    hrest.choked hrest.current
  have hversion : s.swarm.shared.done.version = 0 := by
    by_contra hne
    have hchanged := hrest.unsignalled
    rw [Watch.changed, hseen, if_pos hne] at hchanged
    cases hchanged
  rcases signalOwed hnew hreach hcomplete with hpos | ⟨j, q, hq, hrep⟩
  · omega
  refine absurd ?_ hstuck
  cases hother : seederOf peers j with
  | none =>
    obtain ⟨e, s', hok, he, hs'⟩ := report_can_step hq hrep hother
    exact ⟨e, s', hok, .inr he, hs'⟩
  | some seed' =>
    rcases hrests j seed' q hother hq with ⟨result, hph⟩ | hrest'
    · rcases hrep with ⟨piece, hph'⟩ | hph' <;> cases hph.symm.trans hph'
    · rcases hrep with ⟨piece, hph'⟩ | hph' <;> cases hrest'.selecting.symm.trans hph'

/-- One step of an undisturbed run pays for the report it makes. -/
theorem reports_paid_seeders (hnew : Coordinator.new info infoHash peerId = .ok c)
    (hr : (seedersSystem sha1 peers c).Reachable s) (h : seedersStep sha1 peers s e = some s') :
    e.isReport.toNat + s'.swarm.procs.countP Session.sends + reportsPaid s.swarm ≤
      s.swarm.procs.countP Session.sends + reportsPaid s'.swarm := by
  have hsound := Coordinator.sound hnew (reachable_swarm_of_seeders hr)
  rcases swarm_of_seedersStep h with ⟨ev, hw, hle⟩ | ⟨hsame, hnone⟩
  · have hpaid := reports_paid_step hsound hw
    omega
  · rw [hsame, hnone]
    exact Nat.le_of_eq (by rw [Bool.toNat_false, Nat.zero_add])

/-- A run pays for all its reports. -/
theorem countP_report_le (hnew : Coordinator.new info infoHash peerId = .ok c)
    {run : List (Transition Seeders SeedersEvent)}
    (hr : (seedersSystem sha1 peers c).History run s) :
    run.countP (fun t => t.event.isReport) + s.swarm.procs.countP Session.sends ≤
      reportsPaid s.swarm := by
  refine hr.invariant (P := fun run s => run.countP (fun t => t.event.isReport) +
    s.swarm.procs.countP Session.sends ≤ reportsPaid s.swarm) (Nat.zero_le _) ?_
  intro run s e s' hh hle _ hs
  have hstep := reports_paid_seeders hnew ⟨_, hh⟩ hs
  rw [System.countP_snoc]
  omega

end Runs

/-- Seeders that have every piece between them are enough. In every run of a coordinator in which
no command is given and some peers are seeders of some of the pieces, whatever all other peers
do, the steps of the seeders and their sessions are bounded, and so are the reports of the others;
a session with a seeder only ends well, with the torrent complete; and once all these sessions
are spawned, they have all ended or one of these steps can be taken. -/
theorem seeders_complete_together {sha1 : List UInt8 → List UInt8} {info : Info}
    {infoHash peerId : List UInt8} {c : Coordinator}
    (hnew : Coordinator.new info infoHash peerId = .ok c) {peers : List (Option Seed)}
    (hoffers : ∀ k seed, seederOf peers k = some seed → seed.Offers sha1 info)
    (hcover : ∀ i < c.geometry.numPieces, ∃ k seed, seederOf peers k = some seed ∧
      seed.offered.has i = true)
    {run : List (Transition Seeders SeedersEvent)} {s : Seeders}
    (hr : (seedersSystem sha1 peers c).HistoryWhere (fun _ e => e.undisturbed = true) run s) :
    (c.system sha1).Reachable s.swarm ∧
      run.countP (fun t => t.event.isSeeding) ≤ (seeded peers).card *
        (19 + 7 * ∑ i ∈ Finset.range c.geometry.numPieces, c.geometry.numBlocks i) ∧
      run.countP (fun t => t.event.isReport) ≤ c.geometry.numPieces + s.swarm.procs.length ∧
      (∀ k ∈ seeded peers, ∀ p, s.swarm.procs[k]? = some p → p.phase ≠ .panicked ∧
        ∀ result, p.phase = .leaving result ∨ p.phase = .finished result →
          result = .ok () ∧ s.swarm.shared.tracker.isComplete = true) ∧
      ((∀ k ∈ seeded peers, k < s.swarm.procs.length) →
        (∀ k ∈ seeded peers, ∃ p, s.swarm.procs[k]? = some p ∧ p.phase = .finished (.ok ())) ∨
          ∃ e s', e.undisturbed = true ∧ (e.isSeeding = true ∨ e.isReport = true) ∧
            (seedersSystem sha1 peers c).step s e = some s') := by
  have hinv : ∀ {run s}, (seedersSystem sha1 peers c).HistoryWhere
      (fun _ e => e.undisturbed = true) run s → s.Inv sha1 peers := by
    intro run s hr
    refine hr.state_invariant (fun k seed hseed => inv_init hnew (hoffers k seed hseed)) ?_
    exact fun s e s' hreach hi hok h => (hi.step hnew hreach hok h).1
  have hreach : (seedersSystem sha1 peers c).Reachable s := ⟨_, hr.history⟩
  have hi := hinv hr
  have hends : ∀ k ∈ seeded peers, ∀ p, s.swarm.procs[k]? = some p → p.phase ≠ .panicked ∧
      ∀ result, p.phase = .leaving result ∨ p.phase = .finished result →
        result = .ok () ∧ s.swarm.shared.tracker.isComplete = true := by
    intro k hk p hp
    obtain ⟨seed, hseed⟩ := mem_seeded.mp hk
    exact ((hi k seed hseed).attended p hp).ends_well
  refine ⟨reachable_swarm_of_seeders hreach, ?_, ?_, hends, fun hthere => ?_⟩
  · have hle := hr.countP_le SeedersEvent.isSeeding (Seeders.workLeft peers)
      fun h s e s' hh hok hs => ((hinv hh).step hnew ⟨_, hh.history⟩ hok hs).2
    have hinit : (seedersSystem sha1 peers c).init.workLeft peers = (seeded peers).card *
        (19 + 7 * ∑ i ∈ Finset.range c.geometry.numPieces, c.geometry.numBlocks i) := by
      rw [Seeders.workLeft, ← smul_eq_mul, ← Finset.sum_const]
      rfl
    omega
  · have hpaid := countP_report_le hnew hr.history
    have hle := reportsPaid_le s.swarm
    rw [hi.numPieces_tracker hnew hreach hcover] at hle
    omega
  · rcases hi.can_step hnew hreach hcover hthere with hall | hcan
    · left
      intro k hk
      obtain ⟨p, result, hp, hph⟩ := hall k hk
      obtain ⟨rfl, -⟩ := (hends k hk p hp).2 result (.inr hph)
      exact ⟨p, hp, hph⟩
    · exact .inr hcan

/-- A seeder of one piece of the torrent of two pieces. -/
def pieceSeed (i : Nat) : Seed := ⟨[0x61, 0x61], 1, 2, [i]⟩

/-- The first two peers are seeders of one piece each. -/
def pieceSeeds : List (Option Seed) := [some (pieceSeed 0), some (pieceSeed 1)]

/-- A seeder of one piece offers the content of the torrent. -/
theorem pieceSeed_offers (i : Nat) : (pieceSeed i).Offers sha1OfA twoPiecesInfo := by
  refine ⟨rfl, rfl, ⟨2, rfl, rfl⟩, ⟨[digestOfA, digestOfA], rfl, fun j hj => ?_⟩, by decide⟩
  rcases Nat.le_one_iff_eq_zero_or_eq_one.mp (Nat.le_of_lt_succ hj) with rfl | rfl <;> rfl

/-- Only the first two sessions have a seeder. -/
theorem seederOf_pieceSeeds {k : Nat} {seed : Seed} (h : seederOf pieceSeeds k = some seed) :
    seed = pieceSeed k := by
  match k with
  | 0 => exact (Option.some.inj h).symm
  | 1 => exact (Option.some.inj h).symm
  | _ + 2 => cases h

/-- The first two sessions have a seeder. -/
theorem seederOf_of_lt {k : Nat} (hk : k < 2) : seederOf pieceSeeds k = some (pieceSeed k) := by
  rcases Nat.le_one_iff_eq_zero_or_eq_one.mp (Nat.le_of_lt_succ hk) with rfl | rfl <;> rfl

/-- The events of a session and its seeder in a run with several. -/
def sessionOf (k : Nat) : SeededEvent → SeedersEvent
  | .swarm e => .swarm e
  | .own e => .session k e
  | .seeder => .seeder k

/-- A session joins, and takes the one piece its seeder has. -/
def takePiece (k : Nat) : List SeededEvent :=
  [.seeder, .own (.connect (.ok ())), .own (.sendInterested (.ok ())), .seeder, .seeder,
    .seeder] ++ iteration 0 (.bitfield (pieceSeed k).offered.toMessageBytes) ++
    iteration 0 .unchoke ++ iteration 1 (.piece ⟨k.toUInt32, 0, [0x61]⟩) ++ [.own .emit]

/-- The first session waits for the second one to complete the torrent. -/
def togetherRun : List SeedersEvent :=
  [.swarm (.spawn (.v4 0 0)), .swarm (.spawn (.v4 1 0))] ++ (takePiece 0).map (sessionOf 0) ++
    [.session 0 .poll, .session 0 .proceed, .session 0 .refilled] ++
    (takePiece 1).map (sessionOf 1) ++
    [.session 1 .signal, .session 1 .cleanup, .session 0 .doneChanged, .session 0 .cleanup]

/-- Both sessions have ended. -/
def Seeders.bothEnded (s : Seeders) : Bool :=
  s.swarm.procs.length == 2 && s.swarm.procs.all fun p => p.phase matches .finished _

/-- Two seeders of one piece each complete the torrent. -/
theorem seeders_complete_together_twoPieces : ∃ s,
    (twoPieces.system sha1OfA).Reachable s ∧ s.procs.length = 2 ∧
      (∀ p ∈ s.procs, p.phase = .finished (.ok ())) ∧
      s.shared.tracker.isComplete = true := by
  obtain ⟨run, s, hr, hended⟩ : ∃ run s, (seedersSystem sha1OfA pieceSeeds twoPieces).HistoryWhere
      (fun _ e => e.undisturbed = true) run s ∧ s.bothEnded = true :=
    System.HistoryWhere.exists_of_execWhile _ (P := fun s : Seeders => s.bothEnded = true)
      (fun _ e => e.undisturbed) (fun _ _ h => h) togetherRun (by decide +kernel)
  have hoffers : ∀ k seed, seederOf pieceSeeds k = some seed →
      seed.Offers sha1OfA twoPiecesInfo := by
    intro k seed hseed
    rw [seederOf_pieceSeeds hseed]
    exact pieceSeed_offers k
  have hcover : ∀ i < twoPieces.geometry.numPieces, ∃ k seed,
      seederOf pieceSeeds k = some seed ∧ seed.offered.has i = true := by
    intro i hi
    refine ⟨i, pieceSeed i, seederOf_of_lt hi, ?_⟩
    rcases Nat.le_one_iff_eq_zero_or_eq_one.mp (Nat.le_of_lt_succ hi) with rfl | rfl <;> rfl
  obtain ⟨hreach, -, -, hends, -⟩ :=
    seeders_complete_together twoPieces_new hoffers hcover hr
  obtain ⟨hlength, hall⟩ := (Bool.and_eq_true_iff ..).mp hended
  have hone : ∀ k < 2, ∀ p, s.swarm.procs[k]? = some p → p.phase = .finished (.ok ()) ∧
      s.swarm.shared.tracker.isComplete = true := by
    intro k hk p hp
    have hmem := mem_seeded.mpr ⟨pieceSeed k, seederOf_of_lt hk⟩
    have hph := List.all_eq_true.mp hall p (List.mem_of_getElem? hp)
    cases hphase : p.phase with
    | finished result =>
      obtain ⟨rfl, hcomplete⟩ := (hends k hmem p hp).2 result (.inr hphase)
      exact ⟨rfl, hcomplete⟩
    | _ =>
      rw [hphase] at hph
      cases hph
  have htwo : s.swarm.procs.length = 2 := eq_of_beq hlength
  refine ⟨s.swarm, hreach, htwo, fun p hp => ?_, ?_⟩
  · obtain ⟨k, hk⟩ := List.getElem?_of_mem hp
    exact (hone k (htwo ▸ (List.getElem?_eq_some_iff.mp hk).1) p hk).1
  · exact (hone 0 (by decide) _ (List.getElem?_eq_getElem (by omega))).2

end Torrentina.Seeding
