import Torrentina.Seeding.Steps

/-!
# One honest seeder is enough

Whatever the other sessions and their peers do, a session that talks to an
honest seeder never fails and never waits in vain, its steps and the seeder's are
bounded by the size of the torrent, and when it ends the torrent is complete.
-/

namespace Torrentina.Seeding

open Torrentina.Core Peer Download Disk

section Own

variable {sha1 : List UInt8 → List UInt8} {seed : Seed} {c c' : Shared} {p p' : Session}
  {l l' : Link} {e : SessionEvent}

/-- With every piece on offer, the running branch takes a piece or ends the session. -/
theorem reserve_attended (hfeed : seed.Feeds sha1 c) (hcur : p.current = none)
    (hch : p.choked = false) (hhas : p.peerHas = seed.offered) (hw : seed.Whole)
    (hph : (Session.reserve c p).2.phase = .refilling) :
    (Session.reserve c p).2.current ≠ none := by
  intro hnone
  unfold Session.reserve at hph hnone
  rw [hcur, hch] at hph hnone
  simp only [Option.isNone_none, Bool.not_false, Bool.and_self, if_true] at hph hnone
  unfold PieceTracker.reservePiece at hph hnone
  cases hr : c.tracker.rarestNeeded p.peerHas true with
  | some index =>
    simp only [hr] at hnone
    cases hnone
  | none =>
    simp only [hr] at hph hnone
    split at hph
    · cases hph
    · rename_i hdone
      rw [if_neg hdone] at hnone
      unfold PieceTracker.reservePieceEndgame at hnone
      cases he : c.tracker.rarestNeeded p.peerHas false with
      | some index =>
        simp only [he] at hnone
        cases hnone
      | none =>
        -- nothing is missing that the seeder has, so the torrent is complete
        refine hdone ((PieceTracker.isComplete_iff _).mpr fun j hj => ?_)
        have hnot := PieceTracker.rarestNeeded_eq_none_iff.mp he j hj
        by_contra hn
        have hoff : p.peerHas.has j = true := by
          rw [hhas]
          refine hw j ?_
          rw [hfeed.numPieces, ← hfeed.tracker]
          exact hj
        exact hnot ⟨Bool.not_eq_true _ ▸ hn, hoff, fun h => by cases h⟩

/-- What the session receives is the oldest message of the seeder. -/
theorem carry_recv (halive : l.phase ≠ .ended) {r : Except Error (Option Message)}
    (hcarry : l.carry c.geometry p (.recv r) = some l') :
    ∃ m rest, l.toSession = m :: rest ∧ r = received m ∧ l' = { l with toSession := rest } := by
  simp only [Link.carry] at hcarry
  split at hcarry
  · rename_i m rest hm
    split at hcarry
    · rename_i hr
      exact ⟨m, rest, hm, hr, (Option.some.inj hcarry).symm⟩
    · cases hcarry
  · rw [if_neg fun h => halive h.1] at hcarry
    cases hcarry

/-- What is under way to the session reads back as it was sent. -/
theorem Attended.received (h : Attended seed c p l) (hc : c.Sound sha1) (hp : p.Sound sha1 c)
    (hfeed : seed.Feeds sha1 c) {m : Message} {rest : List Message}
    (hm : l.toSession = m :: rest) : received m = .ok (some m) := by
  obtain ⟨greeting, hello, i, lo, a, q, hf⟩ := h.flight
  rcases hf.head h.alive hm with ⟨rfl, -⟩ | ⟨rfl, -⟩ | ⟨a', rfl, rfl, hch, -⟩
  · exact received_of_fits hfeed.length_greeting
  · exact received_of_fits (by simp [Message.body, maxMessageLen])
  · cases hcur : p.current with
    | none => exact absurd (hf.idle hcur).1 (Nat.succ_ne_zero a')
    | some asm =>
      obtain ⟨rfl, -, -, -, hlo, -⟩ := hf.busy asm hcur
      exact received_of_fits
        (seed.length_reply hc.wellFormed (hp.current asm hcur).1 hlo)

/-- The block under way goes to the piece in progress. -/
theorem Attended.current_of_piece (h : Attended seed c p l) {block : Block} {rest : List Message}
    (hm : l.toSession = .piece block :: rest) : ∃ asm, p.current = some asm := by
  obtain ⟨greeting, hello, i, lo, a, q, hf⟩ := h.flight
  rcases hf.head h.alive hm with ⟨hm', -⟩ | ⟨hm', -⟩ | ⟨a', rfl, -⟩
  · cases hm'
  · cases hm'
  · cases hcur : p.current with
    | none => exact absurd (hf.idle hcur).1 (Nat.succ_ne_zero a')
    | some asm => exact ⟨asm, rfl⟩

/-- A block of the seeder is received. -/
theorem Attended.ownPiece (h : Attended seed c p l) (hc : c.Sound sha1) (hp : p.Sound sha1 c)
    (hfeed : seed.Feeds sha1 c) {block : Block} {rest : List Message}
    (hm : l.toSession = .piece block :: rest)
    (hstep : Session.Step sha1 c p (.recv (.ok (some (.piece block)))) c' p') :
    Advanced seed c p l c' p' { l with toSession := rest } := by
  have hx := hstep.extends
  have hserved := hstep.served hc hp h.served
  have hg := hc.wellFormed
  obtain ⟨asm₀, hcur₀⟩ := h.current_of_piece hm
  have hi₀ := (hp.current asm₀ hcur₀).1
  obtain ⟨greeting, hello, i, lo, a, q, hf⟩ := h.flight
  obtain ⟨hidx, asm₁, a', rfl, hadd₁, hindex₁, hholds, hdone, hbytes, -⟩ :=
    hf.answer hfeed hg h.alive hcur₀ hi₀ hm
  obtain ⟨rfl, -⟩ := hf.busy asm₀ hcur₀
  cases hstep with
  | blockIgnored _ hph hne => exact absurd hidx (hne asm₀ hcur₀)
  | blockRejected _ asm err hph hcur hi ha =>
    obtain rfl := Option.some.inj (hcur₀.symm.trans hcur)
    rw [hadd₁] at ha
    cases ha
  | blockPanicked _ asm hph hcur hi ha =>
    obtain rfl := Option.some.inj (hcur₀.symm.trans hcur)
    rw [hadd₁] at ha
    cases ha
  | blockAdded _ asm asm' hph hcur hi ha hd =>
    obtain rfl := Option.some.inj (hcur₀.symm.trans hcur)
    exact h.blockAdded hfeed hg hph hcur hi₀ hm ha hd hx rfl (fun _ => rfl) hserved
  | pieceAlreadyHad _ asm asm' hph hcur hi ha hd hh =>
    obtain rfl := Option.some.inj (hcur₀.symm.trans hcur)
    refine h.pieceDone hfeed hg hph hcur hi₀ hm ha hd hx rfl (fun j => ?_) ?_ ?_ ?_ ?_ hserved
    · by_cases hj : j = asm₀.index
      · rw [hj]
        simpa using hh
      · simp [hj]
    all_goals
      split
      · simp [Tended, phaseCost]
      · simp [Tended, phaseCost]
  | pieceVerified _ asm asm' hph hcur hi ha hd hh hv =>
    obtain rfl := Option.some.inj (hcur₀.symm.trans hcur)
    refine h.pieceDone hfeed hg hph hcur hi₀ hm ha hd hx rfl (fun j => ?_) trivial ?_ ?_ ?_ hserved
    · have hlt : asm₀.index < c.tracker.numPieces := hfeed.tracker ▸ hi₀
      simp [hlt]
    · simp [phaseCost]
    · exact Phase.noConfusion
    · exact Phase.noConfusion
  | pieceBadHash _ asm asm' hph hcur hi ha hd hh hv =>
    obtain rfl := Option.some.inj (hcur₀.symm.trans hcur)
    rw [hadd₁] at ha
    obtain rfl := Except.ok.inj ha
    rw [PieceTracker.verify, hfeed.hash _ hi₀, hbytes hd] at hv
    simp at hv
  | messageIgnored _ hph hmatch => cases hmatch

/-- A message of the seeder is received. -/
theorem Attended.ownRecv (h : Attended seed c p l) (hc : c.Sound sha1) (hp : p.Sound sha1 c)
    (hfeed : seed.Feeds sha1 c) {r : Except Error (Option Message)}
    (hcarry : l.carry c.geometry p (.recv r) = some l')
    (hstep : Session.Step sha1 c p (.recv r) c' p') : Advanced seed c p l c' p' l' := by
  obtain ⟨m, rest, hm, rfl, rfl⟩ := carry_recv h.alive hcarry
  rw [h.received hc hp hfeed hm] at hstep
  have hx := hstep.extends
  have hserved := hstep.served hc hp h.served
  obtain ⟨greeting, hello, i, lo, a, q, hf⟩ := h.flight
  rcases hf.head h.alive hm with ⟨rfl, -⟩ | ⟨rfl, -⟩ | ⟨a', -, rfl, -⟩
  · cases hstep with
    | bitfield _ newHas hph hb =>
      rw [hfeed.offered_eq] at hb
      obtain rfl := Except.ok.inj hb
      exact h.bitfield hph hm hx rfl (fun _ => by simp) hserved
    | bitfieldRejected _ err hph hb =>
      rw [hfeed.offered_eq] at hb
      cases hb
    | messageIgnored _ hph hmatch => cases hmatch
  · cases hstep with
    | unchoke hph => exact h.unchoke hph hm hx rfl (fun _ => rfl) hserved
    | messageIgnored _ hph hmatch => cases hmatch
  · exact h.ownPiece hc hp hfeed hm hstep

/-- In quiet a session sees no change of the control channel. -/
theorem changed_eq_none (h : Attended seed c p l) (hq : Quiet c) :
    c.control.changed p.controlSeen = none := by
  rw [Watch.changed, h.controlSeen, hq.senderAlive]
  simp

/-- The completion signal is only seen once the torrent is complete. -/
theorem complete_of_changed (hc : c.Sound sha1) (hp : p.Sound sha1 c) {r : Except Unit Nat}
    (h : c.done.changed p.doneSeen = some r) : c.tracker.isComplete = true := by
  refine hc.done_complete ?_
  have hle := hp.doneSeen
  unfold Watch.changed at h
  split at h
  · omega
  · rw [if_pos hc.done_sender] at h
    cases h

/-- A step of the session that its link lets happen. -/
theorem Attended.own (h : Attended seed c p l) (hc : c.Sound sha1) (hp : p.Sound sha1 c)
    (hq : Quiet c) (hfeed : seed.Feeds sha1 c) (he : e ≠ .timeout)
    (hcarry : l.carry c.geometry p e = some l')
    (hrun : Session.step sha1 c p e = some (c', p')) : Advanced seed c p l c' p' l' := by
  have hstep := Session.step_cases hrun
  have hx := hstep.extends
  have hserved := hstep.served hc hp h.served
  have hg := hc.wellFormed
  have hs := sameControl_of_step hstep
  have hseen : p.controlSeen = c'.control.version := h.controlSeen.trans hs.version.symm
  have hsame : ∀ phase, SameWork p { p with phase } := fun _ => ⟨rfl, rfl, rfl, rfl, rfl⟩
  have hlost : l.phase ≠ .ended := h.alive
  by_cases hr : ∃ r, e = .recv r
  · obtain ⟨r, rfl⟩ := hr
    exact h.ownRecv hc hp hfeed hcarry hstep
  cases hstep with
  | connected hph =>
    simp only [Link.carry] at hcarry
    split at hcarry
    · cases hcarry
    · rename_i hacc
      obtain rfl := Option.some.inj hcarry
      exact h.moved hx (fun _ => rfl) (hsame _) hseen trivial hacc hserved (by simp) (by simp)
        (by simp [hph, phaseCost])
  | connectFailed err hph => cases hcarry
  | interested hph =>
    obtain rfl := Option.some.inj hcarry
    exact h.introduced hph (hp.emptyHanded (by rw [hph]; rfl)) hserved
  | interestedFailed err hph =>
    simp only [Link.carry, if_neg hlost] at hcarry
    cases hcarry
  | poll hph =>
    obtain rfl := Option.some.inj hcarry
    exact h.moved hx (fun _ => rfl) ⟨rfl, rfl, rfl, rfl, rfl⟩ rfl hq.value
      (h.accepted (by simp [hph])) hserved (by simp) (by simp) (by simp [hph, phaseCost])
  | cancelled hph =>
    have ht := h.tended
    rw [hph] at ht
    cases ht
  | paused hph =>
    have ht := h.tended
    rw [hph] at ht
    cases ht
  | busy hph hb =>
    obtain rfl := Option.some.inj hcarry
    refine h.moved hx (fun _ => rfl) (hsame _) hseen trivial (h.accepted (by simp [hph])) hserved
      ?_ (by simp) (by simp [hph, phaseCost])
    intro _ _ hch
    exact hb.resolve_right (by rw [hch]; exact Bool.false_ne_true)
  | reserved index hph hcur hch hres =>
    obtain rfl := Option.some.inj hcarry
    have hlt := hg.numPieces_lt
    obtain ⟨hi, hneed, -⟩ := PieceTracker.rarestNeeded_eligible (by rw [hp.peerHas]; omega) hres
    exact h.took hfeed hg hph hcur hch (hfeed.tracker ▸ hi) hneed true rfl rfl
      (fun _ => by simp) hserved
  | torrentDone hph hcur hch hr hd =>
    obtain rfl := Option.some.inj hcarry
    exact h.moved hx (fun _ => rfl) (hsame _) hseen trivial (h.accepted (by simp [hph]))
      hserved (by simp) (by simp) (by simp [hph, phaseCost])
  | endgame index hph hcur hch hr hd hend =>
    obtain rfl := Option.some.inj hcarry
    have hlt := hg.numPieces_lt
    obtain ⟨hi, hneed, -⟩ := PieceTracker.rarestNeeded_eligible (by rw [hp.peerHas]; omega) hend
    exact h.took hfeed hg hph hcur hch (hfeed.tracker ▸ hi) hneed false rfl rfl
      (fun _ => rfl) hserved
  | idle hph hcur hch hend =>
    obtain rfl := Option.some.inj hcarry
    refine h.moved hx (fun _ => rfl) (hsame _) hseen trivial (h.accepted (by simp [hph])) hserved
      (fun hw _ _ => ?_) (by simp) (by simp [hph, phaseCost])
    obtain ⟨greeting, hello, i, lo, a, q, hf⟩ := h.flight
    have hres := reserve_attended hfeed hcur hch (hf.unchoked hch).2.2 hw
    simp only [Session.step, hph] at hrun
    rw [Option.some.inj hrun] at hres
    exact hres rfl
  | resumed version hph =>
    have ht := h.tended
    rw [hph] at ht
    cases ht
  | orphaned hph =>
    have ht := h.tended
    rw [hph] at ht
    cases ht
  | requested block hph hn =>
    simp only [Link.carry, hn, Option.map_some] at hcarry
    obtain rfl := Option.some.inj hcarry
    exact h.requested hph hn hserved
  | requestFailed block err hph hn =>
    simp only [Link.carry, if_neg hlost] at hcarry
    cases hcarry
  | refilled hph hn =>
    obtain rfl := Option.some.inj hcarry
    exact h.moved hx (fun _ => rfl) (hsame _) hseen trivial (h.accepted (by simp [hph]))
      hserved (fun hw _ => h.ready hw (.inl hph)) (fun _ => hn) (by simp [hph, phaseCost])
  | controlChanged version hph hv =>
    rw [changed_eq_none h hq] at hv
    cases hv
  | controlClosed hph hv =>
    rw [changed_eq_none h hq] at hv
    cases hv
  | doneChanged r hph hv =>
    obtain rfl := Option.some.inj hcarry
    exact h.moved hx (fun _ => rfl) (hsame _) hseen ⟨rfl, complete_of_changed hc hp hv⟩
      (h.accepted (by simp [hph])) hserved (by simp) (by simp) (by simp [hph, phaseCost])
  | emitted piece complete hph =>
    obtain rfl := Option.some.inj hcarry
    refine h.moved hx (fun _ => rfl) (hsame _) hseen ?_ (h.accepted (by simp [hph])) hserved ?_ ?_
      ?_
    all_goals
      cases complete <;> simp [Tended, phaseCost, hph]
  | signalled hph =>
    obtain rfl := Option.some.inj hcarry
    exact h.moved hx (fun _ => rfl) (hsame _) hseen ⟨rfl, hp.signalling hph⟩
      (h.accepted (by simp [hph])) hserved (by simp) (by simp) (by simp [hph, phaseCost])
  | cleanedUp result hph =>
    obtain rfl := Option.some.inj hcarry
    have ht := h.tended
    rw [hph] at ht
    exact h.moved hx (fun _ => by simp) (hsame _) hseen ⟨ht.1, by simpa using ht.2⟩
      (h.accepted (by simp [hph])) hserved (by simp) (by simp) (by simp [hph, phaseCost])
  | timeout => exact absurd rfl he
  | _ => exact absurd ⟨_, rfl⟩ hr

/-- The session waits at its `select!` without a piece, every piece its seeder advertises is
had, and nothing new was signalled. -/
structure Resting (seed : Seed) (c : Shared) (p : Session) : Prop where
  selecting : p.phase = .selecting
  choked : p.choked = false
  current : p.current = none
  had : ∀ i, seed.offered.has i = true → c.tracker.has i = true
  unsignalled : c.done.changed p.doneSeen = none

/-- A session with a seeder of every piece never rests. -/
theorem Attended.not_resting (h : Attended seed c p l) (hw : seed.Whole) :
    ¬Resting seed c p :=
  fun hr => h.ready hw (.inr hr.selecting) hr.choked hr.current

/-- Waiting at the `select!` with nothing to receive, the session waits for the seeder, or
rests. -/
theorem Attended.seeder_can_step (h : Attended seed c p l) (hp : p.phase = .selecting)
    (hm : l.toSession = []) (hd : c.done.changed p.doneSeen = none) :
    (seed.step l).isSome = true ∨ Resting seed c p := by
  have hacc := h.accepted (by rw [hp]; exact Phase.noConfusion)
  cases hph : l.phase with
  | accepting => exact absurd hph hacc
  | ended => exact absurd hph h.alive
  | greeting => exact .inl (by simp [Seed.step, hph])
  | unchoking => exact .inl (by simp [Seed.step, hph])
  | serving =>
    cases hq : l.toSeeder with
    | cons m rest => exact .inl (by simp [Seed.step, hph, hq])
    | nil =>
      obtain ⟨greeting, hello, i, lo, a, q, hf⟩ := h.flight
      have hs := hf.toSession
      have hr := hf.toSeeder
      rw [hm] at hs
      rw [hq] at hr
      obtain ⟨rfl, ha⟩ := List.append_eq_nil_iff.mp hs.symm
      obtain ⟨-, hb⟩ := List.append_eq_nil_iff.mp hr.symm
      have ha0 : a = 0 := by simpa using ha
      have hq0 : q = 0 := by simpa using hb
      have hch : p.choked = false := by
        cases hch : p.choked with
        | false => rfl
        | true =>
          have hgreet := hf.greeting
          rw [hph] at hgreet
          cases hgreet with
          | advertised _ _ _ hm' => cases hm'
          | unchoked _ hch' =>
            rw [hch] at hch'
            cases hch'
      -- with nothing in flight and a block left, the refill loop would have gone on
      cases hcur : p.current with
      | none =>
        refine .inr ⟨hp, hch, hcur, fun i hi => h.served (.inr hp) hch hcur i ?_, hd⟩
        rw [(hf.unchoked hch).2.2]
        exact hi
      | some asm =>
        obtain ⟨rfl, hnext, hfly, -, hlo, -⟩ := hf.busy asm hcur
        have hn := h.refilled hp
        rw [Session.nextRequest_of_current hcur hch, if_pos] at hn
        · cases hn
        · rw [hfly, maxPipelinedRequests]
          omega

/-- A session that has not ended, or its seeder, can take a step, unless the session rests. -/
theorem Attended.can_step (h : Attended seed c p l) (hc : c.Sound sha1) (hp : p.Sound sha1 c)
    (hfeed : seed.Feeds sha1 c) (hend : ∀ result, p.phase ≠ .finished result) :
    (∃ e l', e ≠ .timeout ∧ l.carry c.geometry p e = some l' ∧
      (Session.step sha1 c p e).isSome = true) ∨ (seed.step l).isSome = true ∨
        Resting seed c p := by
  have ht := h.tended
  cases hph : p.phase with
  | connecting =>
    by_cases hacc : l.phase = .accepting
    · exact .inr (.inl (by simp [Seed.step, hacc]))
    · exact .inl ⟨.connect (.ok ()), l, by simp, by simp [Link.carry, hacc],
        by simp [Session.step, hph]⟩
  | starting =>
    exact .inl ⟨.sendInterested (.ok ()), _, by simp, rfl, by simp [Session.step, hph]⟩
  | top => exact .inl ⟨.poll, l, by simp, rfl, by simp [Session.step, hph]⟩
  | observed state =>
    rw [hph] at ht
    obtain rfl : state = .running := ht
    exact .inl ⟨.proceed, l, by simp, rfl, by simp [Session.step, hph]⟩
  | pausedWait =>
    rw [hph] at ht
    cases ht
  | panicked =>
    rw [hph] at ht
    cases ht
  | refilling =>
    cases hn : p.nextRequest c.geometry with
    | none => exact .inl ⟨.refilled, l, by simp, rfl, by simp [Session.step, hph, hn]⟩
    | some block =>
      exact .inl ⟨.request (.ok ()), _, by simp, by rw [Link.carry, hn, Option.map_some],
        by simp [Session.step, hph, hn]⟩
  | selecting =>
    cases hd : c.done.changed p.doneSeen with
    | some r => exact .inl ⟨.doneChanged, l, by simp, rfl, by simp [Session.step, hph, hd]⟩
    | none =>
      cases hm : l.toSession with
      | nil => exact .inr (h.seeder_can_step hph hm hd)
      | cons m rest =>
        have hrec := h.received hc hp hfeed hm
        refine .inl ⟨.recv (.ok (some m)), { l with toSession := rest }, by simp, ?_,
          by simp [Session.step, hph]⟩
        simp only [Link.carry, hm]
        rw [hrec, if_pos rfl]
  | sending piece complete =>
    exact .inl ⟨.emit, l, by simp, rfl, by simp [Session.step, hph]⟩
  | signalling => exact .inl ⟨.signal, l, by simp, rfl, by simp [Session.step, hph]⟩
  | leaving result => exact .inl ⟨.cleanup, l, by simp, rfl, by simp [Session.step, hph]⟩
  | finished result => exact absurd hph (hend result)

end Own

/-! ## Runs -/

section Runs

variable {sha1 : List UInt8 → List UInt8} {seed : Seed} {k : Nat} {info : Info}
  {infoHash peerId : List UInt8} {c : Coordinator}

/-- Every run with a seeder is a run. -/
theorem reachable_swarm {s : Seeded} (hr : (seededSystem sha1 seed k c).Reachable s) :
    (c.system sha1).Reachable s.swarm := by
  refine hr.project Seeded.swarm rfl fun s e s' h => ?_
  cases e with
  | swarm e =>
    simp only [seededSystem, seededStep] at h
    split at h
    · cases h
    · obtain ⟨w, hw, rfl⟩ := Option.map_eq_some_iff.mp h
      exact .inr ⟨e, hw⟩
  | own e =>
    obtain ⟨p, -, h⟩ := Option.bind_eq_some_iff.mp h
    obtain ⟨link, -, h⟩ := Option.bind_eq_some_iff.mp h
    obtain ⟨w, hw, rfl⟩ := Option.map_eq_some_iff.mp h
    exact .inr ⟨.proc k e, hw⟩
  | seeder =>
    simp only [seededSystem, seededStep] at h
    split at h
    · obtain ⟨link, -, rfl⟩ := Option.map_eq_some_iff.mp h
      exact .inl rfl
    · cases h

/-- The content of the torrent is what the coordinator was built for. -/
theorem Seed.Offers.feeds (h : seed.Offers sha1 info)
    (hnew : Coordinator.new info infoHash peerId = .ok c) : seed.Feeds sha1 c.start := by
  obtain ⟨hg, hh, -, -, -⟩ := Coordinator.new_eq_ok hnew
  obtain ⟨⟨total, htotal, hlen⟩, hpl, hnum, hwf⟩ := Geometry.fromInfo_eq_ok hg
  obtain ⟨total', htotal', hcontent⟩ := h.total
  rw [htotal] at htotal'
  obtain rfl := Except.ok.inj htotal'
  obtain ⟨hashes, hh', hhash⟩ := h.hashes
  rw [hh] at hh'
  obtain rfl := Except.ok.inj hh'
  have hfits := h.fits
  have hsmall : c.geometry.numPieces = info.numPieces := by
    rw [hnum]
    simp only [byteLen, maxMessageLen] at hfits
    omega
  have hlength : seed.content.length = c.geometry.totalLength := by rw [hlen, hcontent]
  refine ⟨h.pieceLength.trans hpl.symm, h.numPieces.trans hsmall.symm, ?_, hlength, ?_, ?_⟩
  · show c.tracker.numPieces = c.geometry.numPieces
    rw [PieceTracker.numPieces, Info.length_pieceHashes hh, hsmall]
  · intro i hi
    change i < c.geometry.numPieces at hi
    show c.tracker.pieceHashes[i]? = some (sha1 (Storage.pieceOf c.geometry seed.content i))
    rw [hhash i (hsmall ▸ hi), h.pieceLength, ← hpl, Storage.pieceOf]
    congr 2
    rw [Geometry.pieceLengthOf, Geometry.pieceOffset]
    split
    · rename_i hlast
      have hle := hwf.last_le
      have htot := hwf.total_eq
      rw [← hlast, Nat.add_sub_cancel] at htot
      rw [List.take_of_length_le, List.take_of_length_le]
      all_goals
        rw [List.length_drop, hlength]
        omega
    · rfl
  · rw [h.numPieces]
    exact hfits

/-- What holds of the whole state: nobody commands, and the session, once there, is attended. -/
structure Seeded.Inv (sha1 : List UInt8 → List UInt8) (seed : Seed) (k : Nat) (s : Seeded) :
    Prop where
  quiet : Quiet s.swarm.shared
  feeds : seed.Feeds sha1 s.swarm.shared
  absent : s.swarm.procs[k]? = none → s.link = .idle
  attended : ∀ p, s.swarm.procs[k]? = some p → Attended seed s.swarm.shared p s.link

/-- The work left to the session and its seeder, before the session is there as well. -/
def Seeded.workLeft (k : Nat) (s : Seeded) : Nat :=
  match s.swarm.procs[k]? with
  | some p => cost s.swarm.shared p s.link
  | none => 19 + 7 * ∑ i ∈ Finset.range s.swarm.shared.geometry.numPieces,
      s.swarm.shared.geometry.numBlocks i

variable {s s' : Seeded}

/-- The work left once the session is spawned. -/
theorem workLeft_of_some {p : Session} (hp : s.swarm.procs[k]? = some p) :
    s.workLeft k = cost s.swarm.shared p s.link := by
  rw [Seeded.workLeft, hp]

/-- The work left before the session is spawned. -/
theorem workLeft_of_none (hp : s.swarm.procs[k]? = none) :
    s.workLeft k = 19 + 7 * ∑ i ∈ Finset.range s.swarm.shared.geometry.numPieces,
      s.swarm.shared.geometry.numBlocks i := by
  rw [Seeded.workLeft, hp]

/-- What the others do leaves the control channel as it is, unless they command. -/
theorem sameControl_of_other {w w' : Swarm} {e : SwarmEvent} (hok : undisturbed (.swarm e) = true)
    (h : (Download.swarm sha1).poolStep w e = some w') : SameControl w.shared w'.shared := by
  cases e with
  | spawn addr =>
    obtain ⟨c', p, hs, rfl⟩ := PoolProgram.poolStep_spawn h
    obtain ⟨rfl, -⟩ := swarm_spawn hs
    exact ⟨rfl, rfl, rfl⟩
  | proc j ev =>
    obtain ⟨p, c', p', -, hs, rfl⟩ := PoolProgram.poolStep_proc h
    exact sameControl_of_step (Session.step_cases hs)
  | env ev =>
    obtain ⟨c', hs, rfl⟩ := PoolProgram.poolStep_env h
    cases ev with
    | receive =>
      obtain ⟨completed, -, rfl⟩ := Option.map_eq_some_iff.mp hs
      exact ⟨rfl, rfl, rfl⟩
    | dropReceiver =>
      obtain rfl := Option.some.inj hs
      exact ⟨rfl, rfl, rfl⟩
    | _ => cases hok

/-- Where session `k` is after a step of the others: where it was, or freshly spawned. -/
theorem procs_of_other {w w' : Swarm} {e : SwarmEvent} (hk : isProc k e = false)
    (h : (Download.swarm sha1).poolStep w e = some w') : w'.procs[k]? = w.procs[k]? ∨
      w.procs[k]? = none ∧ ∃ addr, w'.procs[k]? = some (Session.new w'.shared addr) := by
  cases hp : w.procs[k]? with
  | some p =>
    left
    refine PoolProgram.getElem?_procs_of_other h ?_ hp
    rintro ev rfl
    simp [isProc] at hk
  | none =>
    have hle := List.getElem?_eq_none_iff.mp hp
    cases e with
    | spawn addr =>
      obtain ⟨c', p, hs, rfl⟩ := PoolProgram.poolStep_spawn h
      obtain ⟨rfl, rfl⟩ := swarm_spawn hs
      rcases Nat.eq_or_lt_of_le hle with heq | hlt
      · right
        refine ⟨rfl, addr, ?_⟩
        rw [← heq, List.getElem?_concat_length]
        rfl
      · left
        refine List.getElem?_eq_none ?_
        rw [List.length_append, List.length_singleton]
        exact hlt
    | proc j ev =>
      left
      obtain ⟨p, c', p', -, hs, rfl⟩ := PoolProgram.poolStep_proc h
      exact List.getElem?_eq_none (by simpa using hle)
    | env ev =>
      left
      obtain ⟨c', hs, rfl⟩ := PoolProgram.poolStep_env h
      exact hp

/-- A step of the others. -/
theorem Seeded.Inv.other (hi : s.Inv sha1 seed k) {e : SwarmEvent}
    (hok : undisturbed (.swarm e) = true) (h : seededStep sha1 seed k s (.swarm e) = some s') :
    s'.Inv sha1 seed k ∧ s'.workLeft k ≤ s.workLeft k := by
  simp only [seededStep] at h
  split at h
  · cases h
  rename_i hk
  obtain ⟨w, hw, rfl⟩ := Option.map_eq_some_iff.mp h
  have hx := swarm_extends hw
  have hs := sameControl_of_other hok hw
  have hquiet := hi.quiet.same hs
  have hfeeds := hi.feeds.extends hx
  rcases procs_of_other (Bool.not_eq_true _ ▸ hk) hw with heq | ⟨hnone, addr, hnew⟩
  · cases hp : s.swarm.procs[k]? with
    | none =>
      rw [hp] at heq
      refine ⟨⟨hquiet, hfeeds, fun _ => hi.absent hp, fun p hp' => ?_⟩, ?_⟩
      · rw [heq] at hp'
        cases hp'
      · rw [workLeft_of_none hp, workLeft_of_none (s := ⟨w, s.link⟩) heq, hx.geometry]
    | some p =>
      rw [hp] at heq
      refine ⟨⟨hquiet, hfeeds, fun hnone => ?_, fun p' hp' => ?_⟩, ?_⟩
      · rw [heq] at hnone
        cases hnone
      · rw [heq] at hp'
        obtain rfl := Option.some.inj hp'
        exact (hi.attended p hp).extends hx hs
      · rw [workLeft_of_some hp, workLeft_of_some (s := ⟨w, s.link⟩) heq]
        exact cost_le_of_extends hx
  · have hidle := hi.absent hnone
    refine ⟨⟨hquiet, hfeeds, fun hn => ?_, fun p' hp' => ?_⟩, ?_⟩
    · rw [hnew] at hn
      cases hn
    · rw [hnew] at hp'
      obtain rfl := Option.some.inj hp'
      simp only [hidle]
      exact attended_new seed _ addr
    · rw [workLeft_of_none hnone, workLeft_of_some (s := ⟨w, s.link⟩) hnew, hidle,
        ← hx.geometry]
      exact cost_new_le _ addr

/-- A step of the session or of its seeder. -/
theorem Seeded.Inv.seeding (hi : s.Inv sha1 seed k)
    (hsound : s.swarm.shared.Sound sha1 ∧ ∀ p ∈ s.swarm.procs, p.Sound sha1 s.swarm.shared)
    {e : SeededEvent} (hok : undisturbed e = true) (he : e.isSeeding = true)
    (h : seededStep sha1 seed k s e = some s') :
    s'.Inv sha1 seed k ∧ s'.workLeft k < s.workLeft k := by
  cases e with
  | swarm e => cases he
  | own e =>
    obtain ⟨p, hp, h⟩ := Option.bind_eq_some_iff.mp h
    obtain ⟨link, hcarry, h⟩ := Option.bind_eq_some_iff.mp h
    obtain ⟨w, hw, rfl⟩ := Option.map_eq_some_iff.mp h
    obtain ⟨p₀, c', p', hp₀, hrun, rfl⟩ := PoolProgram.poolStep_proc hw
    obtain rfl := Option.some.inj (hp.symm.trans hp₀)
    have hstep := Session.step_cases hrun
    have hne : e ≠ .timeout := by
      rintro rfl
      cases hok
    obtain ⟨hatt, hlt⟩ := (hi.attended p hp).own hsound.1
      (hsound.2 p (List.mem_of_getElem? hp)) hi.quiet hi.feeds hne hcarry hrun
    have hp' : (s.swarm.procs.set k p')[k]? = some p' := by
      rw [PoolProgram.getElem?_set_proc hp, if_pos rfl]
    refine ⟨⟨hi.quiet.same (sameControl_of_step hstep), hi.feeds.extends hstep.extends,
      fun hnone => ?_, fun q hq => ?_⟩, ?_⟩
    · simp only [hp'] at hnone
      cases hnone
    · simp only [hp'] at hq
      obtain rfl := Option.some.inj hq
      exact hatt
    · rw [workLeft_of_some hp, workLeft_of_some (s := ⟨⟨c', s.swarm.procs.set k p'⟩, link⟩) hp']
      exact hlt
  | seeder =>
    simp only [seededStep] at h
    split at h
    · rename_i hlt
      obtain ⟨link, hlink, rfl⟩ := Option.map_eq_some_iff.mp h
      have hp := List.getElem?_eq_getElem hlt
      have hps := hsound.2 _ (List.mem_of_getElem? hp)
      obtain ⟨hatt, hcost⟩ := (hi.attended _ hp).seeder hi.feeds hsound.1.wellFormed
        (fun asm hasm => (hps.current asm hasm).1) hlink
      refine ⟨⟨hi.quiet, hi.feeds, fun hnone => ?_, fun q hq => ?_⟩, ?_⟩
      · rw [hp] at hnone
        cases hnone
      · rw [hp] at hq
        obtain rfl := Option.some.inj hq
        exact hatt
      · rw [workLeft_of_some hp, workLeft_of_some (s := ⟨s.swarm, link⟩) hp]
        exact hcost
    · cases h

/-- One step of an undisturbed run. -/
theorem Seeded.Inv.step (hnew : Coordinator.new info infoHash peerId = .ok c)
    (hr : (seededSystem sha1 seed k c).Reachable s) (hi : s.Inv sha1 seed k) {e : SeededEvent}
    (hok : undisturbed e = true) (h : (seededSystem sha1 seed k c).step s e = some s') :
    s'.Inv sha1 seed k ∧ s'.workLeft k + e.isSeeding.toNat ≤ s.workLeft k := by
  have hsound := Coordinator.sound hnew (reachable_swarm hr)
  cases he : e.isSeeding with
  | true => exact hi.seeding hsound hok he h
  | false =>
    cases e with
    | swarm e => exact hi.other hok h
    | own e => cases he
    | seeder => cases he

/-- Until the session has ended, it or its seeder can take a step, unless it rests. -/
theorem Seeded.Inv.can_step (hi : s.Inv sha1 seed k)
    (hsound : s.swarm.shared.Sound sha1 ∧ ∀ p ∈ s.swarm.procs, p.Sound sha1 s.swarm.shared)
    {p : Session} (hp : s.swarm.procs[k]? = some p) (hend : ∀ result, p.phase ≠ .finished result) :
    (∃ e s', undisturbed e = true ∧ e.isSeeding = true ∧
      seededStep sha1 seed k s e = some s') ∨ Resting seed s.swarm.shared p := by
  rcases (hi.attended p hp).can_step hsound.1 (hsound.2 p (List.mem_of_getElem? hp)) hi.feeds
      hend with ⟨e, link, hne, hcarry, hstep⟩ | hstep | hrest
  · obtain ⟨⟨c', p'⟩, hrun⟩ := Option.isSome_iff_exists.mp hstep
    refine .inl ⟨.own e, ⟨⟨c', s.swarm.procs.set k p'⟩, link⟩, ?_, rfl, ?_⟩
    · cases e <;> first | rfl | exact absurd rfl hne
    · rw [seededStep, hp, Option.bind_some, hcarry, Option.bind_some, PoolProgram.poolStep, hp,
        Option.bind_some]
      show (Option.map _ (Option.map _ (Session.step sha1 s.swarm.shared p e))) = _
      rw [hrun]
      rfl
  · obtain ⟨link, hlink⟩ := Option.isSome_iff_exists.mp hstep
    refine .inl ⟨.seeder, { s with link }, rfl, rfl, ?_⟩
    rw [seededStep, if_pos (List.getElem?_eq_some_iff.mp hp).1, hlink, Option.map_some]
  · exact .inr hrest

/-- The invariant holds at the start. -/
theorem inv_init (hnew : Coordinator.new info infoHash peerId = .ok c)
    (hoffers : seed.Offers sha1 info) : (seededSystem sha1 seed k c).init.Inv sha1 seed k where
  quiet := by
    obtain ⟨-, -, -, -, hc⟩ := Coordinator.new_eq_ok hnew
    constructor
    · show c.control.value = .running
      rw [hc]
      rfl
    · show c.control.senderAlive = true
      rw [hc]
      rfl
  feeds := hoffers.feeds hnew
  absent _ := rfl
  attended p hp := by cases hp

end Runs

/-- A session with a seeder does not panic, and only ends well. -/
theorem Attended.ends_well {seed : Seed} {c : Shared} {p : Session} {l : Link}
    (h : Attended seed c p l) : p.phase ≠ .panicked ∧
      ∀ result, p.phase = .leaving result ∨ p.phase = .finished result →
        result = .ok () ∧ c.tracker.isComplete = true := by
  have ht := h.tended
  refine ⟨fun hph => ?_, ?_⟩
  · rw [hph] at ht
    cases ht
  · rintro result (hph | hph)
    all_goals
      rw [hph] at ht
      exact ht

/-- One honest seeder is enough. In every run of a coordinator in which no command is given and
one session talks to a seeder of every piece, whatever the other sessions and their peers do, the
session and its seeder take a bounded number of steps; until the session has ended one of the two
can take the next one; and it only ends well, with the torrent complete. -/
theorem honest_seeder_completes {sha1 : List UInt8 → List UInt8} {info : Info}
    {infoHash peerId : List UInt8} {c : Coordinator}
    (hnew : Coordinator.new info infoHash peerId = .ok c) {seed : Seed}
    (hoffers : seed.Offers sha1 info) (hwhole : seed.Whole) (k : Nat)
    {run : List (Transition Seeded SeededEvent)} {s : Seeded}
    (hr : (seededSystem sha1 seed k c).HistoryWhere (fun _ e => undisturbed e = true) run s) :
    (c.system sha1).Reachable s.swarm ∧
      run.countP (fun t => t.event.isSeeding) ≤
        19 + 7 * ∑ i ∈ Finset.range c.geometry.numPieces, c.geometry.numBlocks i ∧
      ∀ p, s.swarm.procs[k]? = some p →
        p.phase ≠ .panicked ∧
        (∀ result, p.phase = .leaving result ∨ p.phase = .finished result →
          result = .ok () ∧ s.swarm.shared.tracker.isComplete = true) ∧
        ((∃ result, p.phase = .finished result) ∨ ∃ e s', undisturbed e = true ∧
          e.isSeeding = true ∧ (seededSystem sha1 seed k c).step s e = some s') := by
  have hinv : ∀ {run s}, (seededSystem sha1 seed k c).HistoryWhere
      (fun _ e => undisturbed e = true) run s → s.Inv sha1 seed k := by
    intro run s hr
    exact hr.state_invariant (inv_init hnew hoffers)
      fun s e s' hreach hi hok h => (hi.step hnew hreach hok h).1
  have hreach : (seededSystem sha1 seed k c).Reachable s := ⟨_, hr.history⟩
  refine ⟨reachable_swarm hreach, ?_, fun p hp => ?_⟩
  · have hle := hr.countP_le SeededEvent.isSeeding (Seeded.workLeft k)
      fun h s e s' hh hok hs => ((hinv hh).step hnew ⟨_, hh.history⟩ hok hs).2
    have hinit : (seededSystem sha1 seed k c).init.workLeft k =
        19 + 7 * ∑ i ∈ Finset.range c.geometry.numPieces, c.geometry.numBlocks i := rfl
    omega
  · have hi := hinv hr
    have hatt := hi.attended p hp
    obtain ⟨hsound, hall⟩ := Coordinator.sound hnew (reachable_swarm hreach)
    obtain ⟨hpanic, hends⟩ := hatt.ends_well
    refine ⟨hpanic, hends, ?_⟩
    by_cases hend : ∃ result, p.phase = .finished result
    · exact .inl hend
    · right
      rcases hi.can_step ⟨hsound, hall⟩ hp (fun result h => hend ⟨result, h⟩) with hcan | hrest
      · exact hcan
      · exact absurd hrest (hatt.not_resting hwhole)

/-- The seeder of the one-byte torrent. -/
def tinySeed : Seed := .whole [0x61] 1 1

/-- The seeder of the one-byte torrent offers its content. -/
theorem tinySeed_offers : tinySeed.Offers sha1OfA tinyInfo := by
  refine ⟨rfl, rfl, ⟨1, rfl, rfl⟩, ⟨[digestOfA], rfl, fun i hi => ?_⟩, by decide⟩
  obtain rfl : i = 0 := Nat.lt_one_iff.mp hi
  rfl

/-- The session's steps from the head of its loop to the `select!`, and a message. -/
def iteration (requests : Nat) (m : Message) : List SeededEvent :=
  [.own .poll, .own .proceed] ++ List.replicate requests (.own (.request (.ok ()))) ++
    [.own .refilled] ++ List.replicate requests .seeder ++ [.own (.recv (.ok (some m)))]

/-- The one-byte torrent is downloaded from its seeder. -/
def tinySeeding : List SeededEvent :=
  [.swarm (.spawn (.v4 0 0)), .seeder, .own (.connect (.ok ())), .own (.sendInterested (.ok ())),
    .seeder, .seeder, .seeder] ++
    iteration 0 (.bitfield [0x80]) ++ iteration 0 .unchoke ++ iteration 1 (.piece ⟨0, 0, [0x61]⟩) ++
    [.own .emit, .own .signal, .own .cleanup]

/-- The first session has ended. -/
def Seeded.firstEnded (s : Seeded) : Bool :=
  s.swarm.procs[0]?.any fun p => p.phase matches .finished _

/-- A session and its seeder run to the end. -/
theorem honest_seeder_completes_tiny : ∃ s p, (tiny.system sha1OfA).Reachable s ∧
    s.procs[0]? = some p ∧ p.phase = .finished (.ok ()) ∧
      s.shared.tracker.isComplete = true := by
  obtain ⟨run, s, hr, hended⟩ : ∃ run s, (seededSystem sha1OfA tinySeed 0 tiny).HistoryWhere
      (fun _ e => undisturbed e = true) run s ∧ s.firstEnded = true :=
    System.HistoryWhere.exists_of_execWhile _ (P := fun s : Seeded => s.firstEnded = true)
      (fun _ e => undisturbed e) (fun _ _ h => h) tinySeeding (by decide +kernel)
  obtain ⟨hreach, -, hall⟩ := honest_seeder_completes tiny_new tinySeed_offers
    (Seed.whole_whole [0x61] 1 1) 0 hr
  obtain ⟨p, hp, hph⟩ := (Option.any_eq_true ..).mp hended
  cases hphase : p.phase with
  | finished result =>
    obtain ⟨-, hends, -⟩ := hall p hp
    obtain ⟨rfl, hcomplete⟩ := hends result (.inr hphase)
    exact ⟨s.swarm, p, hreach, hp, hphase, hcomplete⟩
  | _ =>
    rw [hphase] at hph
    cases hph

end Torrentina.Seeding
