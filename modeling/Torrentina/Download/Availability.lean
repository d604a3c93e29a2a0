import Torrentina.Download.Coordinator

/-!
# Availability is the number of peers that advertise a piece

A session contributes to the availability of the pieces its peer advertised
until it has run its cleanup. Each handler changes a counter by exactly the
change of the session's contribution, as long as the session and the tracker
agree on the number of pieces and no `u32` counter wraps. They disagree on a
torrent of `2^32` pieces or more, whose piece count the geometry truncates.
-/

namespace Torrentina.Download

open Torrentina.Core Peer

/-- The task has returned. -/
def Phase.isFinished : Phase → Bool
  | .finished _ => true
  | _ => false

theorem isFinished_ite (b : Bool) :
    (if b = true then Phase.signalling else Phase.top).isFinished = false := by
  cases b <;> rfl

/-- A session that has not run its cleanup, with a peer that advertised piece `i`. -/
def Session.contributes (i : Nat) (p : Session) : Bool :=
  !p.phase.isFinished && p.peerHas.has i

/-- A message that advertises piece `i`. -/
def advertises : Message → Nat → Prop
  | .have index, i => index.toNat = i
  | .bitfield bits, i => packedBit bits i = true
  | _, _ => False

/-- A peer that is not connected has advertised nothing. -/
def Session.Fresh (p : Session) : Prop :=
  p.phase = .connecting ∨ p.phase = .starting → ∀ i, p.peerHas.has i = false

/-! ## What each operation does to one counter -/

section Counter

variable {t : PieceTracker} {i : Nat}

/-- A first `have` of a piece counts once, when it is in range. -/
theorem avail_add_have {bf : Bitfield} {index : Nat} (hn : bf.numPieces = t.numPieces)
    (hnew : bf.has index = false) (hlt : t.avail i < 2 ^ 32)
    (hfit : index = i → t.avail i + 1 < 2 ^ 32) :
    (t.addAvailability index).avail i < 2 ^ 32 ∧
      (t.addAvailability index).avail i + (bf.has i).toNat =
        t.avail i + ((bf.set index).has i).toNat := by
  rw [PieceTracker.avail_addAvailability, Bitfield.has_set, hn]
  by_cases he : i = index ∧ index < t.numPieces
  · obtain ⟨rfl, hr⟩ := he
    have hf := hfit rfl
    rw [if_pos ⟨rfl, hr⟩, Nat.mod_eq_of_lt hf, hnew]
    exact ⟨hf, by simp [hr]⟩
  · rw [if_neg he, decide_eq_false he, Bool.or_false]
    exact ⟨hlt, rfl⟩

/-- Undoing a contribution that was counted does not saturate. -/
theorem avail_withdraw {bf : Bitfield} (hpos : bf.has i = true → 0 < t.avail i) :
    (t.removeBitfieldAvailability bf).avail i + (bf.has i).toNat = t.avail i := by
  rw [PieceTracker.avail_removeBitfieldAvailability]
  cases hh : bf.has i with
  | false => rfl
  | true =>
    have h0 := hpos hh
    simp only [if_true, Bool.toNat_true]
    omega

/-- A bitfield counts once for every piece it has, when the counter has room. -/
theorem avail_contribute {bf : Bitfield} (hn : bf.numPieces = t.numPieces)
    (hlt : t.avail i < 2 ^ 32) (hfit : bf.has i = true → t.avail i + 1 < 2 ^ 32) :
    (t.addBitfieldAvailability bf).avail i < 2 ^ 32 ∧
      (t.addBitfieldAvailability bf).avail i = t.avail i + (bf.has i).toNat := by
  rw [PieceTracker.avail_addBitfieldAvailability]
  cases hh : bf.has i with
  | false => simpa using hlt
  | true =>
    have hr : i < t.numPieces := hn ▸ Bitfield.lt_of_has hh
    rw [if_pos ⟨hr, rfl⟩, Nat.mod_eq_of_lt (hfit hh)]
    exact ⟨hfit hh, rfl⟩

end Counter

/-! ## One step of a session -/

section Step

variable {sha1 : List UInt8 → List UInt8} {c c' : Shared} {p p' : Session} {e : SessionEvent}

theorem Session.Step.fresh (hp : p.Fresh) (h : Step sha1 c p e c' p') : p'.Fresh := by
  intro hphase
  cases h with
  | connected hph => exact hp (.inl hph)
  | requested block hph =>
    simp only [hph] at hphase
    rcases hphase with h | h <;> cases h
  | pieceAlreadyHad =>
    rcases hphase with h | h <;> rcases ite_phase_cases h with h | ⟨h, -⟩ <;> cases h
  | emitted =>
    rcases hphase with h | h <;> rcases ite_phase_cases h with h | ⟨h, -⟩ <;> cases h
  | _ => rcases hphase with h | h <;> cases h

/-- Before its cleanup, a session contributes what its peer advertised. -/
theorem contributes_of_phase {p : Session} (h : p.phase.isFinished = false) (i : Nat) :
    p.contributes i = p.peerHas.has i := by
  rw [Session.contributes, h, Bool.not_false, Bool.true_and]

/-- One step changes a counter by the change of the session's contribution. -/
theorem Session.Step.avail (hp : p.Sound sha1 c) (hfresh : p.Fresh)
    (hn : c.geometry.numPieces = c.tracker.numPieces) (i : Nat)
    (hpos : p.contributes i = true → 0 < c.tracker.avail i) (hlt : c.tracker.avail i < 2 ^ 32)
    (hfit : ∀ m, e = .recv (.ok (some m)) → p.peerHas.has i = false → advertises m i →
      c.tracker.avail i + 1 < 2 ^ 32)
    (h : Step sha1 c p e c' p') :
    c'.tracker.avail i < 2 ^ 32 ∧ c'.tracker.avail i + (p.contributes i).toNat =
      c.tracker.avail i + (p'.contributes i).toNat := by
  cases h with
  | connectFailed err hph =>
    exact ⟨hlt, by simp [Session.contributes, hfresh (.inl hph) i]⟩
  | interestedFailed err hph =>
    exact ⟨hlt, by simp [Session.contributes, hfresh (.inr hph) i]⟩
  | haveNew index hph hnew =>
    rw [contributes_of_phase (by rw [hph]; rfl), contributes_of_phase rfl]
    refine avail_add_have (hp.peerHas.trans hn) hnew hlt ?_
    rintro rfl
    exact hfit _ rfl hnew rfl
  | bitfield bits newHas hph hb =>
    rw [contributes_of_phase (by rw [hph]; rfl)] at hpos ⊢
    rw [contributes_of_phase rfl]
    have hnew : newHas.numPieces = c.tracker.numPieces := by
      rw [Bitfield.numPieces_fromBytes hb, hn]
    have hw := avail_withdraw hpos
    -- The old contribution is gone when the new one is counted.
    have hroom : newHas.has i = true →
        (c.tracker.removeBitfieldAvailability p.peerHas).avail i + 1 < 2 ^ 32 := by
      intro hi
      cases hold : p.peerHas.has i with
      | false =>
        have hf := hfit _ rfl hold (Bitfield.has_fromBytes hb hi)
        omega
      | true =>
        rw [hold, Bool.toNat_true] at hw
        omega
    obtain ⟨hlt', ha⟩ := avail_contribute
      (t := c.tracker.removeBitfieldAvailability p.peerHas) hnew (by omega) hroom
    exact ⟨hlt', by simp only; omega⟩
  | cleanedUp result hph =>
    rw [contributes_of_phase (by rw [hph]; rfl)] at hpos ⊢
    have hw := avail_withdraw hpos
    exact ⟨by simp only; omega, hw⟩
  | pieceAlreadyHad block asm asm' hph =>
    have hf : p.phase.isFinished = false := by rw [hph]; rfl
    exact ⟨hlt, by simp only [Session.contributes, isFinished_ite, hf]⟩
  | emitted piece complete hph =>
    have hf : p.phase.isFinished = false := by rw [hph]; rfl
    exact ⟨hlt, by simp only [Session.contributes, isFinished_ite, hf]⟩
  | _ =>
    refine ⟨by simpa only [Shared.avail_release, Shared.tracker_dropReceivers,
      PieceTracker.avail_claim, PieceTracker.avail_releasePiece, PieceTracker.avail_markHave]
      using hlt, ?_⟩
    simp_all [Session.contributes, Phase.isFinished, Session.assign]

end Step

/-! ## Whole runs -/

/-- The step does not push a counter that is exact past the largest `u32`. -/
def CounterFits (s : Swarm) (e : SwarmEvent) : Prop :=
  ∀ k m p i, e = .proc k (.recv (.ok (some m))) → s.procs[k]? = some p →
    p.peerHas.has i = false → advertises m i →
    s.procs.countP (Session.contributes i) + 1 < 2 ^ 32

/-- Every counter is the number of sessions that contribute to it. -/
structure AvailabilityExact (s : Swarm) : Prop where
  avail : ∀ i, s.shared.tracker.avail i = s.procs.countP (Session.contributes i)
  lt : ∀ i, s.shared.tracker.avail i < 2 ^ 32
  numPieces : s.shared.geometry.numPieces = s.shared.tracker.numPieces
  fresh : ∀ p ∈ s.procs, p.Fresh

theorem AvailabilityExact.pos {s : Swarm} (h : AvailabilityExact s) {p : Session}
    (hp : p ∈ s.procs) {i : Nat} (hc : p.contributes i = true) :
    0 < s.shared.tracker.avail i := by
  rw [h.avail i]
  exact List.countP_pos_iff.mpr ⟨p, hp, hc⟩

/-- Exactness is kept by every step that fits the counters. -/
theorem AvailabilityExact.poolStep {sha1 : List UInt8 → List UInt8} {s s' : Swarm} {e : SwarmEvent}
    (hsound : ∀ p ∈ s.procs, p.Sound sha1 s.shared) (hs : AvailabilityExact s)
    (hfits : CounterFits s e) (h : (swarm sha1).poolStep s e = some s') :
    AvailabilityExact s' := by
  cases e with
  | spawn addr =>
    obtain ⟨c', p, hspawn, rfl⟩ := PoolProgram.poolStep_spawn h
    obtain ⟨rfl, rfl⟩ := swarm_spawn hspawn
    refine ⟨fun i => ?_, hs.lt, hs.numPieces, ?_⟩
    · rw [List.countP_append, ← hs.avail i]
      simp [Session.contributes, Session.new]
    · intro p hp
      rcases List.mem_append.mp hp with hp | hp
      · exact hs.fresh p hp
      · obtain rfl := List.mem_singleton.mp hp
        intro _ i
        exact Bitfield.has_new _ i
  | proc k ev =>
    obtain ⟨p, c', p', hk, hstep, rfl⟩ := PoolProgram.poolStep_proc h
    have hst := Session.step_cases hstep
    have hmem := List.mem_of_getElem? hk
    have havail : ∀ i, c'.tracker.avail i < 2 ^ 32 ∧
        c'.tracker.avail i + (p.contributes i).toNat =
          s.shared.tracker.avail i + (p'.contributes i).toNat := by
      intro i
      apply hst.avail (hsound p hmem) (hs.fresh p hmem) hs.numPieces i (hs.pos hmem) (hs.lt i)
      intro m he hn ha
      rw [hs.avail i]
      exact hfits k m p i (by rw [he]) hk hn ha
    refine ⟨fun i => ?_, fun i => (havail i).1, ?_, ?_⟩
    · have hcount : (s.procs.set k p').countP (Session.contributes i) +
          (p.contributes i).toNat = _ := PoolProgram.countP_set_proc (Session.contributes i) hk
      have hi := (havail i).2
      rw [hs.avail i] at hi
      show c'.tracker.avail i = (s.procs.set k p').countP (Session.contributes i)
      omega
    · show c'.geometry.numPieces = c'.tracker.numPieces
      rw [hst.extends.geometry, PieceTracker.numPieces, hst.extends.pieceHashes]
      exact hs.numPieces
    · intro q hq
      rcases PoolProgram.mem_set_proc hk hq with rfl | hq
      · exact hst.fresh (hs.fresh p hmem)
      · exact hs.fresh q hq
  | env ev =>
    obtain ⟨c', henv, rfl⟩ := PoolProgram.poolStep_env h
    obtain ⟨control, completed, rfl, -⟩ := swarm_env henv
    exact ⟨hs.avail, hs.lt, hs.numPieces, hs.fresh⟩

/-- On a torrent of fewer than `2^32` pieces, in every run that keeps the
counters inside `u32`: availability is exact, the subtraction that undoes a
session's contribution never saturates, and nothing is left when every task has
returned. -/
theorem availability_exact {sha1 : List UInt8 → List UInt8} {info : Info}
    {infoHash peerId : List UInt8} {c : Coordinator}
    (h : Coordinator.new info infoHash peerId = .ok c) (hn : info.numPieces < 2 ^ 32)
    {run : Run}
    {s : Swarm} (hr : (c.system sha1).HistoryWhere CounterFits run s) :
    (∀ i, s.shared.tracker.avail i = s.procs.countP (Session.contributes i)) ∧
      (∀ p ∈ s.procs, p.phase.isFinished = false → ∀ i, p.peerHas.has i = true →
        0 < s.shared.tracker.avail i) ∧
      ((∀ p ∈ s.procs, p.phase.isFinished = true) → ∀ i, s.shared.tracker.avail i = 0) := by
  obtain ⟨hg, hh, ht, -, -⟩ := Coordinator.new_eq_ok h
  obtain ⟨-, -, hnum, -⟩ := Geometry.fromInfo_eq_ok hg
  have hstart : AvailabilityExact (c.system sha1).init := by
    have hzero : ∀ i, c.tracker.avail i = 0 := by
      intro i
      rw [ht, PieceTracker.avail_ofHashes]
    refine ⟨hzero, fun i => ?_, ?_, fun p hp => by cases hp⟩
    · show c.tracker.avail i < 2 ^ 32
      rw [hzero i]
      decide
    · show c.geometry.numPieces = c.tracker.numPieces
      rw [PieceTracker.numPieces, Info.length_pieceHashes hh, hnum, Nat.mod_eq_of_lt hn]
  have hs : AvailabilityExact s := hr.state_invariant hstart
    fun s e s' hreach hs hfits hstep =>
      hs.poolStep (Coordinator.sound h hreach).2 hfits hstep
  refine ⟨hs.avail, fun p hp hf i hi => hs.pos hp ?_, fun hall i => ?_⟩
  · rw [Session.contributes, hf, hi]
    rfl
  · rw [hs.avail i, List.countP_eq_zero]
    intro p hp
    simp [Session.contributes, hall p hp]

/-- A short run spawns few sessions, so no counter of it can wrap. -/
theorem counterFits_of_short {sha1 : List UInt8 → List UInt8} {c : Coordinator}
    {run : Run}
    {s : Swarm} (hr : (c.system sha1).History run s)
    (hl : run.length + 1 < 2 ^ 32) :
    (c.system sha1).HistoryWhere CounterFits run s ∧ s.procs.length ≤ run.length := by
  induction hr with
  | nil => exact ⟨.nil, Nat.le_refl 0⟩
  | @snoc run s s' e hr _ hs ih =>
    rw [List.length_append, List.length_singleton] at hl ⊢
    obtain ⟨hw, hp⟩ := ih (by omega)
    refine ⟨.snoc hw ?_ hs, ?_⟩
    · intro k m p i _ _ _ _
      have hle : s.procs.countP (Session.contributes i) ≤ s.procs.length :=
        List.countP_le_length
      omega
    · cases e with
      | spawn addr =>
        obtain ⟨c', p, -, rfl⟩ := PoolProgram.poolStep_spawn hs
        simpa using hp
      | proc k ev =>
        obtain ⟨p, c', p', -, -, rfl⟩ := PoolProgram.poolStep_proc hs
        rw [List.length_set]
        omega
      | env ev =>
        obtain ⟨c', -, rfl⟩ := PoolProgram.poolStep_env hs
        exact Nat.le_succ_of_le hp

/-- One peer advertises the only piece. -/
theorem availability_exact_one_peer :
    ∃ run s, (tiny.system sha1OfA).HistoryWhere CounterFits run s ∧ s.procs.length = 1 ∧
      s.shared.tracker.avail 0 = 1 ∧
      s.shared.tracker.avail 0 = s.procs.countP (Session.contributes 0) := by
  obtain ⟨run, hr, hlen⟩ := System.History.exec (.nil : (tiny.system sha1OfA).History [] _)
    (Trace.join 0 ++ Trace.deliver 0 (.have 0)) rfl
  have hw := (counterFits_of_short hr (by rw [List.nil_append, hlen]; decide)).1
  exact ⟨_, _, hw, rfl, rfl, (availability_exact tiny_new (by decide) hw).1 0⟩

/-! ## A torrent whose piece count does not fit `u32` -/

/-- One byte of content and `n` piece hashes. -/
def oneByteInfo (n : Nat) : Info where
  name := "a"
  pieceLength := 1
  pieces := List.replicate (sha1Len * n) 0
  length := some 1
  files := none

theorem numPieces_oneByteInfo (n : Nat) : (oneByteInfo n).numPieces = n := by
  rw [Info.numPieces, oneByteInfo, List.length_replicate]
  exact Nat.mul_div_cancel_left _ (by decide)

/-- Such a torrent is accepted whenever the truncated count is one. -/
theorem oneByteInfo_accepted {n : Nat} (hn : n % 2 ^ 32 = 1) :
    ∃ hashes, hashes.length = n ∧ Coordinator.new (oneByteInfo n) [] [] =
      .ok { tiny with tracker := PieceTracker.ofHashes hashes } := by
  have hg : Geometry.fromInfo (oneByteInfo n) = .ok ⟨1, 1, 1, 1⟩ := by
    simp only [Geometry.fromInfo, numPieces_oneByteInfo, hn]
    rfl
  have hl : (oneByteInfo n).pieces.length % sha1Len = 0 := by
    rw [oneByteInfo, List.length_replicate]
    exact Nat.mul_mod_right _ _
  have hh : ∃ hashes, (oneByteInfo n).pieceHashes = .ok hashes :=
    ⟨_, if_neg (not_not.mpr hl)⟩
  obtain ⟨hashes, hh⟩ := hh
  refine ⟨hashes, ?_, Coordinator.new_of_ok hg hh [] []⟩
  rw [Info.length_pieceHashes hh, numPieces_oneByteInfo]

/-- A peer sends one `have` and hangs up, and its task returns. -/
def haveAndLeave : Trace :=
  Trace.join 0 ++ Trace.deliver 0 (.have 1) ++ [.proc 0 (.recv (.ok none)), .proc 0 .cleanup]

/-- A `have` past the truncated count is counted, and the count outlives the session. -/
theorem haveAndLeave_leaks {hashes : List (List UInt8)} (h : 1 < hashes.length) :
    ∃ s, (Coordinator.system sha1OfA
        { tiny with tracker := PieceTracker.ofHashes hashes }).Reachable s ∧
      (∀ p ∈ s.procs, p.phase.isFinished = true) ∧ s.shared.tracker.avail 1 = 1 := by
  have hr : (Coordinator.system sha1OfA
      { tiny with tracker := PieceTracker.ofHashes hashes }).Reachable _ :=
    System.Reachable.init.exec haveAndLeave rfl
  refine ⟨_, hr, ?_, ?_⟩
  · intro p hp
    obtain rfl := List.mem_singleton.mp hp
    rfl
  · have hnot : ((Bitfield.new 1).set 1).has 1 = false := rfl
    calc (((PieceTracker.ofHashes hashes).addAvailability 1).removeBitfieldAvailability
        ((Bitfield.new 1).set 1)).avail 1 = (0 + 1) % 2 ^ 32 := by
          rw [PieceTracker.avail_removeBitfieldAvailability, hnot, if_neg Bool.false_ne_true,
            PieceTracker.avail_addAvailability, if_pos ⟨rfl, h⟩, PieceTracker.avail_ofHashes]
      _ = 1 := rfl

/-- With `2^32 + 1` pieces, availability survives the only session there was. -/
theorem availability_leaks_on_oversized_torrent :
    ∃ c s, Coordinator.new (oneByteInfo (2 ^ 32 + 1)) [] [] = .ok c ∧
      (c.system sha1OfA).Reachable s ∧ (∀ p ∈ s.procs, p.phase.isFinished = true) ∧
      s.shared.tracker.avail 1 = 1 ∧ s.procs.countP (Session.contributes 1) = 0 := by
  obtain ⟨hashes, hlen, hnew⟩ := oneByteInfo_accepted (n := 2 ^ 32 + 1) (by decide)
  have hlt : 1 < hashes.length := by
    rw [hlen]
    decide
  obtain ⟨s, hr, hall, havail⟩ := haveAndLeave_leaks hlt
  refine ⟨_, s, hnew, hr, hall, havail, ?_⟩
  rw [List.countP_eq_zero]
  intro p hp
  simp [Session.contributes, hall p hp]

end Torrentina.Download
