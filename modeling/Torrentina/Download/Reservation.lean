import Torrentina.Download.Coordinator

/-!
# Claims on pieces and the sessions that hold them

A session takes a piece through `reserve_piece`, which claims it, or in the
endgame, which does not; both kinds of holder release it with the same code.
`Effect` reduces the transitions of a session to what they do to the claims and
to the piece the session holds, and the two results are read off it: which runs
leak no claim, and in which runs a reserved piece has one holder.

Neither holds of every run. A session that fails keeps its claim, and an
endgame holder that gives up frees the claim of the session that owns it.
-/

namespace Torrentina.Download

open Torrentina.Core Peer

/-- The piece a session is working on. -/
def Session.held (p : Session) : Option Nat := p.current.map PieceAssembler.index

/-- The session is inside its loop. -/
def Session.running (p : Session) : Bool := p.phase.inLoop

/-- The step takes the session out of its loop with an error or a panic: a
failed send or receive, a rejected bitfield, a block the assembler does not take. -/
def Fails (c : Shared) (p : Session) : SessionEvent → Prop
  | .request (.error _) => True
  | .recv (.error _) => True
  | .recv (.ok (some (.bitfield bits))) => bits.length ≠ byteLen c.geometry.numPieces
  | .recv (.ok (some (.piece block))) => ∃ asm fault, p.current = some asm ∧
      block.index.toNat = asm.index ∧
      asm.addBlock block.begin.toNat block.data = .error fault
  | _ => False

/-- The step releases the piece in progress: cancel, pause, a timeout, a closed
connection, a choke, or a finished piece with a bad hash. -/
def Releases (sha1 : List UInt8 → List UInt8) (c : Shared) (p : Session) : SessionEvent → Prop
  | .proceed => p.phase = .observed .cancelled ∨ p.phase = .observed .paused
  | .timeout => True
  | .recv (.ok none) => True
  | .recv (.ok (some .choke)) => True
  | .recv (.ok (some (.piece block))) => ∃ asm asm', p.current = some asm ∧
      block.index.toNat = asm.index ∧
      asm.addBlock block.begin.toNat block.data = .ok asm' ∧ asm'.isComplete = true ∧
      c.tracker.verify sha1 asm.index asm'.intoBytes = false
  | _ => False

/-- What a step does to the claims and to the piece in progress. -/
inductive Effect (sha1 : List UInt8 → List UInt8) (c : Shared) (p : Session) (e : SessionEvent)
    (c' : Shared) (p' : Session) : Prop
  | quiet (hclaimed : ∀ i, c'.tracker.isClaimed i = c.tracker.isClaimed i)
      (hheld : p'.held = p.held) (hexcl : p'.exclusive = p.exclusive)
      (henter : p'.running = true → p.running = true ∨ p.held = none)
      (hleave : p.running = true → p'.running = true ∨ p.held = none ∨
        c.tracker.isComplete = true ∨ Fails c p e)
  | acquired (i : Nat) (excl : Bool) (hnone : p.held = none) (hheld : p'.held = some i)
      (hexcl : p'.exclusive = excl) (hrun : p'.running = true)
      (hneed : c.tracker.has i = false) (hfree : excl = true → c.tracker.isClaimed i = false)
      (hclaimed : ∀ j, c'.tracker.isClaimed j =
        if excl = true ∧ j = i then true else c.tracker.isClaimed j)
  | released (i : Nat) (hheld : p.held = some i)
      (hgone : p'.held = none ∨ p'.running = false) (hrel : Releases sha1 c p e)
      (hrun : p.running = true)
      (hclaimed : ∀ j, c'.tracker.isClaimed j = if j = i then false else c.tracker.isClaimed j)
  | settled (i : Nat) (hheld : p.held = some i) (hgone : p'.held = none)
      (hhas : c'.tracker.has i = true)
      (hclaimed : ∀ j, j ≠ i → c'.tracker.isClaimed j = c.tracker.isClaimed j)

section Step

variable {sha1 : List UInt8 → List UInt8} {c c' : Shared} {p p' : Session} {e : SessionEvent}

/-- A session that has sent its piece is still running. -/
theorem running_ite {p : Session} {b : Bool}
    (h : p.phase = if b = true then .signalling else .top) : p.running = true := by
  rw [Session.running, h]
  cases b <;> rfl

/-- A release of the piece in progress, when there is one. -/
theorem Effect.of_release (hc' : ∀ i, c'.tracker.isClaimed i =
      (c.release p.current).tracker.isClaimed i)
    (hgone : p'.held = none ∨ p'.running = false ∧ p'.held = p.held)
    (hexcl : p'.exclusive = p.exclusive) (hrun : p.running = true)
    (hrel : Releases sha1 c p e) : Effect sha1 c p e c' p' := by
  cases hcur : p.current with
  | none =>
    have hheld : p.held = none := by rw [Session.held, hcur]; rfl
    refine .quiet ?_ ?_ hexcl (fun _ => .inl hrun) fun _ => .inr (.inl hheld)
    · intro i
      rw [hc', hcur]
      rfl
    · rcases hgone with h | ⟨-, h⟩
      · rw [h, hheld]
      · exact h
  | some asm =>
    have hheld : p.held = some asm.index := by rw [Session.held, hcur]; rfl
    refine .released asm.index hheld ?_ hrel hrun ?_
    · rcases hgone with h | ⟨h, -⟩
      · exact .inl h
      · exact .inr h
    · intro j
      rw [hc', Shared.isClaimed_release, hcur]
      simp [eq_comm]

/-- A completion signal is only seen when the torrent is complete. -/
theorem Session.Sound.complete_of_done (hc : c.Sound sha1) (hp : p.Sound sha1 c)
    {r : Except Unit Nat} (hv : c.done.changed p.doneSeen = some r) :
    c.tracker.isComplete = true := by
  apply hc.done_complete
  have hle := hp.doneSeen
  unfold Watch.changed at hv
  split at hv
  · rename_i hne
    omega
  · rw [hc.done_sender] at hv
    cases hv

/-- A reserved piece is needed, and free when it was claimed. -/
theorem Session.Sound.needed (hc : c.Sound sha1) (hp : p.Sound sha1 c) {index : Nat} {skip : Bool}
    (hr : c.tracker.rarestNeeded p.peerHas skip = some index) :
    index < c.tracker.numPieces ∧ c.tracker.has index = false ∧
      (skip = true → c.tracker.isClaimed index = false) := by
  have hlt := hc.wellFormed.numPieces_lt
  obtain ⟨hidx, hn, -, hf⟩ := PieceTracker.rarestNeeded_eligible (by rw [hp.peerHas]; omega) hr
  exact ⟨hidx, hn, hf⟩

/-- Whether a session is running shows in its phase. -/
theorem Session.running_of_phase {p : Session} {phase : Phase} (h : p.phase = phase) :
    p.running = phase.inLoop := by
  rw [Session.running, h]

/-- A step inside or outside the loop that leaves the claims and the piece alone. -/
theorem Effect.of_same (hclaimed : ∀ i, c'.tracker.isClaimed i = c.tracker.isClaimed i)
    (hheld : p'.held = p.held) (hexcl : p'.exclusive = p.exclusive)
    (hrun : p'.running = p.running) : Effect sha1 c p e c' p' :=
  .quiet hclaimed hheld hexcl (fun h => .inl (hrun ▸ h)) (fun h => .inl (hrun ▸ h))

/-- A step out of the loop that leaves the claims and the piece alone. -/
theorem Effect.of_leave (hclaimed : ∀ i, c'.tracker.isClaimed i = c.tracker.isClaimed i)
    (hheld : p'.held = p.held) (hexcl : p'.exclusive = p.exclusive)
    (hrun : p'.running = false)
    (hwhy : p.held = none ∨ c.tracker.isComplete = true ∨ Fails c p e) :
    Effect sha1 c p e c' p' :=
  .quiet hclaimed hheld hexcl (fun h => absurd (hrun.symm.trans h) Bool.false_ne_true)
    (fun _ => .inr hwhy)

/-- An empty-handed session holds no piece. -/
theorem Session.Sound.held_none (hp : p.Sound sha1 c) (h : p.phase.emptyHanded = true) :
    p.held = none := by
  rw [Session.held, hp.emptyHanded h]
  rfl

/-- Every transition has one of the four effects. -/
theorem Session.Step.effect (hc : c.Sound sha1) (hp : p.Sound sha1 c)
    (h : Step sha1 c p e c' p') : Effect sha1 c p e c' p' := by
  cases h with
  | interested hph =>
    have hnone := hp.held_none (by rw [hph]; rfl)
    exact .quiet (fun _ => rfl) rfl rfl (fun _ => .inr hnone) (fun _ => .inl rfl)
  | emitted piece complete hph =>
    exact .of_same (fun _ => rfl) rfl rfl
      ((running_ite rfl).trans (Session.running_of_phase hph).symm)
  | orphaned hph =>
    exact .of_leave (fun _ => rfl) rfl rfl rfl (.inl (hp.held_none (by rw [hph]; rfl)))
  | signalled hph =>
    exact .of_leave (fun _ => rfl) rfl rfl rfl (.inl (hp.held_none (by rw [hph]; rfl)))
  | doneChanged r hph hv =>
    exact .of_leave (fun _ => rfl) rfl rfl rfl (.inr (.inl (hp.complete_of_done hc hv)))
  | requestFailed block err hph =>
    exact .of_leave (fun _ => rfl) rfl rfl rfl (.inr (.inr trivial))
  | recvFailed err hph => exact .of_leave (fun _ => rfl) rfl rfl rfl (.inr (.inr trivial))
  | bitfieldRejected bits err hph hb =>
    refine .of_leave (fun _ => rfl) rfl rfl rfl (.inr (.inr ?_))
    intro hlen
    simp [Bitfield.fromBytes, hlen] at hb
  | blockRejected block asm err hph hcur hi ha =>
    exact .of_leave (fun _ => rfl) rfl rfl rfl (.inr (.inr ⟨asm, _, hcur, hi, ha⟩))
  | blockPanicked block asm hph hcur hi ha =>
    exact .of_leave (fun _ => rfl) rfl rfl rfl (.inr (.inr ⟨asm, _, hcur, hi, ha⟩))
  | cancelled hph =>
    exact .of_release (fun _ => rfl) (.inr ⟨rfl, rfl⟩) rfl (Session.running_of_phase hph) (.inl hph)
  | paused hph =>
    exact .of_release (fun _ => rfl) (.inl (by simp [Session.held])) p.exclusive_dropCurrent
      (Session.running_of_phase hph) (.inr hph)
  | timeout hph =>
    exact .of_release (fun _ => rfl) (.inl rfl) rfl (Session.running_of_phase hph) trivial
  | peerClosed hph =>
    exact .of_release (fun _ => rfl) (.inr ⟨rfl, rfl⟩) rfl (Session.running_of_phase hph) trivial
  | choke hph =>
    exact .of_release (fun _ => rfl) (.inl (by simp [Session.held])) p.exclusive_dropCurrent
      (Session.running_of_phase hph) trivial
  | reserved index hph hn hch hr =>
    obtain ⟨hlt, hneed, hfree⟩ := hp.needed hc hr
    refine .acquired index true (by rw [Session.held, hn]; rfl) rfl rfl rfl hneed hfree ?_
    intro j
    rw [PieceTracker.isClaimed_claim]
    simp [hlt]
  | endgame index hph hn hch hr hd he =>
    obtain ⟨-, hneed, -⟩ := hp.needed hc he
    exact .acquired index false (by rw [Session.held, hn]; rfl) rfl rfl rfl hneed
      (fun h => absurd h Bool.false_ne_true) (fun j => by simp)
  | blockAdded block asm asm' hph hcur hi ha =>
    refine .of_same (fun _ => rfl) ?_ rfl (Session.running_of_phase hph).symm
    have hidx := (PieceAssembler.addBlock_frame ha).1
    simp [Session.held, hcur, hidx]
  | pieceAlreadyHad block asm asm' hph hcur hi ha hd hh =>
    exact .settled asm.index (by rw [Session.held, hcur]; rfl) rfl hh (fun _ _ => rfl)
  | pieceVerified block asm asm' hph hcur hi ha hd hh hv =>
    have hlt := Nat.lt_of_lt_of_le (hp.current asm hcur).1 hc.numPieces_le
    refine .settled asm.index (by rw [Session.held, hcur]; rfl) rfl ?_ ?_
    · simp [hlt]
    · intro j hj
      simp [hj]
  | pieceBadHash block asm asm' hph hcur hi ha hd hh hv =>
    refine .released asm.index (by rw [Session.held, hcur]; rfl) (.inl rfl)
      ⟨asm, asm', hcur, hi, ha, hd, hv⟩ (Session.running_of_phase hph) ?_
    intro j
    rw [PieceTracker.isClaimed_releasePiece]
  | requested block hph => exact .of_same (fun _ => rfl) rfl rfl rfl
  -- What is left moves between phases of one kind and touches neither claims nor piece.
  | _ =>
    have hrun := Session.running_of_phase ‹p.phase = _›
    exact .of_same (fun _ => rfl) rfl rfl hrun.symm

end Step

/-! ## No leaked claim -/

/-- Another running session than `k` holds piece `i`. -/
def HeldByOther (s : Swarm) (k i : Nat) (exclusive : Bool) : Prop :=
  ∃ j q, j ≠ k ∧ s.procs[j]? = some q ∧ q.running = true ∧ q.held = some i ∧
    (exclusive = true → q.exclusive = true)

/-- No session fails with a claim in its hands: when it fails while it holds a
claimed piece, another running session holds that piece too, and has reserved it
itself if the failing session did. -/
def FailsUnclaimed (s : Swarm) (e : SwarmEvent) : Prop :=
  ∀ k ev p i, e = .proc k ev → s.procs[k]? = some p → Fails s.shared p ev →
    p.held = some i → s.shared.tracker.isClaimed i = true → HeldByOther s k i p.exclusive

/-- Every claim has a running holder. -/
def ClaimsHeld (s : Swarm) : Prop :=
  ∀ i, s.shared.tracker.isClaimed i = true →
    ∃ (k : Nat) (p : Session), s.procs[k]? = some p ∧ p.running = true ∧ p.held = some i

/-- When a session that reserved a piece leaves its loop, a claim on the piece
that survives is that of another running session. -/
def LeavesNoClaim (t : Transition Swarm SwarmEvent) : Prop :=
  ∀ k p p' i, t.pre.procs[k]? = some p → t.post.procs[k]? = some p' → p.running = true →
    p'.running = false → p.held = some i → p.exclusive = true →
    t.post.shared.tracker.isClaimed i = true → HeldByOther t.post k i true

section Claims

variable {sha1 : List UInt8 → List UInt8} {s s' : Swarm} {e : SwarmEvent}

/-- Other sessions are where they were after a step of session `k`. -/
theorem HeldByOther.set {k i : Nat} {excl : Bool} {c' : Shared} {p p' : Session}
    (h : HeldByOther s k i excl) (hk : s.procs[k]? = some p) :
    HeldByOther ⟨c', s.procs.set k p'⟩ k i excl := by
  obtain ⟨j, q, hne, hj, hq⟩ := h
  refine ⟨j, q, hne, ?_, hq⟩
  rw [PoolProgram.getElem?_set_proc hk, if_neg hne, hj]

/-- After a step of session `k`, a claim that was held stays held, unless the
session itself was its only holder. -/
theorem claimsHeld_of_step {k i : Nat} {p p' : Session} (hs : ClaimsHeld s)
    (hk : s.procs[k]? = some p) (hi : s.shared.tracker.isClaimed i = true)
    (hown : p.running = true → p.held = some i →
      p'.running = true ∧ p'.held = some i ∨ HeldByOther s k i false) :
    ∃ (j : Nat) (q : Session), (s.procs.set k p')[j]? = some q ∧ q.running = true ∧
      q.held = some i := by
  obtain ⟨j, q, hj, hrun, hheld⟩ := hs i hi
  have hget : ∀ j, (s.procs.set k p')[j]? = if j = k then some p' else s.procs[j]? :=
    PoolProgram.getElem?_set_proc hk
  by_cases hjk : j = k
  · subst hjk
    obtain rfl := Option.some.inj (hk.symm.trans hj)
    rcases hown hrun hheld with ⟨hrun', hheld'⟩ | ⟨j', q', hne, hj', hrun', hheld', -⟩
    · exact ⟨j, p', by rw [hget, if_pos rfl], hrun', hheld'⟩
    · exact ⟨j', q', by rw [hget, if_neg hne, hj'], hrun', hheld'⟩
  · exact ⟨j, q, by rw [hget, if_neg hjk, hj], hrun, hheld⟩

/-- What a step of session `k` does to the claims leaves each of them with a holder,
unless the session fails as the only one. -/
theorem ClaimsHeld.of_effect (hs : ClaimsHeld s) (hc : s.shared.Sound sha1) {c' : Shared}
    (hc' : c'.Sound sha1) {k : Nat} {ev : SessionEvent} {p p' : Session}
    (hk : s.procs[k]? = some p) (hok : FailsUnclaimed s (.proc k ev))
    (heff : Effect sha1 s.shared p ev c' p') : ClaimsHeld ⟨c', s.procs.set k p'⟩ := by
  intro i hi
  simp only at hi ⊢
  cases heff with
  | quiet hclaimed hheld hexcl henter hleave =>
    rw [hclaimed] at hi
    apply claimsHeld_of_step hs hk hi
    intro hrun hheldi
    rcases hleave hrun with h | h | h | h
    · exact .inl ⟨h, by rw [hheld, hheldi]⟩
    · rw [hheldi] at h
      cases h
    · rw [hc.not_claimed_of_complete h] at hi
      cases hi
    · obtain ⟨j, q, hne, hj, hq, hqi, -⟩ := hok k ev p i rfl hk h hheldi hi
      exact .inr ⟨j, q, hne, hj, hq, hqi, fun h => absurd h Bool.false_ne_true⟩
  | acquired i₀ excl hnone hheld hexcl hrun hneed hfree hclaimed =>
    rw [hclaimed] at hi
    split at hi
    · rename_i he
      refine ⟨k, p', ?_, hrun, ?_⟩
      · rw [PoolProgram.getElem?_set_proc hk, if_pos rfl]
      · rw [hheld, he.2]
    · apply claimsHeld_of_step hs hk hi
      intro _ hheldi
      rw [hnone] at hheldi
      cases hheldi
  | released i₀ hheld hgone hrel hrun hclaimed =>
    rw [hclaimed] at hi
    split at hi
    · cases hi
    · rename_i hne
      apply claimsHeld_of_step hs hk hi
      intro _ hheldi
      exact absurd (Option.some.inj (hheldi.symm.trans hheld)) hne
  | settled i₀ hheld hgone hhas hclaimed =>
    have hne : i ≠ i₀ := by
      rintro rfl
      rw [hc'.not_claimed i hhas] at hi
      cases hi
    rw [hclaimed i hne] at hi
    apply claimsHeld_of_step hs hk hi
    intro _ hheldi
    exact absurd (Option.some.inj (hheldi.symm.trans hheld)) hne

/-- Every claim keeps a running holder in a step that fails unclaimed. -/
theorem ClaimsHeld.poolStep
    (hsound : s.shared.Sound sha1 ∧ ∀ p ∈ s.procs, p.Sound sha1 s.shared) (hs : ClaimsHeld s)
    (hok : FailsUnclaimed s e) (h : (swarm sha1).poolStep s e = some s') : ClaimsHeld s' := by
  cases e with
  | spawn addr =>
    obtain ⟨c', p, hspawn, rfl⟩ := PoolProgram.poolStep_spawn h
    obtain ⟨rfl, -⟩ := swarm_spawn hspawn
    intro i hi
    obtain ⟨k, q, hk, hq⟩ := hs i hi
    obtain ⟨hlt, -⟩ := List.getElem?_eq_some_iff.mp hk
    exact ⟨k, q, by rw [List.getElem?_append_left hlt, hk], hq⟩
  | env ev =>
    obtain ⟨c', henv, rfl⟩ := PoolProgram.poolStep_env h
    obtain ⟨control, completed, rfl, -⟩ := swarm_env henv
    exact hs
  | proc k ev =>
    obtain ⟨p, c', p', hk, hstep, rfl⟩ := PoolProgram.poolStep_proc h
    have hst := Session.step_cases hstep
    have hp := hsound.2 p (List.mem_of_getElem? hk)
    exact hs.of_effect hsound.1 (hst.sound_shared hsound.1 hp) hk hok (hst.effect hsound.1 hp)

/-- A session leaves no claim of its own behind in a step that fails unclaimed. -/
theorem leavesNoClaim_of_poolStep
    (hsound : s.shared.Sound sha1 ∧ ∀ p ∈ s.procs, p.Sound sha1 s.shared)
    (hok : FailsUnclaimed s e) (h : (swarm sha1).poolStep s e = some s') :
    LeavesNoClaim ⟨s, e, s'⟩ := by
  intro k p p' i hp hp' hrun hrun' hheld hexcl hi
  simp only at hp hp' hi ⊢
  by_cases hown : ∃ ev, e = .proc k ev
  · obtain ⟨ev, rfl⟩ := hown
    obtain ⟨q, c', q', hk, hstep, rfl⟩ := PoolProgram.poolStep_proc h
    obtain rfl := Option.some.inj (hp.symm.trans hk)
    rw [PoolProgram.getElem?_set_proc hk, if_pos rfl] at hp'
    obtain rfl := Option.some.inj hp'
    have hst := Session.step_cases hstep
    have hps := hsound.2 p (List.mem_of_getElem? hk)
    have hsound' := hst.sound_shared hsound.1 hps
    cases hst.effect hsound.1 hps with
    | quiet hclaimed hheld' hexcl' henter hleave =>
      rw [hclaimed] at hi
      rcases hleave hrun with h | h | h | h
      · rw [hrun'] at h
        cases h
      · rw [hheld] at h
        cases h
      · rw [hsound.1.not_claimed_of_complete h] at hi
        cases hi
      · have hother := hok k ev p i rfl hk h hheld hi
        rw [hexcl] at hother
        exact hother.set hk
    | acquired i₀ excl hnone =>
      rw [hnone] at hheld
      cases hheld
    | released i₀ hheld₀ hgone hrel hrun₀ hclaimed =>
      obtain rfl := Option.some.inj (hheld.symm.trans hheld₀)
      rw [hclaimed, if_pos rfl] at hi
      cases hi
    | settled i₀ hheld₀ hgone hhas hclaimed =>
      obtain rfl := Option.some.inj (hheld.symm.trans hheld₀)
      rw [hsound'.not_claimed _ hhas] at hi
      cases hi
  · have hsame := PoolProgram.getElem?_procs_of_other h (fun ev he => hown ⟨ev, he⟩) hp
    obtain rfl := Option.some.inj (hsame.symm.trans hp')
    rw [hrun] at hrun'
    cases hrun'

end Claims

/-- In every run in which no session fails with a claim in its hands, every
claim has a running holder in every state, and no session that leaves its loop
leaves a claim of its own behind. -/
theorem no_claim_leaks {sha1 : List UInt8 → List UInt8} {info : Info}
    {infoHash peerId : List UInt8} {c : Coordinator}
    (h : Coordinator.new info infoHash peerId = .ok c) {run : Run} {s : Swarm}
    (hr : (c.system sha1).HistoryWhere FailsUnclaimed run s) :
    ClaimsHeld s ∧ ∀ t ∈ run, LeavesNoClaim t := by
  constructor
  · refine hr.state_invariant ?_ fun s e s' hreach hs hok hstep =>
      hs.poolStep (Coordinator.sound h hreach) hok hstep
    intro i hi
    obtain ⟨-, -, ht, -, -⟩ := Coordinator.new_eq_ok h
    change c.tracker.isClaimed i = true at hi
    rw [ht, PieceTracker.isClaimed_ofHashes] at hi
    cases hi
  · intro t ht
    obtain ⟨hreach, hok, hstep⟩ := hr.mem ht
    exact leavesNoClaim_of_poolStep (Coordinator.sound h hreach) hok hstep

/-- The events whose step may fail. -/
def canFail : SwarmEvent → Bool
  | .proc _ (.request (.error _)) => true
  | .proc _ (.recv (.error _)) => true
  | .proc _ (.recv (.ok (some (.bitfield _)))) => true
  | .proc _ (.recv (.ok (some (.piece _)))) => true
  | _ => false

/-- A step that cannot fail leaks no claim. -/
theorem failsUnclaimed_of_not_canFail {s : Swarm} {e : SwarmEvent} (h : (!canFail e) = true) :
    FailsUnclaimed s e := by
  intro k ev p i he _ hf
  subst he
  unfold Fails at hf
  split at hf
  · cases h
  · cases h
  · cases h
  · cases h
  · cases hf

/-- Session 0 takes the only piece, is choked, takes it again and leaves when its peer
closes the connection; then session 1 takes it. -/
def takeAndLeave : Trace :=
  List.flatten [Trace.join 0, Trace.deliver 0 (.have 0), Trace.take 0, Trace.deliver 0 .choke,
    Trace.take 0, [.proc 0 (.recv (.ok none)), .proc 0 .cleanup],
    Trace.join 1, Trace.deliver 1 (.have 0), Trace.take 1]

/-- A claim is released, made again, given up by a session that leaves and made by another,
which holds it. -/
theorem no_claim_leaks_tiny :
    ∃ run s t, (tiny.system sha1OfA).HistoryWhere FailsUnclaimed run s ∧
      s.shared.tracker.isClaimed 0 = true ∧ (∃ p ∈ s.procs[0]?, p.running = false) ∧
      ClaimsHeld s ∧ t ∈ run ∧ (∃ p ∈ t.pre.procs[0]?, p.running = true ∧ p.held = some 0 ∧
        p.exclusive = true) ∧ (∃ p ∈ t.post.procs[0]?, p.running = false) ∧ LeavesNoClaim t := by
  obtain ⟨run, s, hr, hclaimed, hleft, t, ht, hpre, hpost⟩ :=
    System.HistoryWhere.exists_run (tiny.system sha1OfA)
      (P := fun run s => s.shared.tracker.isClaimed 0 = true ∧
        (∃ p ∈ s.procs[0]?, p.running = false) ∧
        ∃ t ∈ run, (∃ p ∈ t.pre.procs[0]?, p.running = true ∧ p.held = some 0 ∧
          p.exclusive = true) ∧ ∃ p ∈ t.post.procs[0]?, p.running = false)
      (fun _ e => !canFail e) (fun _ _ => failsUnclaimed_of_not_canFail) takeAndLeave
      (by decide +kernel)
  obtain ⟨hheld, hleaves⟩ := no_claim_leaks tiny_new hr
  exact ⟨run, s, t, hr, hclaimed, hleft, hheld, ht, hpre, hpost, hleaves t ht⟩

/-- The only session takes the only piece, its connection breaks, and its task ends. -/
def takeAndFail : Trace :=
  Trace.join 0 ++ Trace.deliver 0 (.have 0) ++ Trace.take 0 ++
    [.proc 0 (.recv (.error (.io "connection reset by peer"))), .proc 0 .cleanup]

/-- A claim that no running session stands for has leaked. -/
theorem not_claimsHeld {s : Swarm} {i : Nat} (hi : s.shared.tracker.isClaimed i = true)
    (hend : ∀ p ∈ s.procs, p.running = false) : ¬ClaimsHeld s := by
  intro hheld
  obtain ⟨k, p, hk, hrun, -⟩ := hheld i hi
  rw [hend p (List.mem_of_getElem? hk)] at hrun
  cases hrun

/-- The claim outlives the session that made it. -/
theorem claim_leaks_on_broken_connection :
    ∃ s, (tiny.system sha1OfA).Reachable s ∧ s.shared.tracker.isClaimed 0 = true ∧
      (∀ p ∈ s.procs, ∃ err, p.phase = .finished (.error err)) ∧ ¬ClaimsHeld s := by
  have hr : (tiny.system sha1OfA).Reachable _ := System.Reachable.init.exec takeAndFail rfl
  refine ⟨_, hr, rfl, fun p hp => ?_, not_claimsHeld (i := 0) rfl fun p hp => ?_⟩
  · obtain rfl := List.mem_singleton.mp hp
    exact ⟨_, rfl⟩
  · obtain rfl := List.mem_singleton.mp hp
    rfl

/-! ## Exclusive reservation -/

/-- No session gives up a piece it took in the endgame while another running
session holds it through `reserve_piece`. -/
def ReleasesOwn (sha1 : List UInt8 → List UInt8) (s : Swarm) (e : SwarmEvent) : Prop :=
  ∀ k ev p i, e = .proc k ev → s.procs[k]? = some p → Releases sha1 s.shared p ev →
    p.held = some i → p.exclusive = false → s.shared.tracker.has i = false →
    ¬HeldByOther s k i true

/-- The session holds piece `i` through `reserve_piece`, and is running. -/
def Session.Reserves (p : Session) (i : Nat) : Prop :=
  p.running = true ∧ p.held = some i ∧ p.exclusive = true

instance (p : Session) (i : Nat) : Decidable (p.Reserves i) :=
  inferInstanceAs (Decidable (_ ∧ _ ∧ _))

/-- A piece that is not had is reserved by at most one running session, and claimed while it is. -/
structure Exclusive (s : Swarm) : Prop where
  unique : ∀ i, s.shared.tracker.has i = false → ∀ (k k' : Nat) (p p' : Session),
    s.procs[k]? = some p → s.procs[k']? = some p' → p.Reserves i → p'.Reserves i → k = k'
  claimed : ∀ i, s.shared.tracker.has i = false → ∀ p ∈ s.procs, p.Reserves i →
    s.shared.tracker.isClaimed i = true

/-- A step of a session does not make reservable what another session has reserved. -/
def KeepsOthers (t : Transition Swarm SwarmEvent) : Prop :=
  ∀ k ev j q i, t.event = .proc k ev → j ≠ k → t.pre.procs[j]? = some q → q.Reserves i →
    t.post.shared.tracker.has i = true ∨ t.post.shared.tracker.isClaimed i = true

section Exclusive

variable {sha1 : List UInt8 → List UInt8} {s s' : Swarm} {e : SwarmEvent}

/-- A release frees no claim that another running session relies on. -/
theorem Exclusive.of_release (hs : Exclusive s) (hok : ReleasesOwn sha1 s e) {k : Nat}
    {ev : SessionEvent} {p : Session} {i : Nat} (he : e = .proc k ev)
    (hk : s.procs[k]? = some p) (hrel : Releases sha1 s.shared p ev) (hrun : p.running = true)
    (hheld : p.held = some i) (hn : s.shared.tracker.has i = false) {j : Nat} {q : Session}
    (hj : s.procs[j]? = some q) (hq : q.Reserves i) : j = k := by
  by_contra hne
  cases hexcl : p.exclusive with
  | true => exact hne (hs.unique i hn j k q p hj hk hq ⟨hrun, hheld, hexcl⟩)
  | false =>
    obtain ⟨hqrun, hqheld, hqexcl⟩ := hq
    exact hok k ev p i he hk hrel hheld hexcl hn ⟨j, q, hne, hj, hqrun, hqheld, fun _ => hqexcl⟩

/-- What a step of session `k` takes from `Exclusive` for another session's piece. -/
theorem KeepsOthers.of_poolStep
    (hsound : s.shared.Sound sha1 ∧ ∀ p ∈ s.procs, p.Sound sha1 s.shared) (hs : Exclusive s)
    (hok : ReleasesOwn sha1 s e) (h : (swarm sha1).poolStep s e = some s') :
    KeepsOthers ⟨s, e, s'⟩ := by
  intro k ev j q i he hjk hj hq
  simp only at he hj ⊢
  subst he
  obtain ⟨p, c', p', hk, hstep, rfl⟩ := PoolProgram.poolStep_proc h
  have hst := Session.step_cases hstep
  have hp := hsound.2 p (List.mem_of_getElem? hk)
  cases hn : s.shared.tracker.has i with
  | true => exact .inl (hst.extends.has i hn)
  | false =>
    have hcl := hs.claimed i hn q (List.mem_of_getElem? hj) hq
    cases hst.effect hsound.1 hp with
    | quiet hclaimed => exact .inr (by rw [hclaimed, hcl])
    | acquired i₀ excl hnone hheld hexcl hrun hneed hfree hclaimed =>
      right
      rw [hclaimed, hcl, ite_self]
    | released i₀ hheld hgone hrel hrun hclaimed =>
      right
      rw [hclaimed, if_neg, hcl]
      rintro rfl
      exact hjk (hs.of_release hok rfl hk hrel hrun hheld hn hj hq)
    | settled i₀ hheld hgone hhas hclaimed =>
      by_cases hii : i = i₀
      · subst hii
        exact .inl hhas
      · exact .inr (by rw [hclaimed i hii, hcl])

/-- The acting session's own reservation after its step: kept from before, or just made. -/
theorem Effect.reserves {c c' : Shared} {p p' : Session} {ev : SessionEvent} {i : Nat}
    (h : Effect sha1 c p ev c' p') (hres : p'.Reserves i) :
    p.Reserves i ∧ c'.tracker.isClaimed i = c.tracker.isClaimed i ∨
      c.tracker.has i = false ∧ c.tracker.isClaimed i = false ∧
        c'.tracker.isClaimed i = true := by
  obtain ⟨hrun', hheld', hexcl'⟩ := hres
  cases h with
  | quiet hclaimed hheld hexcl henter hleave =>
    left
    rw [hheld] at hheld'
    refine ⟨⟨?_, hheld', hexcl ▸ hexcl'⟩, hclaimed i⟩
    rcases henter hrun' with h | h
    · exact h
    · rw [h] at hheld'
      cases hheld'
  | acquired i₀ excl hnone hheld hexcl hrun hneed hfree hclaimed =>
    right
    obtain rfl := Option.some.inj (hheld.symm.trans hheld')
    have htrue : excl = true := hexcl.symm.trans hexcl'
    refine ⟨hneed, hfree htrue, ?_⟩
    rw [hclaimed, if_pos ⟨htrue, rfl⟩]
  | released i₀ hheld hgone hrel hrun hclaimed =>
    rcases hgone with h | h
    · rw [h] at hheld'
      cases hheld'
    · rw [h] at hrun'
      cases hrun'
  | settled i₀ hheld hgone =>
    rw [hgone] at hheld'
    cases hheld'

/-- A reservation after a step of session `k` was there before it, or the step made it. -/
theorem Effect.reserves_set {k : Nat} {p p' : Session} {c' : Shared} {ev : SessionEvent}
    (heff : Effect sha1 s.shared p ev c' p') (hk : s.procs[k]? = some p) {j i : Nat} {q : Session}
    (hj : (s.procs.set k p')[j]? = some q) (hres : q.Reserves i) :
    (∃ q₀, s.procs[j]? = some q₀ ∧ q₀.Reserves i) ∨
      j = k ∧ s.shared.tracker.isClaimed i = false := by
  rw [PoolProgram.getElem?_set_proc hk] at hj
  split at hj
  · rename_i hjk
    obtain rfl := Option.some.inj hj
    rcases heff.reserves hres with ⟨hr, -⟩ | ⟨-, hfree, -⟩
    · exact .inl ⟨p, hjk ▸ hk, hr⟩
    · exact .inr ⟨hjk, hfree⟩
  · exact .inl ⟨q, hj, hres⟩

/-- A step of a session makes no second reservation of a piece. -/
theorem Exclusive.unique_set (hs : Exclusive s) {k : Nat} {p p' : Session} {c' : Shared}
    {ev : SessionEvent} (heff : Effect sha1 s.shared p ev c' p') (hk : s.procs[k]? = some p)
    {i : Nat} (hn : s.shared.tracker.has i = false) {j j' : Nat} {q q' : Session}
    (hj : (s.procs.set k p')[j]? = some q) (hj' : (s.procs.set k p')[j']? = some q')
    (hr : q.Reserves i) (hr' : q'.Reserves i) : j = j' := by
  -- A piece that somebody reserved was claimed, so the step did not reserve it.
  have hclaimed : ∀ (l : Nat) (r : Session), s.procs[l]? = some r → r.Reserves i →
      s.shared.tracker.isClaimed i ≠ false := by
    intro l r hl hres hf
    rw [hs.claimed i hn r (List.mem_of_getElem? hl) hres] at hf
    cases hf
  rcases heff.reserves_set hk hj hr with ⟨q₀, h₀, hr₀⟩ | ⟨rfl, hf⟩ <;>
    rcases heff.reserves_set hk hj' hr' with ⟨q₁, h₁, hr₁⟩ | ⟨rfl, hf'⟩
  · exact hs.unique i hn j j' q₀ q₁ h₀ h₁ hr₀ hr₁
  · exact absurd hf' (hclaimed j q₀ h₀ hr₀)
  · exact absurd hf (hclaimed j' q₁ h₁ hr₁)
  · rfl

/-- A newly spawned session reserves nothing. -/
theorem reserves_spawn {c : Shared} {addr : SocketAddr} {k i : Nat} {q : Session}
    (hq : (s.procs ++ [Session.new c addr])[k]? = some q) (hres : q.Reserves i) :
    s.procs[k]? = some q := by
  rw [List.getElem?_append] at hq
  split at hq
  · exact hq
  · rw [List.mem_singleton.mp (List.mem_of_getElem? hq)] at hres
    cases hres.2.1

/-- Exclusive reservation is kept by every step that releases only what is its own. -/
theorem Exclusive.poolStep
    (hsound : s.shared.Sound sha1 ∧ ∀ p ∈ s.procs, p.Sound sha1 s.shared) (hs : Exclusive s)
    (hok : ReleasesOwn sha1 s e) (h : (swarm sha1).poolStep s e = some s') : Exclusive s' := by
  have hkeeps := KeepsOthers.of_poolStep hsound hs hok h
  cases e with
  | spawn addr =>
    obtain ⟨c', p, hspawn, rfl⟩ := PoolProgram.poolStep_spawn h
    obtain ⟨rfl, rfl⟩ := swarm_spawn hspawn
    refine ⟨fun i hn k k' p p' hp hp' hr hr' => ?_, fun i hn p hp hr => ?_⟩
    · exact hs.unique i hn k k' p p' (reserves_spawn hp hr) (reserves_spawn hp' hr') hr hr'
    · obtain ⟨k, hk⟩ := List.mem_iff_getElem?.mp hp
      exact hs.claimed i hn p (List.mem_of_getElem? (reserves_spawn hk hr)) hr
  | env ev =>
    obtain ⟨c', henv, rfl⟩ := PoolProgram.poolStep_env h
    obtain ⟨control, completed, rfl, -⟩ := swarm_env henv
    exact ⟨hs.unique, hs.claimed⟩
  | proc k ev =>
    obtain ⟨p, c', p', hk, hstep, rfl⟩ := PoolProgram.poolStep_proc h
    have hst := Session.step_cases hstep
    have hmem := List.mem_of_getElem? hk
    have heff := hst.effect hsound.1 (hsound.2 p hmem)
    have hnot : ∀ i, c'.tracker.has i = false → s.shared.tracker.has i = false := by
      intro i hn
      by_contra hh
      rw [hst.extends.has i (Bool.not_eq_false _ ▸ hh)] at hn
      cases hn
    refine ⟨fun i hn j j' q q' hj hj' hr hr' => ?_, fun i hn q hq hr => ?_⟩
    · exact hs.unique_set heff hk (hnot i hn) hj hj' hr hr'
    · obtain ⟨j, hj⟩ := List.mem_iff_getElem?.mp hq
      rw [PoolProgram.getElem?_set_proc hk] at hj
      split at hj
      · obtain rfl := Option.some.inj hj
        rcases heff.reserves hr with ⟨hr₀, hsame⟩ | ⟨-, -, hmade⟩
        · show c'.tracker.isClaimed i = true
          rw [hsame, hs.claimed i (hnot i hn) p hmem hr₀]
        · exact hmade
      · rename_i hjk
        rcases hkeeps k ev j q i rfl hjk hj hr with hh | hcl
        · rw [hn] at hh
          cases hh
        · exact hcl

end Exclusive

/-- In every run in which no session gives up, from the endgame, a piece that
another running session has reserved: a piece that is not had is reserved by at
most one running session and claimed while it is, and no step of a session makes
reservable what another has reserved. -/
theorem reservation_exclusive {sha1 : List UInt8 → List UInt8} {info : Info}
    {infoHash peerId : List UInt8} {c : Coordinator}
    (h : Coordinator.new info infoHash peerId = .ok c) {run : Run} {s : Swarm}
    (hr : (c.system sha1).HistoryWhere (ReleasesOwn sha1) run s) :
    Exclusive s ∧ ∀ t ∈ run, KeepsOthers t := by
  refine hr.invariant (P := fun run s => Exclusive s ∧ ∀ t ∈ run, KeepsOthers t) ?_ ?_
  · refine ⟨⟨fun i _ k k' p p' hp => ?_, fun i _ p hp => ?_⟩, fun t ht => ?_⟩
    · cases hp
    · cases hp
    · cases ht
  · intro run s e s' hrun ⟨hs, hall⟩ hok hstep
    have hsound := Coordinator.sound h ⟨run, hrun.history⟩
    refine ⟨hs.poolStep hsound hok hstep, fun t ht => ?_⟩
    rcases List.mem_append.mp ht with ht | ht
    · exact hall t ht
    · obtain rfl := List.mem_singleton.mp ht
      exact KeepsOthers.of_poolStep hsound hs hok hstep

/-- The events that release the piece in progress in some state. -/
def mayRelease : SessionEvent → Bool
  | .proceed | .timeout | .recv (.ok none) => true
  | .recv (.ok (some .choke)) => true
  | .recv (.ok (some (.piece _))) => true
  | _ => false

/-- What releases a piece is an event that may. -/
theorem Releases.mayRelease {sha1 : List UInt8 → List UInt8} {c : Shared} {p : Session}
    {e : SessionEvent} (h : Releases sha1 c p e) : mayRelease e = true := by
  unfold Releases at h
  split at h
  · rfl
  · rfl
  · rfl
  · rfl
  · rfl
  · exact h.elim

/-- An executable check that the acting session does not give up, from the endgame, a
piece that another running session has reserved. -/
def releasesOwn (s : Swarm) : SwarmEvent → Bool
  | .proc k ev => !mayRelease ev || (s.procs[k]?).all fun p =>
      p.exclusive || p.held.isNone ||
        s.procs.all fun q => !(q.running && q.exclusive && decide (q.held = p.held))
  | _ => true

/-- The check implies `ReleasesOwn`. -/
theorem ReleasesOwn.of_check {sha1 : List UInt8 → List UInt8} {s : Swarm} {e : SwarmEvent}
    (h : releasesOwn s e = true) : ReleasesOwn sha1 s e := by
  rintro k ev p i rfl hk hrel hheld hexcl - ⟨j, q, -, hj, hrun, hqheld, hqexcl⟩
  have hq := hqexcl rfl
  have hmem := List.mem_of_getElem? hj
  simp only [releasesOwn, hrel.mayRelease, hk, Option.all_some, hexcl, hheld, Option.isNone_some,
    Bool.not_true, Bool.false_or, List.all_eq_true] at h
  have hno := h q hmem
  simp [hrun, hq, hqheld] at hno

/-- Session 0 reserves the piece and session 1 takes it in the endgame; session 0 is choked
and gives it up, then session 1 is; both take it again. -/
def shareAndTakeOver : Trace :=
  List.flatten [Trace.join 0, Trace.deliver 0 (.have 0), Trace.take 0,
    Trace.join 1, Trace.deliver 1 (.have 0), Trace.take 1,
    Trace.deliver 0 .choke, Trace.deliver 1 .choke, Trace.take 0, Trace.take 1]

/-- Session `k` is running and holds piece `i` from the endgame. -/
def HoldsEndgame (s : Swarm) (k i : Nat) : Prop :=
  ∃ q ∈ s.procs[k]?, q.running = true ∧ q.held = some i ∧ q.exclusive = false

instance (s : Swarm) (k i : Nat) : Decidable (HoldsEndgame s k i) :=
  inferInstanceAs (Decidable (∃ q ∈ s.procs[k]?, _))

/-- The owner of the piece gives it up, then the endgame holder does, which takes it from
nobody; both take it again, and the owner is alone in having reserved it. -/
theorem reservation_exclusive_tiny :
    ∃ run s t, (tiny.system sha1OfA).HistoryWhere (ReleasesOwn sha1OfA) run s ∧
      (∃ p ∈ s.procs[0]?, p.Reserves 0) ∧ HoldsEndgame s 1 0 ∧ t ∈ run ∧
      HoldsEndgame t.pre 1 0 ∧ (t.event matches .proc 1 (.recv (.ok (some .choke)))) ∧
      KeepsOthers t ∧ s.shared.tracker.isClaimed 0 = true ∧ Exclusive s := by
  obtain ⟨run, s, hr, hneed, ⟨p, hp, hres⟩, hheld, t, ht, hpre, hev⟩ :=
    System.HistoryWhere.exists_run (tiny.system sha1OfA)
      (P := fun run s => s.shared.tracker.has 0 = false ∧ (∃ p ∈ s.procs[0]?, p.Reserves 0) ∧
        HoldsEndgame s 1 0 ∧ ∃ t ∈ run, HoldsEndgame t.pre 1 0 ∧
          (t.event matches .proc 1 (.recv (.ok (some .choke)))))
      releasesOwn (fun _ _ => ReleasesOwn.of_check) shareAndTakeOver (by decide +kernel)
  obtain ⟨hexclusive, hkeeps⟩ := reservation_exclusive tiny_new hr
  exact ⟨run, s, t, hr, ⟨p, hp, hres⟩, hheld, ht, hpre, hev, hkeeps t ht,
    hexclusive.claimed 0 hneed p (List.mem_of_getElem? hp) hres, hexclusive⟩

/-- Session 0 reserves the piece, session 1 takes it in the endgame and is
choked, and session 2 reserves it again. -/
def reserveTwice : Trace :=
  Trace.join 0 ++ Trace.deliver 0 (.have 0) ++ Trace.take 0 ++
    Trace.join 1 ++ Trace.deliver 1 (.have 0) ++ Trace.take 1 ++ Trace.deliver 1 .choke ++
    Trace.join 2 ++ Trace.deliver 2 (.have 0) ++ Trace.take 2

/-- Two running sessions hold one piece through `reserve_piece`. -/
theorem piece_reserved_twice :
    ∃ s p q, (tiny.system sha1OfA).Reachable s ∧ s.shared.tracker.has 0 = false ∧
      s.procs[0]? = some p ∧ s.procs[2]? = some q ∧ p.Reserves 0 ∧ q.Reserves 0 ∧
      ¬Exclusive s := by
  have hr : (tiny.system sha1OfA).Reachable _ := System.Reachable.init.exec reserveTwice rfl
  refine ⟨_, _, _, hr, rfl, rfl, rfl, ⟨rfl, rfl, rfl⟩, ⟨rfl, rfl, rfl⟩, fun hex => ?_⟩
  have hidx := hex.unique 0 rfl 0 2 _ _ rfl rfl ⟨rfl, rfl, rfl⟩ ⟨rfl, rfl, rfl⟩
  cases hidx

end Torrentina.Download
