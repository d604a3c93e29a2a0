import Torrentina.Download.Session

/-!
# What one step of a session can do

`Step` lists every transition of a session with its guard and its successor.
Every successful call of `Session.step` is one of them, so an invariant is
proved by cases on `Step` and never unfolds the step function.
-/

namespace Torrentina.Download

open Torrentina.Core Peer

namespace Session

/-- The transitions of a session. -/
inductive Step (sha1 : List UInt8 → List UInt8) (c : Shared) (p : Session) :
    SessionEvent → Shared → Session → Prop
  | connected (hp : p.phase = .connecting) : Step sha1 c p (.connect (.ok ()))
      { c with stats := c.stats.peerConnected p.addr } { p with phase := .starting }
  | connectFailed (err : Error) (hp : p.phase = .connecting) :
      Step sha1 c p (.connect (.error err)) c.dropReceivers
        { p with phase := .finished (.error err) }
  | interested (hp : p.phase = .starting) :
      Step sha1 c p (.sendInterested (.ok ())) c { p with phase := .top }
  | interestedFailed (err : Error) (hp : p.phase = .starting) :
      Step sha1 c p (.sendInterested (.error err))
        { c.dropReceivers with stats := c.stats.peerDisconnected p.addr }
        { p with phase := .finished (.error err) }
  | poll (hp : p.phase = .top) : Step sha1 c p .poll c
      { p with phase := .observed c.control.value, controlSeen := c.control.version }
  | cancelled (hp : p.phase = .observed .cancelled) : Step sha1 c p .proceed
      (c.release p.current) { p with phase := .leaving (.ok ()) }
  | paused (hp : p.phase = .observed .paused) : Step sha1 c p .proceed
      (c.release p.current) { p.dropCurrent with phase := .pausedWait }
  | busy (hp : p.phase = .observed .running)
      (hb : p.current ≠ none ∨ p.choked = true) :
      Step sha1 c p .proceed c { p with phase := .refilling }
  | reserved (index : Nat) (hp : p.phase = .observed .running) (hn : p.current = none)
      (hc : p.choked = false) (hr : c.tracker.rarestNeeded p.peerHas true = some index) :
      Step sha1 c p .proceed { c with tracker := c.tracker.claim index }
        (p.assign c.geometry index true)
  | torrentDone (hp : p.phase = .observed .running) (hn : p.current = none)
      (hc : p.choked = false) (hr : c.tracker.rarestNeeded p.peerHas true = none)
      (hd : c.tracker.isComplete = true) :
      Step sha1 c p .proceed c { p with phase := .signalling }
  | endgame (index : Nat) (hp : p.phase = .observed .running) (hn : p.current = none)
      (hc : p.choked = false) (hr : c.tracker.rarestNeeded p.peerHas true = none)
      (hd : c.tracker.isComplete = false)
      (he : c.tracker.rarestNeeded p.peerHas false = some index) :
      Step sha1 c p .proceed c (p.assign c.geometry index false)
  | idle (hp : p.phase = .observed .running) (hn : p.current = none)
      (hc : p.choked = false) (he : c.tracker.rarestNeeded p.peerHas false = none) :
      Step sha1 c p .proceed c { p with phase := .refilling }
  | resumed (version : Nat) (hp : p.phase = .pausedWait)
      (hv : c.control.changed p.controlSeen = some (.ok version)) :
      Step sha1 c p .controlChanged c { p with phase := .top, controlSeen := version }
  | orphaned (hp : p.phase = .pausedWait)
      (hv : c.control.changed p.controlSeen = some (.error ())) :
      Step sha1 c p .controlChanged c { p with phase := .leaving (.ok ()) }
  | requested (block : BlockInfo) (hp : p.phase = .refilling)
      (hn : p.nextRequest c.geometry = some block) : Step sha1 c p (.request (.ok ())) c
        { p with nextBlock := p.nextBlock + 1, inFlight := p.inFlight + 1 }
  | requestFailed (block : BlockInfo) (err : Error) (hp : p.phase = .refilling)
      (hn : p.nextRequest c.geometry = some block) : Step sha1 c p (.request (.error err)) c
        { p with phase := .leaving (.error err) }
  | refilled (hp : p.phase = .refilling) (hn : p.nextRequest c.geometry = none) :
      Step sha1 c p .refilled c { p with phase := .selecting }
  | controlChanged (version : Nat) (hp : p.phase = .selecting)
      (hv : c.control.changed p.controlSeen = some (.ok version)) :
      Step sha1 c p .controlChanged c { p with phase := .top, controlSeen := version }
  | controlClosed (hp : p.phase = .selecting)
      (hv : c.control.changed p.controlSeen = some (.error ())) :
      Step sha1 c p .controlChanged c { p with phase := .top }
  | doneChanged (r : Except Unit Nat) (hp : p.phase = .selecting)
      (hv : c.done.changed p.doneSeen = some r) :
      Step sha1 c p .doneChanged c { p with phase := .leaving (.ok ()) }
  | timeout (hp : p.phase = .selecting) (hc : p.current.isSome) (hf : p.inFlight > 0) :
      Step sha1 c p .timeout (c.release p.current)
        { p with phase := .top, current := none, nextBlock := 0, inFlight := 0 }
  | recvFailed (err : Error) (hp : p.phase = .selecting) :
      Step sha1 c p (.recv (.error err)) c { p with phase := .leaving (.error err) }
  | peerClosed (hp : p.phase = .selecting) : Step sha1 c p (.recv (.ok none))
      (c.release p.current) { p with phase := .leaving (.ok ()) }
  | choke (hp : p.phase = .selecting) : Step sha1 c p (.recv (.ok (some .choke)))
      { c.release p.current with stats := c.stats.setChoked p.addr true }
      { p.dropCurrent with phase := .top, choked := true }
  | unchoke (hp : p.phase = .selecting) : Step sha1 c p (.recv (.ok (some .unchoke)))
      { c with stats := c.stats.setChoked p.addr false }
      { p with phase := .top, choked := false }
  | haveNew (index : UInt32) (hp : p.phase = .selecting)
      (hn : p.peerHas.has index.toNat = false) : Step sha1 c p (.recv (.ok (some (.have index))))
        { c with
          tracker := c.tracker.addAvailability index.toNat
          stats := c.stats.setHaveCount p.addr ((p.peerHas.set index.toNat).count % 2 ^ 32) }
        { p with phase := .top, peerHas := p.peerHas.set index.toNat }
  | haveKnown (index : UInt32) (hp : p.phase = .selecting)
      (hn : p.peerHas.has index.toNat = true) : Step sha1 c p (.recv (.ok (some (.have index))))
        { c with stats := c.stats.setHaveCount p.addr (p.peerHas.count % 2 ^ 32) }
        { p with phase := .top }
  | bitfield (bits : List UInt8) (newHas : Bitfield) (hp : p.phase = .selecting)
      (hb : Bitfield.fromBytes bits c.geometry.numPieces = .ok newHas) :
      Step sha1 c p (.recv (.ok (some (.bitfield bits))))
        { c with
          tracker :=
            (c.tracker.removeBitfieldAvailability p.peerHas).addBitfieldAvailability newHas
          stats := c.stats.setHaveCount p.addr (newHas.count % 2 ^ 32) }
        { p with phase := .top, peerHas := newHas }
  | bitfieldRejected (bits : List UInt8) (err : Error) (hp : p.phase = .selecting)
      (hb : Bitfield.fromBytes bits c.geometry.numPieces = .error err) :
      Step sha1 c p (.recv (.ok (some (.bitfield bits)))) c
        { p with phase := .leaving (.error err) }
  | blockIgnored (block : Block) (hp : p.phase = .selecting)
      (hc : ∀ asm, p.current = some asm → block.index.toNat ≠ asm.index) :
      Step sha1 c p (.recv (.ok (some (.piece block))))
        { c with stats := c.stats.recordBlock p.addr block.data.length } { p with phase := .top }
  | blockRejected (block : Block) (asm : PieceAssembler) (err : Error) (hp : p.phase = .selecting)
      (hc : p.current = some asm) (hi : block.index.toNat = asm.index)
      (ha : asm.addBlock block.begin.toNat block.data = .error (.error err)) :
      Step sha1 c p (.recv (.ok (some (.piece block))))
        { c with stats := c.stats.recordBlock p.addr block.data.length }
        { p with phase := .leaving (.error err) }
  | blockPanicked (block : Block) (asm : PieceAssembler) (hp : p.phase = .selecting)
      (hc : p.current = some asm) (hi : block.index.toNat = asm.index)
      (ha : asm.addBlock block.begin.toNat block.data = .error .panic) :
      Step sha1 c p (.recv (.ok (some (.piece block))))
        (Shared.dropReceivers
          { c with stats := c.stats.recordBlock p.addr block.data.length })
        { p with phase := .panicked }
  | blockAdded (block : Block) (asm asm' : PieceAssembler) (hp : p.phase = .selecting)
      (hc : p.current = some asm) (hi : block.index.toNat = asm.index)
      (ha : asm.addBlock block.begin.toNat block.data = .ok asm')
      (hd : asm'.isComplete = false) : Step sha1 c p (.recv (.ok (some (.piece block))))
        { c with stats := c.stats.recordBlock p.addr block.data.length }
        { p with phase := .top, current := some asm', inFlight := p.inFlight - 1 }
  | pieceAlreadyHad (block : Block) (asm asm' : PieceAssembler) (hp : p.phase = .selecting)
      (hc : p.current = some asm) (hi : block.index.toNat = asm.index)
      (ha : asm.addBlock block.begin.toNat block.data = .ok asm')
      (hd : asm'.isComplete = true)
      (hh : c.tracker.has asm.index = true) : Step sha1 c p (.recv (.ok (some (.piece block))))
        { c with stats := c.stats.recordBlock p.addr block.data.length }
        { p with
          phase := if c.tracker.isComplete then .signalling else .top
          current := none
          inFlight := p.inFlight - 1 }
  | pieceVerified (block : Block) (asm asm' : PieceAssembler) (hp : p.phase = .selecting)
      (hc : p.current = some asm) (hi : block.index.toNat = asm.index)
      (ha : asm.addBlock block.begin.toNat block.data = .ok asm')
      (hd : asm'.isComplete = true)
      (hh : c.tracker.has asm.index = false)
      (hv : c.tracker.verify sha1 asm.index asm'.intoBytes = true) :
      Step sha1 c p (.recv (.ok (some (.piece block))))
        { c with
          tracker := c.tracker.markHave asm.index
          stats := c.stats.recordBlock p.addr block.data.length }
        { p with
          phase := .sending ⟨asm.index, asm'.intoBytes⟩ (c.tracker.markHave asm.index).isComplete
          current := none
          inFlight := p.inFlight - 1 }
  | pieceBadHash (block : Block) (asm asm' : PieceAssembler) (hp : p.phase = .selecting)
      (hc : p.current = some asm) (hi : block.index.toNat = asm.index)
      (ha : asm.addBlock block.begin.toNat block.data = .ok asm')
      (hd : asm'.isComplete = true)
      (hh : c.tracker.has asm.index = false)
      (hv : c.tracker.verify sha1 asm.index asm'.intoBytes = false) :
      Step sha1 c p (.recv (.ok (some (.piece block))))
        { c with
          tracker := c.tracker.releasePiece asm.index
          stats := c.stats.recordBlock p.addr block.data.length }
        { p with phase := .top, current := none, inFlight := p.inFlight - 1 }
  | messageIgnored (message : Message) (hp : p.phase = .selecting)
      (hm : message matches .keepAlive | .interested | .notInterested | .request _ | .cancel _ |
        .port _) :
      Step sha1 c p (.recv (.ok (some message))) c { p with phase := .top }
  | emitted (piece : VerifiedPiece) (complete : Bool) (hp : p.phase = .sending piece complete) :
      Step sha1 c p .emit { c with completed := c.completed.send piece }
        { p with phase := if complete then .signalling else .top }
  | signalled (hp : p.phase = .signalling) : Step sha1 c p .signal
      { c with done := c.done.send true } { p with phase := .leaving (.ok ()) }
  | cleanedUp (result : Except Error Unit) (hp : p.phase = .leaving result) :
      Step sha1 c p .cleanup
        { c.dropReceivers with
          tracker := c.tracker.removeBitfieldAvailability p.peerHas
          stats := c.stats.peerDisconnected p.addr }
        { p with phase := .finished result }

variable {sha1 : List UInt8 → List UInt8} {c c' : Shared} {p p' : Session}

/-- The reservation step in the terms of `Step`. -/
theorem step_reserve (hp : p.phase = .observed .running) :
    Step sha1 c p .proceed (reserve c p).1 (reserve c p).2 := by
  unfold reserve
  split
  · rename_i hidle
    simp only [Bool.and_eq_true, Option.isNone_iff_eq_none, Bool.not_eq_true'] at hidle
    obtain ⟨hn, hc⟩ := hidle
    unfold PieceTracker.reservePiece
    cases hr : c.tracker.rarestNeeded p.peerHas true with
    | some index => exact .reserved index hp hn hc hr
    | none =>
      simp only
      split
      · rename_i hd
        exact .torrentDone hp hn hc hr hd
      · rename_i hd
        unfold PieceTracker.reservePieceEndgame
        cases he : c.tracker.rarestNeeded p.peerHas false with
        | some index => exact .endgame index hp hn hc hr (Bool.not_eq_true _ ▸ hd) he
        | none => exact .idle hp hn hc he
  · rename_i hbusy
    refine .busy hp ?_
    cases hn : p.current with
    | some asm => exact .inl (Option.some_ne_none asm)
    | none =>
      right
      simpa [hn] using hbusy

/-- A delivered block in the terms of `Step`. -/
theorem step_piece (hp : p.phase = .selecting) (block : Block) :
    Step sha1 c p (.recv (.ok (some (.piece block)))) (handleMessage sha1 c p (.piece block)).1
      (handleMessage sha1 c p (.piece block)).2 := by
  rw [handleMessage]
  cases hc : p.current with
  | none =>
    rw [handleBlock, ← hc]
    exact .blockIgnored block hp (by simp [hc])
  | some asm =>
    by_cases hi : block.index.toNat = asm.index
    · cases ha : asm.addBlock block.begin.toNat block.data with
      | error fault =>
        cases fault with
        | error err =>
          simp only [handleBlock, hi, ha, ne_eq, not_true_eq_false, if_false, ← hc]
          exact .blockRejected block asm err hp hc hi ha
        | panic =>
          simp only [handleBlock, hi, ha, ne_eq, not_true_eq_false, if_false, ← hc]
          exact .blockPanicked block asm hp hc hi ha
      | ok asm' =>
        have hidx := (PieceAssembler.addBlock_frame ha).1
        cases hd : asm'.isComplete with
        | false =>
          simp only [handleBlock, hi, ha, hd, ne_eq, not_true_eq_false, if_false, Bool.not_false,
            if_true]
          exact .blockAdded block asm asm' hp hc hi ha hd
        | true =>
          cases hh : c.tracker.has asm.index with
          | true =>
            have h : Step sha1 c p _ _ _ := .pieceAlreadyHad block asm asm' hp hc hi ha hd hh
            simp only [handleBlock, hi, ha, hd, hidx, hh, ne_eq, not_true_eq_false, if_false,
              Bool.not_true, Bool.false_eq_true, if_true]
            cases hcomp : c.tracker.isComplete with
            | true =>
              simp only [hcomp, if_true] at h
              exact h
            | false =>
              simp only [hcomp, Bool.false_eq_true, if_false] at h
              exact h
          | false =>
            cases hv : c.tracker.verify sha1 asm.index asm'.intoBytes with
            | true =>
              simp only [handleBlock, hi, ha, hd, hidx, hh, hv, ne_eq, not_true_eq_false, if_false,
                Bool.not_true, Bool.false_eq_true, if_true]
              exact .pieceVerified block asm asm' hp hc hi ha hd hh hv
            | false =>
              simp only [handleBlock, hi, ha, hd, hidx, hh, hv, ne_eq, not_true_eq_false, if_false,
                Bool.not_true, Bool.false_eq_true]
              exact .pieceBadHash block asm asm' hp hc hi ha hd hh hv
    · simp only [handleBlock, ne_eq, hi, not_false_eq_true, if_true, ← hc]
      exact .blockIgnored block hp (by simpa [hc] using hi)

/-- A message in the terms of `Step`. -/
theorem step_message (hp : p.phase = .selecting) (message : Message) :
    Step sha1 c p (.recv (.ok (some message))) (handleMessage sha1 c p message).1
      (handleMessage sha1 c p message).2 := by
  cases message with
  | choke => exact .choke hp
  | unchoke => exact .unchoke hp
  | «have» index =>
    cases hn : p.peerHas.has index.toNat with
    | true =>
      simp only [handleMessage, hn, Bool.not_true, Bool.false_eq_true, if_false]
      exact .haveKnown index hp hn
    | false =>
      simp only [handleMessage, hn, Bool.not_false, if_true]
      exact .haveNew index hp hn
  | bitfield bits =>
    cases hb : Bitfield.fromBytes bits c.geometry.numPieces with
    | error err =>
      simp only [handleMessage, hb]
      exact .bitfieldRejected bits err hp hb
    | ok newHas =>
      simp only [handleMessage, hb]
      exact .bitfield bits newHas hp hb
  | piece block => exact step_piece hp block
  | keepAlive => exact .messageIgnored _ hp rfl
  | interested => exact .messageIgnored _ hp rfl
  | notInterested => exact .messageIgnored _ hp rfl
  | request b => exact .messageIgnored _ hp rfl
  | cancel b => exact .messageIgnored _ hp rfl
  | port n => exact .messageIgnored _ hp rfl

/-- Every successful step is one of the listed transitions. -/
theorem step_cases {e : SessionEvent} (h : step sha1 c p e = some (c', p')) :
    Step sha1 c p e c' p' := by
  unfold step at h
  split at h <;> rename_i hp
  · cases h
    exact .connected hp
  · cases h
    exact .connectFailed _ hp
  · cases h
    exact .interested hp
  · cases h
    exact .interestedFailed _ hp
  · cases h
    exact .poll hp
  · cases h
    exact .cancelled hp
  · cases h
    exact .paused hp
  · obtain ⟨rfl, rfl⟩ := Prod.mk.inj (Option.some.inj h)
    exact step_reserve hp
  · split at h <;> rename_i hv
    · cases h
      exact .resumed _ hp hv
    · cases h
      exact .orphaned hp hv
    · cases h
  · split at h <;> rename_i hn
    · cases h
      exact .requested _ hp hn
    · cases h
      exact .requestFailed _ _ hp hn
    · cases h
  · split at h <;> rename_i hn
    · cases h
    · cases h
      exact .refilled hp hn
  · split at h <;> rename_i hv
    · cases h
      exact .controlChanged _ hp hv
    · cases h
      exact .controlClosed hp hv
    · cases h
  · split at h <;> rename_i hv
    · cases h
      exact .doneChanged _ hp hv
    · cases h
  · split at h
    · rename_i ht
      cases h
      exact .timeout hp ht.1 ht.2
    · cases h
  · cases h
    exact .recvFailed _ hp
  · cases h
    exact .peerClosed hp
  · obtain ⟨rfl, rfl⟩ := Prod.mk.inj (Option.some.inj h)
    exact step_message hp _
  · cases h
    exact .emitted _ _ hp
  · cases h
    exact .signalled hp
  · cases h
    exact .cleanedUp _ hp
  · cases h

end Session

end Torrentina.Download
