import Torrentina.Download.Coordinator
import Mathlib.Data.Bool.Count

/-!
# Request accounting

`in_flight` stands for the blocks that were requested and have not arrived. It
goes up with every request and down with every block the assembler takes, so it
is exact in every run in which each block taken was missing and was requested,
or is the one the session requests next. A block delivered twice is taken twice
and counted twice, and then the counter can reach zero while blocks are missing:
the stall timer of the session is not armed any more.
-/

namespace Torrentina.Download

open Torrentina.Core Peer

/-- How many of the first `n` blocks have not been received. -/
def PieceAssembler.missing (asm : PieceAssembler) (n : Nat) : Nat :=
  (asm.received.take n).count false

/-- A block the session takes for its piece has not been received before, and it
was requested or is the next one to be. -/
def TakesOutstanding (_ : Shared) (p : Session) : SessionEvent → Prop
  | .recv (.ok (some (.piece block))) => ∀ asm asm', p.current = some asm →
      block.index.toNat = asm.index →
      asm.addBlock block.begin.toNat block.data = .ok asm' →
      asm.received[block.begin.toNat / blockSize]? = some false ∧
        block.begin.toNat / blockSize ≤ p.nextBlock
  | _ => True

/-- The books of a session with a piece in progress. A received block that was
not requested yet is the next in line, and there is room to request it. -/
structure Balances (p : Session) (asm : PieceAssembler) : Prop where
  unchoked : p.choked = false
  incomplete : asm.isComplete = false
  balance : p.inFlight + asm.received.count true = p.nextBlock
  next_le : p.nextBlock ≤ asm.received.length
  inFlight_le : p.inFlight ≤ maxPipelinedRequests
  received : ∀ b, asm.received[b]? = some true → b < p.nextBlock ∨
    b = p.nextBlock ∧ p.inFlight < maxPipelinedRequests ∧ p.phase ≠ .selecting
  full : p.phase = .selecting →
    p.inFlight = maxPipelinedRequests ∨ p.nextBlock = asm.received.length

/-- A session's books are in order whenever it has a piece in progress. -/
def Session.Accounted (p : Session) : Prop := ∀ asm, p.current = some asm → Balances p asm

namespace Balances

variable {p p' : Session} {asm : PieceAssembler} {g : Geometry}

theorem count_true_lt (h : Balances p asm) : asm.received.count true < asm.received.length := by
  have hsum := List.count_true_add_count_false asm.received
  have hrem := asm.remaining_eq
  have hinc := h.incomplete
  simp only [PieceAssembler.isComplete, beq_eq_false_iff_ne] at hinc
  omega

/-- A waiting session has requests in flight. -/
theorem inFlight_pos (h : Balances p asm) (hp : p.phase = .selecting) : 0 < p.inFlight := by
  have hlt := h.count_true_lt
  have hbal := h.balance
  rcases h.full hp with hf | hf
  · rw [hf]
    decide
  · omega

/-- At the wait, what is in flight is what was requested and is missing. -/
theorem inFlight_eq (h : Balances p asm) (hp : p.phase = .selecting) :
    p.inFlight = asm.missing p.nextBlock := by
  have hdrop : (asm.received.drop p.nextBlock).count true = 0 := by
    rw [List.count_eq_zero]
    intro hm
    obtain ⟨b, hb⟩ := List.mem_iff_getElem?.mp hm
    rw [List.getElem?_drop] at hb
    rcases h.received _ hb with hlt | ⟨-, -, hne⟩
    · omega
    · exact hne hp
  have hsplit : asm.received.count true = (asm.received.take p.nextBlock).count true := by
    conv_lhs => rw [← List.take_append_drop p.nextBlock asm.received]
    rw [List.count_append, hdrop, Nat.add_zero]
  have hsum := List.count_true_add_count_false (asm.received.take p.nextBlock)
  rw [List.length_take, Nat.min_eq_left h.next_le] at hsum
  have hbal := h.balance
  rw [PieceAssembler.missing]
  omega

/-- A step to another phase than the wait that leaves the books alone. -/
theorem of_same (h : Balances p asm) (hch : p'.choked = p.choked)
    (hnext : p'.nextBlock = p.nextBlock) (hin : p'.inFlight = p.inFlight)
    (hphase : p'.phase ≠ .selecting) : Balances p' asm where
  unchoked := by rw [hch, h.unchoked]
  incomplete := h.incomplete
  balance := by rw [hin, hnext, h.balance]
  next_le := by rw [hnext]; exact h.next_le
  inFlight_le := by rw [hin]; exact h.inFlight_le
  received b hb := by
    rw [hnext, hin]
    rcases h.received b hb with hlt | ⟨he, hf, -⟩
    · exact .inl hlt
    · exact .inr ⟨he, hf, hphase⟩
  full hp := absurd hp hphase

/-- A freshly assigned piece has no books yet. -/
theorem assign (hg : g.WellFormed) (hch : p.choked = false) (index : Nat) (exclusive : Bool) :
    Balances (p.assign g index exclusive)
      (PieceAssembler.new index (g.pieceLengthOf index)) where
  unchoked := hch
  incomplete := by
    have hpos := hg.pieceLengthOf_pos index
    have hcount : 0 < blockCount (g.pieceLengthOf index) := by
      rwa [lt_blockCount_iff, Nat.zero_mul]
    simp only [PieceAssembler.isComplete, PieceAssembler.new, beq_eq_false_iff_ne]
    omega
  balance := by
    rw [PieceAssembler.new, List.count_replicate]
    rfl
  next_le := Nat.zero_le _
  inFlight_le := Nat.zero_le _
  received b hb := by
    cases List.eq_of_mem_replicate (List.mem_of_getElem? hb)
  full hp := by cases hp

/-- A request adds one to both sides. -/
theorem request (h : Balances p asm) (hp : p.phase = .refilling)
    (hin : p.inFlight < maxPipelinedRequests) (hnext : p.nextBlock < asm.received.length) :
    Balances { p with nextBlock := p.nextBlock + 1, inFlight := p.inFlight + 1 } asm where
  unchoked := h.unchoked
  incomplete := h.incomplete
  balance := by
    have := h.balance
    simp only
    omega
  next_le := hnext
  inFlight_le := hin
  received b hb := by
    left
    rcases h.received b hb with hlt | ⟨rfl, -⟩
    · exact Nat.lt_succ_of_lt hlt
    · exact Nat.lt_succ_self _
  full hsel := by
    rw [hp] at hsel
    cases hsel

/-- The refill ends with the pipeline full or every block requested. -/
theorem refilled (h : Balances p asm)
    (hend : ¬(p.inFlight < maxPipelinedRequests ∧ p.nextBlock < asm.received.length)) :
    Balances { p with phase := .selecting } asm where
  unchoked := h.unchoked
  incomplete := h.incomplete
  balance := h.balance
  next_le := h.next_le
  inFlight_le := h.inFlight_le
  received b hb := by
    rcases h.received b hb with hlt | ⟨rfl, hin, -⟩
    · exact .inl hlt
    · exact absurd ⟨hin, (List.getElem?_eq_some_iff.mp hb).1⟩ hend
  full _ := by
    have := h.inFlight_le
    have := h.next_le
    simp only
    omega

/-- A missing block that was requested, or is the next one to be, takes one off both sides. -/
theorem take (h : Balances p asm) (hp : p.phase = .selecting) {asm' : PieceAssembler} {b : Nat}
    (hmiss : asm.received[b]? = some false) (hreq : b ≤ p.nextBlock)
    (hrec : asm'.received = asm.received.set b true) (hinc : asm'.isComplete = false) :
    Balances { p with phase := .top, current := some asm', inFlight := p.inFlight - 1 } asm' where
  unchoked := h.unchoked
  incomplete := hinc
  balance := by
    have hpos := h.inFlight_pos hp
    have hbal := h.balance
    obtain ⟨hb, hget⟩ := List.getElem?_eq_some_iff.mp hmiss
    have hcount : (asm.received.set b true).count true = asm.received.count true + 1 := by
      rw [List.count_set hb, hget]
      simp
    simp only [hrec, hcount]
    omega
  next_le := by
    rw [hrec, List.length_set]
    exact h.next_le
  inFlight_le := Nat.le_trans (Nat.sub_le _ _) h.inFlight_le
  received b' hb' := by
    have hpos := h.inFlight_pos hp
    have hle := h.inFlight_le
    rw [hrec] at hb'
    have hold : b' = b ∨ b' < p.nextBlock := by
      by_cases he : b = b'
      · exact .inl he.symm
      · rw [List.getElem?_set_ne he] at hb'
        rcases h.received b' hb' with hlt | ⟨-, -, hne⟩
        · exact .inr hlt
        · exact absurd hp hne
    simp only
    rcases hold with rfl | hlt
    · rcases Nat.lt_or_eq_of_le hreq with hlt | heq
      · exact .inl hlt
      · exact .inr ⟨heq, by omega, fun h => by cases h⟩
    · exact .inl hlt
  full hsel := by cases hsel

end Balances

section Step

variable {sha1 : List UInt8 → List UInt8} {c c' : Shared} {p p' : Session} {e : SessionEvent}

/-- There is one flag for each block the geometry gives the piece. -/
theorem Session.Sound.length_received (hp : p.Sound sha1 c) {asm : PieceAssembler}
    (hcur : p.current = some asm) : asm.received.length = c.geometry.numBlocks asm.index := by
  rw [asm.length_received, (hp.current asm hcur).2]
  rfl

/-- The refill loop of a session with a piece goes on while there is room and a block left. -/
theorem Session.nextRequest_of_current {g : Geometry} {asm : PieceAssembler}
    (hcur : p.current = some asm) (hch : p.choked = false) : p.nextRequest g =
      if p.inFlight < maxPipelinedRequests ∧ p.nextBlock < g.numBlocks asm.index then
        some (g.blockInfo asm.index p.nextBlock)
      else none := by
  rw [nextRequest, hch, hcur]
  rfl

/-- A step that takes only outstanding blocks keeps the books of its session. -/
theorem Session.Step.accounted (hc : c.Sound sha1) (hp : p.Sound sha1 c) (ha : p.Accounted)
    (hok : TakesOutstanding c p e) (h : Step sha1 c p e c' p') : p'.Accounted := by
  intro asm hcur
  cases h with
  | reserved index hph hn hch hr =>
    obtain rfl := Option.some.inj hcur
    exact Balances.assign hc.wellFormed hch index true
  | endgame index hph hn hch hr hd he =>
    obtain rfl := Option.some.inj hcur
    exact Balances.assign hc.wellFormed hch index false
  | requested block hph hn =>
    change p.current = some asm at hcur
    have hb := ha asm hcur
    rw [nextRequest_of_current hcur hb.unchoked, ← hp.length_received hcur] at hn
    split at hn
    · rename_i hroom
      exact hb.request hph hroom.1 hroom.2
    · cases hn
  | refilled hph hn =>
    change p.current = some asm at hcur
    have hb := ha asm hcur
    rw [nextRequest_of_current hcur hb.unchoked, ← hp.length_received hcur] at hn
    split at hn
    · cases hn
    · rename_i hend
      exact hb.refilled hend
  | blockAdded block old asm' hph hold hi hadd hd =>
    obtain rfl := Option.some.inj hcur
    obtain ⟨hmiss, hreq⟩ := hok old asm' hold hi hadd
    obtain ⟨-, -, -, -, hrec⟩ := PieceAssembler.addBlock_eq_ok hadd
    exact (ha old hold).take hph hmiss hreq hrec hd
  | paused =>
    rw [current_dropCurrent] at hcur
    cases hcur
  | choke =>
    rw [current_dropCurrent] at hcur
    cases hcur
  | timeout => cases hcur
  | pieceAlreadyHad => cases hcur
  | pieceVerified => cases hcur
  | pieceBadHash => cases hcur
  | unchoke hph =>
    have hb := ha asm hcur
    exact hb.of_same hb.unchoked.symm rfl rfl (fun h => by cases h)
  | emitted piece complete hph =>
    refine (ha asm hcur).of_same rfl rfl rfl fun h => ?_
    rcases ite_phase_cases h with h | ⟨h, -⟩ <;> cases h
  | _ => exact (ha asm hcur).of_same rfl rfl rfl (fun h => by cases h)

end Step

/-- The books are an invariant of the runs that take only outstanding blocks. -/
theorem accounted_inductive {sha1 : List UInt8 → List UInt8} :
    (swarm sha1).InductiveWhere TakesOutstanding (Shared.Sound sha1)
      fun c p => p.Sound sha1 c ∧ p.Accounted where
  spawn c addr c' p hc h := by
    obtain ⟨hc', hp, hx⟩ := hc.spawn h
    refine ⟨hc', ⟨hp, ?_⟩, fun q hq => ⟨hq.1.extends hx, hq.2⟩⟩
    obtain ⟨-, rfl⟩ := swarm_spawn h
    intro asm hcur
    cases hcur
  step c p e c' p' hc hp hok h := by
    have hs := Session.step_cases h
    exact ⟨hs.sound_shared hc hp.1, ⟨hs.sound hc hp.1, hs.accounted hc hp.1 hp.2 hok⟩,
      fun q hq => ⟨hq.1.extends hs.extends, hq.2⟩⟩
  env c e c' hc h := by
    obtain ⟨hc', hx⟩ := hc.env h
    exact ⟨hc', fun q hq => ⟨hq.1.extends hx, hq.2⟩⟩

/-- Exact accounting. In every run in which each block a session takes for its
piece was missing, and was requested or is the next to be, a session that waits
with a piece has as many requests in flight as requested blocks are missing.
There is at least one, so the stall timer is armed. -/
theorem request_accounting_exact {sha1 : List UInt8 → List UInt8} {info : Info}
    {infoHash peerId : List UInt8} {c : Coordinator}
    (h : Coordinator.new info infoHash peerId = .ok c) {run : Run} {s : Swarm}
    (hr : (c.system sha1).HistoryWhere (PoolProgram.EveryStep TakesOutstanding) run s)
    {p : Session} (hp : p ∈ s.procs) (hphase : p.phase = .selecting) {asm : PieceAssembler}
    (hcur : p.current = some asm) :
    p.inFlight = asm.missing p.nextBlock ∧ 0 < p.inFlight ∧
      (Session.step sha1 s.shared p .timeout).isSome := by
  have hall := (accounted_inductive.history (Coordinator.start_sound sha1 h) hr).2
  have hb := (hall p hp).2 asm hcur
  have hpos := hb.inFlight_pos hphase
  refine ⟨hb.inFlight_eq hphase, hpos, ?_⟩
  simp [Session.step, hphase, hcur, hpos]

/-- The peer sends the last block of the piece. -/
def lastBlock : Message := .piece ⟨0, 32768, [0x61]⟩

/-- A check that implies the side condition: a block that is delivered is missing, and
requested or the next in line. -/
def acceptsAsked (s : Swarm) : SwarmEvent → Bool
  | .proc k (.recv (.ok (some (.piece block)))) => (s.procs[k]?).all fun p =>
      p.current.all fun asm =>
        decide (asm.received[block.begin.toNat / blockSize]? = some false) &&
          decide (block.begin.toNat / blockSize ≤ p.nextBlock)
  | _ => true

theorem takesOutstanding_of_acceptsAsked (s : Swarm) (e : SwarmEvent)
    (h : acceptsAsked s e = true) : PoolProgram.EveryStep TakesOutstanding s e := by
  rintro k ev p rfl hk
  unfold TakesOutstanding
  split
  · intro asm asm' hcur _ _
    simpa [acceptsAsked, hk, hcur] using h
  · trivial

/-- The session is asked for all three blocks and gets the last of them; two requests are
in flight. -/
theorem request_accounting_exact_threeBlocks : ∃ run s p asm,
    (threeBlocks.system sha1OfA).HistoryWhere (PoolProgram.EveryStep TakesOutstanding) run s ∧
      p ∈ s.procs ∧ p.phase = .selecting ∧ p.current = some asm ∧
      asm.received = [false, false, true] ∧ p.nextBlock = 3 ∧
      p.inFlight = asm.missing p.nextBlock ∧ p.inFlight = 2 := by
  obtain ⟨run, hr, -⟩ := System.HistoryWhere.execWhile acceptsAsked takesOutstanding_of_acceptsAsked
    (.nil : (threeBlocks.system sha1OfA).HistoryWhere _ [] _)
    (threeBlocksAsked ++ Trace.deliver 0 lastBlock) rfl
  exact ⟨_, _, _, _, hr, List.mem_cons_self, rfl, rfl, rfl, rfl,
    (request_accounting_exact threeBlocks_new hr List.mem_cons_self rfl rfl).1, rfl⟩

/-- The last block delivered three times empties the counter while two blocks
are missing, and the session waits with its timer off. -/
theorem duplicate_blocks_disarm_timer : ∃ s p asm,
    (threeBlocks.system sha1OfA).Reachable s ∧ p ∈ s.procs ∧ p.phase = .selecting ∧
      p.current = some asm ∧ p.inFlight = 0 ∧ asm.missing p.nextBlock = 2 ∧
      Session.step sha1OfA s.shared p .timeout = none := by
  have hr : (threeBlocks.system sha1OfA).Reachable _ :=
    System.Reachable.init.exec
      (threeBlocksAsked ++ Trace.deliver 0 lastBlock ++ Trace.deliver 0 lastBlock ++
        Trace.deliver 0 lastBlock) rfl
  exact ⟨_, _, _, hr, List.mem_cons_self, rfl, rfl, rfl, rfl, rfl⟩

end Torrentina.Download
