import Torrentina.Download.Accounting
import Torrentina.Download.Requests

/-!
# The pipeline on the wire

`in_flight` bounds the requests of the piece in progress. When a session drops
its piece after a timeout or a pause, it forgets the requests that the peer has
not answered, and takes its next piece with a counter of zero. The ledger below
is what the peer still owes, so the bound on the wire is a bound on its length:
it holds as long as a session takes a piece only when what it forgot and what it
is about to request fit the pipeline together.
-/

namespace Torrentina.Download

open Torrentina.Core Peer

/-- The block is exactly the one requested. -/
def answers (block : Block) (request : BlockInfo) : Bool :=
  block.index == request.index && block.begin == request.begin &&
    block.data.length == request.length.toNat

/-- What the peer owes after one more step: a choke discards every pending
request, and a block settles the oldest request it answers. -/
def ledgerAfter (ledger : List BlockInfo) (t : Transition (Shared × Session) SessionEvent) :
    List BlockInfo :=
  match messageOf t.event with
  | some .choke => []
  | some (.piece block) => ledger.eraseP (answers block)
  | _ => ledger ++ (requestOf t).toList

/-- The requests sent on the connection and neither answered nor discarded by a choke. -/
def outstanding (l : Life) : List BlockInfo := l.foldl ledgerAfter []

/-- The peer sends no block but the answer to a request it has not answered. -/
def Conforms (l : Life) (t : Transition (Shared × Session) SessionEvent) : Prop :=
  ∀ block, t.event = .recv (.ok (some (.piece block))) →
    ∃ request ∈ outstanding l, answers block request = true

/-- A piece is taken only when the requests of dropped pieces and the ones the
session is about to send for it fit the pipeline. -/
def HasRoom (l : Life) (t : Transition (Shared × Session) SessionEvent) : Prop :=
  ∀ i, Takes i t →
    (outstanding l).length + min (t.pre.1.geometry.numBlocks i) maxPipelinedRequests ≤
      maxPipelinedRequests

theorem outstanding_snoc (l : Life) (t : Transition (Shared × Session) SessionEvent) :
    outstanding (l ++ [t]) = ledgerAfter (outstanding l) t := by
  rw [outstanding, List.foldl_append]
  rfl

/-- The ledger is in bounds at every moment. While a session has a piece, the
counter covers the ledger, or all that is left to request fits beside it. -/
structure InBounds (l : Life) (p : Session) : Prop where
  bound : ∀ l', l' <+: l → (outstanding l').length ≤ maxPipelinedRequests
  current : ∀ asm, p.current = some asm → (outstanding l).length ≤ p.inFlight ∨
    (outstanding l).length + (asm.received.length - p.nextBlock) ≤ maxPipelinedRequests

section Step

variable {sha1 : List UInt8 → List UInt8} {c c' : Shared} {p p' : Session} {e : SessionEvent}
  {l : Life}

/-- A block settles one request of a conforming peer. -/
theorem length_settle {block : Block} {ledger : List BlockInfo}
    (h : ∃ request ∈ ledger, answers block request = true) :
    (ledger.eraseP (answers block)).length + 1 = ledger.length := by
  obtain ⟨request, hm, ha⟩ := h
  have hpos := List.length_pos_of_mem hm
  rw [List.length_eraseP_of_mem hm ha]
  omega

/-- Only a request makes the ledger longer. -/
theorem length_ledgerAfter {ledger : List BlockInfo}
    {t : Transition (Shared × Session) SessionEvent} (h : ∀ r, t.event ≠ .request (.ok r)) :
    (ledgerAfter ledger t).length ≤ ledger.length := by
  have hnone : requestOf t = none := by
    unfold requestOf
    split
    · rename_i he
      exact absurd he (h ())
    · rfl
  unfold ledgerAfter
  split
  · exact Nat.zero_le _
  · exact List.length_eraseP_le
  · rw [hnone, Option.toList_none, List.append_nil]

/-- The ledger after a request. -/
theorem outstanding_request {block : BlockInfo} (hn : p.nextRequest c.geometry = some block) :
    outstanding (l ++ [⟨(c, p), .request (.ok ()), (c', p')⟩]) = outstanding l ++ [block] := by
  rw [outstanding_snoc]
  simp only [ledgerAfter, messageOf, requestOf, hn, Option.toList_some]

/-- The counter of a session that keeps its piece goes up with a request and
down with a block, and nothing else moves it. -/
theorem Session.Step.inFlight_cases (h : Step sha1 c p e c' p') {asm asm' : PieceAssembler}
    (hold : p.current = some asm) (hcur : p'.current = some asm') :
    p'.inFlight = p.inFlight ∨ p'.inFlight = p.inFlight + 1 ∨
      (∃ block, e = .recv (.ok (some (.piece block)))) ∧ p'.inFlight = p.inFlight - 1 := by
  cases h with
  | reserved index hph hn =>
    rw [hold] at hn
    cases hn
  | endgame index hph hn =>
    rw [hold] at hn
    cases hn
  | requested => exact .inr (.inl rfl)
  | blockAdded block => exact .inr (.inr ⟨⟨block, rfl⟩, rfl⟩)
  | paused =>
    rw [current_dropCurrent] at hcur
    cases hcur
  | choke =>
    rw [current_dropCurrent] at hcur
    cases hcur
  | timeout => cases hcur
  | pieceAlreadyHad => cases hcur
  | pieceVerified => cases hcur
  | pieceBadHash => cases hcur
  | _ => exact .inl rfl

/-- A request finds room in the pipeline. -/
theorem InBounds.request (hl : InBounds l p) (hp : p.Sound sha1 c)
    (h : Session.Step sha1 c p (.request (.ok ())) c' p') :
    ∃ asm block, p.current = some asm ∧ p.nextRequest c.geometry = some block ∧
      p.nextBlock < asm.received.length ∧ p.inFlight < maxPipelinedRequests ∧
      (outstanding l).length < maxPipelinedRequests := by
  obtain ⟨asm, hcur, hch, hlt, hn⟩ := h.request_cases
  rw [← hp.length_received hcur] at hlt
  have hroom : p.inFlight < maxPipelinedRequests := by
    rw [Session.nextRequest_of_current hcur hch] at hn
    split at hn
    · rename_i hroom
      exact hroom.1
    · cases hn
  refine ⟨asm, _, hcur, hn, hlt, hroom, ?_⟩
  rcases hl.current asm hcur with hle | hle
  · exact Nat.lt_of_le_of_lt hle hroom
  · omega

/-- A step against a conforming peer, with room for the piece it may take, keeps the bounds. -/
theorem InBounds.snoc (hl : InBounds l p) (hc : c.Sound sha1) (hp : p.Sound sha1 c)
    (h : Session.Step sha1 c p e c' p') (hconf : Conforms l ⟨(c, p), e, (c', p')⟩)
    (hroom : HasRoom l ⟨(c, p), e, (c', p')⟩) :
    InBounds (l ++ [⟨(c, p), e, (c', p')⟩]) p' := by
  have hbound := hl.bound l (List.prefix_refl l)
  by_cases hreq : e = .request (.ok ())
  · subst hreq
    obtain ⟨asm, block, hcur, hn, hlt, hin, hfree⟩ := hl.request hp h
    have hlen : (outstanding (l ++ [⟨(c, p), .request (.ok ()), (c', p')⟩])).length =
        (outstanding l).length + 1 := by
      rw [outstanding_request hn, List.length_append, List.length_singleton]
    refine ⟨fun l' hpre => ?_, fun asm' hcur' => ?_⟩
    · rcases List.prefix_concat_iff.mp hpre with rfl | hpre
      · rw [hlen]
        exact hfree
      · exact hl.bound l' hpre
    · cases h with
      | requested block' hph hn' =>
        obtain rfl := Option.some.inj (hcur.symm.trans hcur')
        rw [hlen]
        rcases hl.current asm hcur with hle | hle
        · exact .inl (Nat.succ_le_succ hle)
        · right
          simp only
          omega
  · have hne : ∀ r, e ≠ .request (.ok r) := fun r he => hreq he
    have hlen : (outstanding (l ++ [⟨(c, p), e, (c', p')⟩])).length ≤ (outstanding l).length := by
      rw [outstanding_snoc]
      exact length_ledgerAfter hne
    refine ⟨fun l' hpre => ?_, fun asm' hcur' => ?_⟩
    · rcases List.prefix_concat_iff.mp hpre with rfl | hpre
      · exact Nat.le_trans hlen hbound
      · exact hl.bound l' hpre
    · have hflags : asm'.received.length = c.geometry.numBlocks asm'.index := by
        rw [(h.sound hc hp).length_received hcur', h.extends.geometry]
      rcases h.working hc hp hcur' with ⟨hnone, hzero, -⟩ | ⟨asm, hold, hidx, hnext⟩
      · have hfit := hroom asm'.index ⟨hnone, asm', hcur', rfl⟩
        simp only at hfit
        rw [hzero]
        omega
      · have hsame : p'.nextBlock = p.nextBlock := by
          rcases hnext with ⟨hsame, -⟩ | ⟨-, he⟩
          · exact hsame
          · exact absurd he hreq
        rw [hflags, ← hidx, ← hp.length_received hold, hsame]
        rcases hl.current asm hold with hle | hle
        · left
          rcases h.inFlight_cases hold hcur' with hin | hin | ⟨⟨block, rfl⟩, hin⟩
          · omega
          · omega
          · have hset := length_settle (hconf block rfl)
            rw [outstanding_snoc, hin]
            simp only [ledgerAfter, messageOf]
            omega
        · right
          omega

end Step

/-- The bounds are an invariant of a session's life. -/
theorem inBounds_inductive {sha1 : List UInt8 → List UInt8} :
    (swarm sha1).InductiveLife (Shared.Sound sha1) (Session.Sound sha1)
      (fun l t => Conforms l t ∧ HasRoom l t) InBounds where
  spawn c addr c' p hc h := by
    obtain ⟨-, rfl⟩ := swarm_spawn h
    refine ⟨fun l' hpre => ?_, fun asm hcur => ?_⟩
    · rw [List.prefix_nil.mp hpre]
      exact Nat.zero_le _
    · cases hcur
  step l c p e c' p' hc hp hl h hok := hl.snoc hc hp (Session.step_cases h) hok.1 hok.2

/-- The pipeline bound holds on the wire. Against a conforming peer, a session
that takes pieces only when they fit beside what is outstanding never has more
than `MAX_PIPELINED_REQUESTS` requests unanswered. -/
theorem pipeline_bound_on_wire {sha1 : List UInt8 → List UInt8} {info : Info}
    {infoHash peerId : List UInt8} {c : Coordinator}
    (h : Coordinator.new info infoHash peerId = .ok c) {run : Run} {s : Swarm}
    (hr : (c.system sha1).History run s) {k : Nat}
    (hconf : ∀ before t after, PoolProgram.life k run = before ++ t :: after → Conforms before t)
    (hroom : ∀ before t after, PoolProgram.life k run = before ++ t :: after → HasRoom before t)
    {l : Life} (hl : l <+: PoolProgram.life k run) :
    (outstanding l).length ≤ maxPipelinedRequests := by
  cases hp : s.procs[k]? with
  | none =>
    rw [PoolProgram.life_eq_nil hr (List.getElem?_eq_none_iff.mp hp)] at hl
    rw [List.prefix_nil.mp hl]
    exact Nat.zero_le _
  | some p =>
    have hb := inBounds_inductive.history sound_inductive (Coordinator.start_sound sha1 h) hr
      (fun before t after hs => ⟨hconf before t after hs, hroom before t after hs⟩) hp
    exact hb.bound l hl

/-- A check that no block is received. -/
def silent (l : Life) : Bool :=
  l.all fun t => !(t.event matches .recv (.ok (some (.piece _))))

theorem conforms_of_silent {l : Life} (h : silent l = true) :
    ∀ before t after, l = before ++ t :: after → Conforms before t := by
  rintro before t after rfl block he
  have hnot := List.all_eq_true.mp h t (by simp)
  rw [he] at hnot
  cases hnot

/-- A check that nothing is outstanding when a piece is taken. -/
def settled (l : Life) : Bool :=
  (List.range l.length).all fun n =>
    match l[n]? with
    | some t => t.pre.2.current.isSome || t.post.2.current.isNone ||
        (outstanding (l.take n)).isEmpty
    | none => true

theorem hasRoom_of_settled {l : Life} (h : settled l = true) :
    ∀ before t after, l = before ++ t :: after → HasRoom before t := by
  rintro before t after rfl i ⟨hpre, asm, hpost, -⟩
  have hmem : before.length ∈ List.range (before ++ t :: after).length := by
    simp
  have hn := List.all_eq_true.mp h before.length hmem
  simp only [List.getElem?_append_right (Nat.le_refl _), Nat.sub_self, List.getElem?_cons_zero,
    hpre, hpost, List.take_left, Option.isSome_none, Option.isNone_some, Bool.false_or,
    List.isEmpty_iff] at hn
  rw [hn, List.length_nil, Nat.zero_add]
  exact Nat.min_le_right _ _

theorem pipeline_bound_on_wire_threeBlocks : ∃ run s,
    (threeBlocks.system sha1OfA).History run s ∧
      (outstanding (PoolProgram.life 0 run)).length = 3 ∧
      (outstanding (PoolProgram.life 0 run)).length ≤ maxPipelinedRequests := by
  have hr : (threeBlocks.system sha1OfA).History _ _ := System.History.ofExec threeBlocksAsked rfl
  exact ⟨_, _, hr, rfl, pipeline_bound_on_wire threeBlocks_new hr (conforms_of_silent rfl)
    (hasRoom_of_settled rfl) (List.prefix_refl _)⟩

/-- Every request of the piece of three blocks is sent twice: the peer is silent,
the session times out, takes the piece again and asks again. -/
theorem timeout_exceeds_pipeline : ∃ run s, (threeBlocks.system sha1OfA).History run s ∧
    (∀ before t after, PoolProgram.life 0 run = before ++ t :: after → Conforms before t) ∧
      (outstanding (PoolProgram.life 0 run)).length = 6 := by
  have hr : (threeBlocks.system sha1OfA).History _ _ :=
    System.History.ofExec (threeBlocksAsked ++ [.proc 0 .timeout] ++ Trace.takeBlocks 0 3) rfl
  exact ⟨_, _, hr, conforms_of_silent rfl, rfl⟩

end Torrentina.Download
