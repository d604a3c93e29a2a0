import Torrentina.Core.Life
import Torrentina.Download.Coordinator

/-!
# Request discipline

What a session requests, against everything it did and received before: every
request is a block of a piece it took, the peer advertised that piece, the
client lacked it when it was taken, the last choke message was an unchoke, and
the blocks are requested in order from the first one, without gap or repetition.
-/

namespace Torrentina.Download

open Torrentina.Core Peer

/-- What a session did, in order. -/
abbrev Life := List (Transition (Shared × Session) SessionEvent)

/-- The message an event delivers. -/
def messageOf : SessionEvent → Option Message
  | .recv (.ok m) => m
  | _ => none

/-- The messages a session received. -/
def receivedMessages (l : Life) : List Message := l.filterMap fun t => messageOf t.event

/-- The block a step requests. -/
def requestOf (t : Transition (Shared × Session) SessionEvent) : Option BlockInfo :=
  match t.event with
  | .request (.ok ()) => t.pre.2.nextRequest t.pre.1.geometry
  | _ => none

/-- The blocks a session requested. -/
def requestedBlocks (l : Life) : List BlockInfo := l.filterMap requestOf

/-- The last choke or unchoke message, after one more event. -/
def chokeAfter (last : Option Message) (e : SessionEvent) : Option Message :=
  match messageOf e with
  | some .choke => some .choke
  | some .unchoke => some .unchoke
  | _ => last

/-- The last choke or unchoke message a session received. -/
def lastChoke (l : Life) : Option Message := l.foldl (fun last t => chokeAfter last t.event) none

/-- The message says that its sender has piece `i`. -/
def Advertises (m : Message) (i : Nat) : Prop :=
  match m with
  | .have index => index.toNat = i
  | .bitfield bits => packedBit bits i = true
  | _ => False

/-- The session assigns piece `i` to `current`. -/
def Takes (i : Nat) (t : Transition (Shared × Session) SessionEvent) : Prop :=
  t.pre.2.current = none ∧ ∃ asm, t.post.2.current = some asm ∧ asm.index = i

/-- A block the geometry has. -/
structure Within (g : Geometry) (block : BlockInfo) : Prop where
  index_lt : block.index.toNat < g.numPieces
  aligned : block.begin.toNat % blockSize = 0
  length_pos : 1 ≤ block.length.toNat
  length_le : block.length.toNat ≤ blockSize
  inside : block.begin.toNat + block.length.toNat ≤ g.pieceLengthOf block.index.toNat

/-- The session took piece `i`, which its peer had advertised and the client
lacked, has taken no other since, and has requested `blocks` of it. -/
def Working (i : Nat) (blocks : List BlockInfo) (l : Life) : Prop :=
  ∃ first t rest, l = first ++ t :: rest ∧ Takes i t ∧ (∀ u ∈ rest, ∀ j, ¬Takes j u) ∧
    (∃ m ∈ receivedMessages first, Advertises m i) ∧ t.pre.2.peerHas.has i = true ∧
    t.pre.1.tracker.has i = false ∧ requestedBlocks rest = blocks

/-- A request in order: its block is one of the geometry's, the session is
unchoked, and it has requested exactly the blocks before this one. -/
structure InOrder (g : Geometry) (l : Life) (block : BlockInfo) : Prop where
  within_ : Within g block
  unchoked : lastChoke l = some .unchoke
  working : ∃ n, block = g.blockInfo block.index.toNat n ∧
    Working block.index.toNat ((List.range n).map (g.blockInfo block.index.toNat)) l

/-- What a session's life says about the session. -/
structure Recorded (g : Geometry) (l : Life) (p : Session) : Prop where
  choked : p.choked = false → lastChoke l = some .unchoke
  advertised : ∀ i, p.peerHas.has i = true → ∃ m ∈ receivedMessages l, Advertises m i
  current : ∀ asm, p.current = some asm →
    Working asm.index ((List.range p.nextBlock).map (g.blockInfo asm.index)) l
  requests : ∀ before t after r, l = before ++ t :: after → t.event = .request r →
    ∃ block, t.pre.2.nextRequest t.pre.1.geometry = some block ∧ InOrder g before block

theorem filterMap_snoc {α β : Type} (f : α → Option β) (l : List α) (a : α) :
    (l ++ [a]).filterMap f = l.filterMap f ++ (f a).toList := by
  rw [List.filterMap_append, List.filterMap_cons]
  cases f a <;> rfl

theorem lastChoke_snoc (l : Life) (t : Transition (Shared × Session) SessionEvent) :
    lastChoke (l ++ [t]) = chokeAfter (lastChoke l) t.event := by
  rw [lastChoke, List.foldl_append]
  rfl

section Step

variable {sha1 : List UInt8 → List UInt8} {c c' : Shared} {p p' : Session} {e : SessionEvent}

/-- The choke flag follows the choke messages. -/
theorem Session.Step.unchoked {last : Option Message} (h : Step sha1 c p e c' p')
    (hp : p.choked = false → last = some .unchoke) (hp' : p'.choked = false) :
    chokeAfter last e = some .unchoke := by
  cases h with
  | unchoke => rfl
  | choke => cases hp'
  | paused =>
    rw [choked_dropCurrent] at hp'
    exact hp hp'
  | messageIgnored message hph hm => cases message <;> first | exact hp hp' | cases hm
  | _ => exact hp hp'

/-- A session learns that its peer has a piece from a message that says so. -/
theorem Session.Step.advertised (h : Step sha1 c p e c' p') {i : Nat}
    (hi : p'.peerHas.has i = true) :
    p.peerHas.has i = true ∨ ∃ m, messageOf e = some m ∧ Advertises m i := by
  cases h with
  | haveNew index =>
    simp only [Bitfield.has_set, Bool.or_eq_true, decide_eq_true_eq] at hi
    rcases hi with hi | ⟨rfl, -⟩
    · exact .inl hi
    · exact .inr ⟨_, rfl, rfl⟩
  | bitfield bits newHas hph hb => exact .inr ⟨_, rfl, Bitfield.has_fromBytes hb hi⟩
  | paused =>
    rw [peerHas_dropCurrent] at hi
    exact .inl hi
  | choke =>
    rw [peerHas_dropCurrent] at hi
    exact .inl hi
  | _ => exact .inl hi

/-- A session with a piece after a step took it in that step, or kept it and
requested nothing or its next block. -/
theorem Session.Step.working (hc : c.Sound sha1) (hp : p.Sound sha1 c)
    (h : Step sha1 c p e c' p') {asm' : PieceAssembler} (hcur : p'.current = some asm') :
    (p.current = none ∧ p'.nextBlock = 0 ∧ p.peerHas.has asm'.index = true ∧
        c.tracker.has asm'.index = false) ∨
      ∃ asm, p.current = some asm ∧ asm.index = asm'.index ∧
        (p'.nextBlock = p.nextBlock ∧ (∀ r, e ≠ .request (.ok r)) ∨
          p'.nextBlock = p.nextBlock + 1 ∧ e = .request (.ok ())) := by
  have hlt := hc.wellFormed.numPieces_lt
  have hnum : p.peerHas.numPieces ≤ 2 ^ 32 := by
    rw [hp.peerHas]
    omega
  cases h with
  | reserved index hph hn hch hr =>
    obtain rfl := Option.some.inj hcur
    obtain ⟨-, hnot, hhas, -⟩ := PieceTracker.rarestNeeded_eligible hnum hr
    exact .inl ⟨hn, rfl, hhas, hnot⟩
  | endgame index hph hn hch hr hd he =>
    obtain rfl := Option.some.inj hcur
    obtain ⟨-, hnot, hhas, -⟩ := PieceTracker.rarestNeeded_eligible hnum he
    exact .inl ⟨hn, rfl, hhas, hnot⟩
  | requested block hph hn => exact .inr ⟨asm', hcur, rfl, .inr ⟨rfl, rfl⟩⟩
  | blockAdded block asm added hph hold hi hadd hd =>
    obtain rfl := Option.some.inj hcur
    have hidx := (PieceAssembler.addBlock_frame hadd).1
    exact .inr ⟨asm, hold, hidx.symm, .inl ⟨rfl, fun r h => by cases h⟩⟩
  | paused =>
    rw [current_dropCurrent] at hcur
    cases hcur
  | choke =>
    rw [current_dropCurrent] at hcur
    cases hcur
  | timeout => cases hcur
  | pieceAlreadyHad => cases hcur
  | pieceVerified => cases hcur
  | pieceBadHash => cases hcur
  | _ => exact .inr ⟨asm', hcur, rfl, .inl ⟨rfl, fun r h => by cases h⟩⟩

/-- What a request step requests. -/
theorem Session.Step.request_cases {r : Except Error Unit} (h : Step sha1 c p (.request r) c' p') :
    ∃ asm, p.current = some asm ∧ p.choked = false ∧
      p.nextBlock < c.geometry.numBlocks asm.index ∧
      p.nextRequest c.geometry = some (c.geometry.blockInfo asm.index p.nextBlock) := by
  have hsome : ∃ block, p.nextRequest c.geometry = some block := by
    cases h with
    | requested block hph hn => exact ⟨block, hn⟩
    | requestFailed block err hph hn => exact ⟨block, hn⟩
  obtain ⟨block, hn⟩ := hsome
  have hn' := hn
  unfold nextRequest at hn'
  split at hn'
  · cases hn'
  rename_i hch
  split at hn'
  · rename_i asm hcur
    split at hn'
    · rename_i hroom
      obtain rfl := Option.some.inj hn'
      exact ⟨asm, hcur, Bool.not_eq_true _ ▸ hch, hroom.2, hn⟩
    · cases hn'
  · cases hn'

end Step

/-- A session that works on a piece still does after a step that takes none. -/
theorem Working.snoc {i : Nat} {blocks : List BlockInfo} {l : Life}
    {t : Transition (Shared × Session) SessionEvent} (h : Working i blocks l)
    (ht : t.pre.2.current ≠ none) : Working i (blocks ++ (requestOf t).toList) (l ++ [t]) := by
  obtain ⟨first, u, rest, rfl, htakes, hno, hadv, hhas, hnot, hblocks⟩ := h
  refine ⟨first, u, rest ++ [t], by simp, htakes, fun v hv j hj => ?_, hadv, hhas, hnot, ?_⟩
  · rcases List.mem_append.mp hv with hv | hv
    · exact hno v hv j hj
    · obtain rfl := List.mem_singleton.mp hv
      exact ht hj.1
  · rw [requestedBlocks, filterMap_snoc, ← hblocks]
    rfl

/-- The request of a working session is in order. -/
theorem Recorded.inOrder {sha1 : List UInt8 → List UInt8} {c c' : Shared} {p p' : Session}
    {l : Life} {r : Except Error Unit} (hl : Recorded c.geometry l p) (hc : c.Sound sha1)
    (hp : p.Sound sha1 c) (h : Session.Step sha1 c p (.request r) c' p') :
    ∃ block, p.nextRequest c.geometry = some block ∧ InOrder c.geometry l block := by
  obtain ⟨asm, hcur, hch, hlt, hn⟩ := h.request_cases
  obtain ⟨hidx, -⟩ := hp.current asm hcur
  obtain ⟨hi, hb, hpos, hle, hin⟩ := hc.wellFormed.blockInfo_spec hidx hlt
  refine ⟨_, hn, ⟨?_, ?_, hpos, hle, ?_⟩, hl.choked hch, p.nextBlock, ?_, ?_⟩
  · rwa [hi]
  · rw [hb, Nat.mul_mod_left]
  · rwa [hi, hb]
  · rw [hi]
  · rw [hi]
    exact hl.current asm hcur

/-- The record of a session is kept by its steps. -/
theorem Recorded.snoc {sha1 : List UInt8 → List UInt8} {c c' : Shared} {p p' : Session}
    {e : SessionEvent} {l : Life} (hl : Recorded c.geometry l p) (hc : c.Sound sha1)
    (hp : p.Sound sha1 c) (h : Session.Step sha1 c p e c' p') :
    Recorded c.geometry (l ++ [⟨(c, p), e, (c', p')⟩]) p' where
  choked hch := by
    rw [lastChoke_snoc]
    exact h.unchoked hl.choked hch
  advertised i hi := by
    rw [receivedMessages, filterMap_snoc]
    rcases h.advertised hi with hi | ⟨m, hm, ha⟩
    · obtain ⟨m, hm, ha⟩ := hl.advertised i hi
      exact ⟨m, List.mem_append_left _ hm, ha⟩
    · exact ⟨m, List.mem_append_right _ (by simp [hm]), ha⟩
  current asm' hcur := by
    rcases h.working hc hp hcur with ⟨hn, hzero, hhas, hnot⟩ | ⟨asm, hold, hidx, hnext⟩
    · rw [hzero]
      refine ⟨l, _, [], rfl, ⟨hn, asm', hcur, rfl⟩, fun u hu => ?_, hl.advertised _ hhas, hhas,
        hnot, rfl⟩
      cases hu
    · have hwork := (hl.current asm hold).snoc (t := ⟨(c, p), e, (c', p')⟩)
        (by rw [hold]; exact Option.some_ne_none asm)
      rw [← hidx]
      rcases hnext with ⟨hsame, hne⟩ | ⟨hsucc, rfl⟩
      · have hnone : requestOf ⟨(c, p), e, (c', p')⟩ = none := by
          unfold requestOf
          split
          · rename_i he
            exact absurd he (hne ())
          · rfl
        rw [hnone, Option.toList_none, List.append_nil] at hwork
        rwa [hsame]
      · obtain ⟨asm₂, hcur₂, -, -, hreq⟩ := h.request_cases
        obtain rfl := Option.some.inj (hold.symm.trans hcur₂)
        rw [requestOf, hreq, Option.toList_some] at hwork
        rwa [hsucc, List.range_succ, List.map_append]
  requests before t after r hsplit hreq := by
    rcases List.eq_nil_or_concat after with rfl | ⟨after', u, rfl⟩
    · obtain ⟨rfl, ht⟩ := List.append_inj' hsplit rfl
      obtain rfl := List.head_eq_of_cons_eq ht
      obtain rfl : e = .request r := hreq
      exact hl.inOrder hc hp h
    · rw [List.concat_eq_append, ← List.cons_append, ← List.append_assoc] at hsplit
      exact hl.requests before t after' r (List.append_inj' hsplit rfl).1 hreq

/-- Soundness with the geometry the run started from. -/
theorem sound_geometry_inductive {sha1 : List UInt8 → List UInt8} (g : Geometry) :
    (swarm sha1).Inductive (fun c => c.Sound sha1 ∧ c.geometry = g) (Session.Sound sha1) where
  spawn c addr c' p hc h := by
    obtain ⟨hc', hp, hx⟩ := hc.1.spawn h
    exact ⟨⟨hc', hx.geometry.trans hc.2⟩, hp, fun q hq => hq.extends hx⟩
  step c p e c' p' hc hp h := by
    have hs := Session.step_cases h
    exact ⟨⟨hs.sound_shared hc.1 hp, hs.extends.geometry.trans hc.2⟩, hs.sound hc.1 hp,
      fun q hq => hq.extends hs.extends⟩
  env c e c' hc h := by
    obtain ⟨hc', hx⟩ := hc.1.env h
    exact ⟨⟨hc', hx.geometry.trans hc.2⟩, fun q hq => hq.extends hx⟩

/-- The record is an invariant of a session's life. -/
theorem recorded_inductive {sha1 : List UInt8 → List UInt8} (g : Geometry) :
    (swarm sha1).InductiveLife (fun c => c.Sound sha1 ∧ c.geometry = g) (Session.Sound sha1)
      (fun _ _ => True) (Recorded g) where
  spawn c addr c' p hc h := by
    obtain ⟨-, rfl⟩ := swarm_spawn h
    refine ⟨fun hch => ?_, fun i hi => ?_, fun asm hcur => ?_, fun before t after r hsplit => ?_⟩
    · cases hch
    · rw [Session.new, Bitfield.has_new] at hi
      cases hi
    · cases hcur
    · simp at hsplit
  step l c p e c' p' hc hp hl h _ := by
    obtain ⟨hsound, rfl⟩ := hc
    exact hl.snoc hsound hp (Session.step_cases h)

/-- Request discipline. Every request a session sends is a block of the torrent;
the last choke message before it is an unchoke; and it is the next block of the
piece the session took last, all earlier blocks of which it has requested in
order since. The peer had advertised that piece, and the client lacked it when
the session took it. -/
theorem request_discipline {sha1 : List UInt8 → List UInt8} {info : Info}
    {infoHash peerId : List UInt8} {c : Coordinator}
    (h : Coordinator.new info infoHash peerId = .ok c) {run : Run} {s : Swarm}
    (hr : (c.system sha1).History run s) {k : Nat} {before after : Life}
    {t : Transition (Shared × Session) SessionEvent} {r : Except Error Unit}
    (hsplit : PoolProgram.life k run = before ++ t :: after) (hreq : t.event = .request r) :
    ∃ block, t.pre.2.nextRequest t.pre.1.geometry = some block ∧
      InOrder c.geometry before block := by
  cases hp : s.procs[k]? with
  | none =>
    rw [PoolProgram.life_eq_nil hr (List.getElem?_eq_none_iff.mp hp)] at hsplit
    simp at hsplit
  | some p =>
    have hrec := (recorded_inductive c.geometry).history (sound_geometry_inductive c.geometry)
      ⟨Coordinator.start_sound sha1 h, rfl⟩ hr (fun _ _ _ _ => trivial) hp
    exact hrec.requests before t after r hsplit hreq

/-- The peer offers the piece of three blocks and unchokes, and is asked for two of them. -/
def askTwo : Trace :=
  Trace.join 0 ++ Trace.deliver 0 (.have 0) ++ [.proc 0 (.recv (.ok (some .unchoke))),
    .proc 0 .poll, .proc 0 .proceed, .proc 0 (.request (.ok ())), .proc 0 (.request (.ok ()))]

/-- The torrent of three blocks after two of them were requested. -/
def askedTwo : Swarm :=
  ((threeBlocks.system sha1OfA).exec (threeBlocks.system sha1OfA).init askTwo).getD
    ⟨threeBlocks.start, []⟩

theorem request_discipline_threeBlocks : ∃ run s before t after block,
    (threeBlocks.system sha1OfA).History run s ∧
      PoolProgram.life 0 run = before ++ t :: after ∧ t.event = .request (.ok ()) ∧
      t.pre.2.nextRequest t.pre.1.geometry = some block ∧
      InOrder threeBlocks.geometry before block := by
  have hr : (threeBlocks.system sha1OfA).History _ askedTwo := System.History.ofExec askTwo rfl
  have hs := hr.snoc trivial (e := .proc 0 (.request (.ok ()))) rfl
  obtain ⟨block, hblock, hord⟩ :=
    request_discipline threeBlocks_new hs (PoolProgram.life_snoc 0 _ _) rfl
  exact ⟨_, _, _, _, _, block, hs, PoolProgram.life_snoc 0 _ _, rfl, hblock, hord⟩

end Torrentina.Download
