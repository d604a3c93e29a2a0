import Torrentina.Download.Accounting
import Torrentina.Seeding.Cost

/-!
# What one step of the session or its seeder does

Each kind of step keeps the session attended and lowers the work left.
-/

namespace Torrentina.Seeding

open Torrentina.Core Peer Download Disk

/-- One step: the session stays attended, and there is less to do. -/
def Advanced (seed : Seed) (c : Shared) (p : Session) (l : Link) (c' : Shared) (p' : Session)
    (l' : Link) : Prop :=
  Attended seed c' p' l' ∧ cost c' p' l' < cost c p l

/-- Two states of a session that differ only in where it is. -/
structure SameWork (p p' : Session) : Prop where
  choked : p'.choked = p.choked
  peerHas : p'.peerHas = p.peerHas
  current : p'.current = p.current
  nextBlock : p'.nextBlock = p.nextBlock
  inFlight : p'.inFlight = p.inFlight

section Session

variable {sha1 : List UInt8 → List UInt8} {seed : Seed} {g : Geometry} {c c' : Shared}
  {p p' : Session} {l l' : Link} {greeting hello : List Message} {i lo a q : Nat}

theorem Greeting.congr {phase : SeederPhase} {ms : List Message}
    (h : Greeting seed p phase ms) (hc : p'.choked = p.choked) (hp : p'.peerHas = p.peerHas) :
    Greeting seed p' phase ms := by
  cases h with
  | waiting hch => exact .waiting (hc.trans hch)
  | advertised _ hch hhas hm => exact .advertised _ (hc.trans hch) (hp.trans hhas) hm
  | unchoked hphase hch hhas => exact .unchoked hphase (hc.trans hch) (hp.trans hhas)

theorem Flight.same (h : Flight seed g p l greeting hello i lo a q) (hw : SameWork p p') :
    Flight seed g p' l greeting hello i lo a q where
  toSession := h.toSession
  toSeeder := h.toSeeder
  greeting := h.greeting.congr hw.choked hw.peerHas
  hello := h.hello
  idle := by
    rw [hw.current]
    exact h.idle
  busy := by
    rw [hw.current, hw.nextBlock, hw.inFlight, hw.choked]
    exact h.busy

theorem wanted_congr (hg : c'.geometry = c.geometry)
    (hhas : ∀ i, c'.tracker.has i = c.tracker.has i)
    (hp : p'.current.map PieceAssembler.index = p.current.map PieceAssembler.index) :
    wanted c' p' = wanted c p := by
  ext i
  rw [mem_wanted, mem_wanted, hg, hhas, hp]

/-- With the same pieces to fetch, the work left is that of the iteration and the link. -/
theorem cost_lt (hg : c'.geometry = c.geometry) (hwanted : wanted c' p' = wanted c p)
    (hblocks : unrequested c.geometry p' = unrequested c.geometry p)
    (hlt : phaseCost p'.phase + l'.cost < phaseCost p.phase + l.cost) :
    cost c' p' l' < cost c p l := by
  unfold cost
  rw [hg, hwanted, hblocks]
  omega

/-- A step that only moves the session on. -/
theorem Attended.moved (h : Attended seed c p l) (hx : c.Extends c')
    (hhas : ∀ i, c'.tracker.has i = c.tracker.has i) (hw : SameWork p p')
    (hseen : p'.controlSeen = c'.control.version) (ht : Tended c' p'.phase)
    (hacc : l.phase ≠ .accepting) (hserved : p'.Served c')
    (hready : seed.Whole → p'.phase = .refilling ∨ p'.phase = .selecting → p.choked = false →
      p.current ≠ none)
    (hrefilled : p'.phase = .selecting → p'.nextRequest c.geometry = none)
    (hcost : phaseCost p'.phase < phaseCost p.phase) : Advanced seed c p l c' p' l := by
  refine ⟨⟨hseen, ht, fun _ => hacc, h.alive, hserved, ?_, ?_, ?_⟩, ?_⟩
  · rw [hw.choked, hw.current]
    exact hready
  · rw [hx.geometry]
    exact hrefilled
  · obtain ⟨greeting, hello, i, lo, a, q, hf⟩ := h.flight
    rw [hx.geometry]
    exact ⟨greeting, hello, i, lo, a, q, hf.same hw⟩
  · refine cost_lt hx.geometry (wanted_congr hx.geometry hhas (congrArg _ hw.current)) ?_ ?_
    · rw [unrequested, hw.current, hw.nextBlock, unrequested]
    · omega

/-- Interest is declared before any piece is taken. -/
theorem Attended.introduced (h : Attended seed c p l) (hp : p.phase = .starting)
    (hcur : p.current = none) (hserved : Session.Served c { p with phase := .top }) :
    Advanced seed c p l c { p with phase := .top } (l.send .interested) := by
  obtain ⟨greeting, hello, i, lo, a, q, hf⟩ := h.flight
  obtain ⟨rfl, rfl⟩ := hf.idle hcur
  have hacc := h.accepted (by rw [hp]; exact Phase.noConfusion)
  refine ⟨⟨h.controlSeen, trivial, fun _ => hacc, h.alive, hserved, ?_, ?_, ?_⟩, ?_⟩
  · rintro - (hph | hph) <;> cases hph
  · intro hph
    cases hph
  · have hs : Flight seed c.geometry { p with phase := .top } l greeting hello i lo 0 0 :=
      hf.same ⟨rfl, rfl, rfl, rfl, rfl⟩
    refine ⟨greeting, hello ++ [.interested], i, lo, 0, 0, hs.toSession, ?_, hs.greeting, ?_,
      hs.idle, hs.busy⟩
    · rw [Link.send, hf.toSeeder]
      simp
    · intro m hm
      rcases List.mem_append.mp hm with hm | hm
      · exact hf.hello m hm
      · exact List.mem_singleton.mp hm
  · refine cost_lt rfl (wanted_congr rfl (fun _ => rfl) rfl) rfl ?_
    rw [cost_send, hp]
    simp only [phaseCost, serviceCost]
    omega

/-- Once unchoked, the session has received the whole greeting. -/
theorem Flight.unchoked (hf : Flight seed g p l greeting hello i lo a q) (hch : p.choked = false) :
    greeting = [] ∧ l.phase = .serving ∧ p.peerHas = seed.offered := by
  cases hf.greeting with
  | waiting hc => exact absurd hc (by rw [hch]; exact Bool.false_ne_true)
  | advertised _ hc => exact absurd hc (by rw [hch]; exact Bool.false_ne_true)
  | unchoked hphase _ hhas => exact ⟨rfl, hphase, hhas⟩

/-- An unchoked session without a piece has nothing under way to it. -/
theorem Flight.clear (hf : Flight seed g p l greeting hello i lo a q) (hch : p.choked = false)
    (hcur : p.current = none) : l.toSession = [] ∧ l.toSeeder = hello := by
  obtain ⟨rfl, -, -⟩ := hf.unchoked hch
  obtain ⟨rfl, rfl⟩ := hf.idle hcur
  have hs := hf.toSession
  have hq := hf.toSeeder
  rw [List.range'_zero, List.map_nil, List.append_nil] at hs hq
  exact ⟨hs, hq⟩

/-- A piece is taken: its blocks are no longer wanted but unrequested. -/
theorem Attended.took (h : Attended seed c p l) (hfeed : seed.Feeds sha1 c)
    (hg : c.geometry.WellFormed) (hp : p.phase = .observed .running) (hcur : p.current = none)
    (hch : p.choked = false) {index : Nat} (hlt : index < c.geometry.numPieces)
    (hneed : c.tracker.has index = false) (exclusive : Bool) (hgeo : c'.geometry = c.geometry)
    (hcontrol : c'.control = c.control) (hhas : ∀ j, c'.tracker.has j = c.tracker.has j)
    (hserved : (p.assign c.geometry index exclusive).Served c') :
    Advanced seed c p l c' (p.assign c.geometry index exclusive) l := by
  obtain ⟨greeting, hello, i, lo, a, q, hf⟩ := h.flight
  obtain ⟨hs, hq⟩ := hf.clear hch hcur
  obtain ⟨-, hserving, hoff⟩ := hf.unchoked hch
  have hacc := h.accepted (by rw [hp]; exact Phase.noConfusion)
  have hlen := hfeed.length_pieceOf hg hlt
  have hpos : 0 < c.geometry.numBlocks index := by
    rw [Geometry.lt_numBlocks_iff, Nat.zero_mul]
    exact hg.pieceLengthOf_pos index
  refine ⟨⟨?_, trivial, fun _ => hacc, h.alive, hserved, ?_, ?_, ?_⟩, ?_⟩
  · rw [hcontrol]
    exact h.controlSeen
  · intro _ _ _ hn
    cases hn
  · intro hph
    cases hph
  · rw [hgeo]
    refine ⟨[], hello, index, 0, 0, 0, hs, by rw [hq]; simp, .unchoked hserving hch hoff, hf.hello,
      fun hn => (by cases hn), fun asm hasm => ?_⟩
    obtain rfl := Option.some.inj hasm
    refine ⟨rfl, rfl, rfl, Nat.zero_le _, hpos, ?_, hch⟩
    rw [← hlen]
    exact PieceAssembler.holds_new _ _
  · have herase : wanted c' (p.assign c.geometry index exclusive) = (wanted c p).erase index := by
      ext j
      rw [mem_wanted, Finset.mem_erase, mem_wanted, hgeo, hhas, hcur]
      have hindex : (p.assign c.geometry index exclusive).current.map PieceAssembler.index =
          some index := rfl
      rw [hindex, Option.map_none]
      simp only [ne_eq, Option.some.injEq, reduceCtorEq, not_false_eq_true, and_true, eq_comm]
      exact and_left_comm.trans (and_congr_right fun _ => and_comm) |>.trans (by tauto)
    have hmem : index ∈ wanted c p := by
      rw [mem_wanted, hcur]
      exact ⟨hlt, hneed, by simp⟩
    have hsum := Finset.add_sum_erase (wanted c p) c.geometry.numBlocks hmem
    have hphase : phaseCost p.phase = 4 := by rw [hp]; rfl
    have hphase' : phaseCost (p.assign c.geometry index exclusive).phase = 3 := rfl
    have hblocks : unrequested c.geometry p = 0 := by rw [unrequested, hcur]
    have hblocks' : unrequested c.geometry (p.assign c.geometry index exclusive) =
        c.geometry.numBlocks index := rfl
    unfold cost
    rw [hgeo, herase, hblocks, hblocks']
    omega

theorem nextRequest_eq_some {block : BlockInfo} (h : p.nextRequest g = some block) :
    ∃ asm, p.current = some asm ∧ p.choked = false ∧ p.nextBlock < g.numBlocks asm.index ∧
      block = g.blockInfo asm.index p.nextBlock := by
  unfold Session.nextRequest at h
  split at h
  · cases h
  rename_i hch
  split at h
  · rename_i asm hcur
    split at h
    · rename_i hlt
      exact ⟨asm, hcur, Bool.not_eq_true _ ▸ hch, hlt.2, (Option.some.inj h).symm⟩
    · cases h
  · cases h

/-- A request joins the stretch under way. -/
theorem Attended.requested (h : Attended seed c p l) (hp : p.phase = .refilling)
    {block : BlockInfo} (hn : p.nextRequest c.geometry = some block)
    (hserved : Session.Served c
      { p with nextBlock := p.nextBlock + 1, inFlight := p.inFlight + 1 }) :
    Advanced seed c p l c { p with nextBlock := p.nextBlock + 1, inFlight := p.inFlight + 1 }
      (l.send (.request block)) := by
  obtain ⟨asm, hcur, hch, hlt, rfl⟩ := nextRequest_eq_some hn
  obtain ⟨greeting, hello, i, lo, a, q, hf⟩ := h.flight
  obtain ⟨rfl, hnext, hfly, hle, hlo, hholds, -⟩ := hf.busy asm hcur
  have hacc := h.accepted (by rw [hp]; exact Phase.noConfusion)
  refine ⟨⟨h.controlSeen, ?_, fun _ => hacc, h.alive, hserved, ?_, ?_, ?_⟩, ?_⟩
  · simp only [hp]
    trivial
  · intro _ _ _ hnone
    rw [hcur] at hnone
    cases hnone
  · intro hph
    simp only [hp] at hph
    cases hph
  · refine ⟨greeting, hello, asm.index, lo, a, q + 1, hf.toSession, ?_,
      hf.greeting.congr rfl rfl, hf.hello, fun hnone => ?_, fun asm' hasm => ?_⟩
    · rw [Link.send, hf.toSeeder, List.range'_1_concat, List.map_append, List.map_singleton,
        ← hnext, List.append_assoc]
    · rw [hcur] at hnone
      cases hnone
    · rw [hcur] at hasm
      obtain rfl := Option.some.inj hasm
      refine ⟨rfl, ?_, ?_, hlt, hlo, hholds, hch⟩
      · rw [← hnext]
        rfl
      · rw [hfly]
        rfl
  · have hwanted : wanted c { p with nextBlock := p.nextBlock + 1, inFlight := p.inFlight + 1 } =
        wanted c p := wanted_congr rfl (fun _ => rfl) rfl
    have hsent : serviceCost (.request (c.geometry.blockInfo asm.index p.nextBlock)) = 6 := rfl
    have hblocks : unrequested c.geometry p = c.geometry.numBlocks asm.index - p.nextBlock := by
      rw [unrequested, hcur]
    have hblocks' : unrequested c.geometry
        { p with nextBlock := p.nextBlock + 1, inFlight := p.inFlight + 1 } =
          c.geometry.numBlocks asm.index - (p.nextBlock + 1) := by
      rw [unrequested, hcur]
    unfold cost
    rw [cost_send, hwanted, hsent, hblocks, hblocks']
    simp only
    omega

/-! ### Messages of the seeder -/

/-- The oldest message under way is the next one of the greeting or the first answer. -/
theorem Flight.head (hf : Flight seed g p l greeting hello i lo a q) (halive : l.phase ≠ .ended)
    {m : Message} {rest : List Message} (hm : l.toSession = m :: rest) :
    (m = .bitfield seed.offered.toMessageBytes ∧ p.choked = true ∧
        m :: rest = seed.greeted l.phase) ∨
      (m = .unchoke ∧ p.choked = true ∧ rest = [] ∧ l.phase = .serving ∧
        p.peerHas = seed.offered) ∨
      ∃ a', a = a' + 1 ∧ m = seed.reply g i lo ∧ p.choked = false ∧ l.phase = .serving ∧
        rest = (List.range' (lo + 1) a').map (seed.reply g i) := by
  have hs := hf.toSession
  rw [hm] at hs
  cases hf.greeting with
  | waiting hc =>
    obtain ⟨-, rfl, rfl⟩ := hf.quiet_of_choked hc
    rw [List.range'_zero, List.map_nil, List.append_nil] at hs
    left
    refine ⟨?_, hc, hs⟩
    cases hph : l.phase <;> rw [hph] at hs <;> cases hs <;> rfl
  | advertised _ hc hhas hgreet =>
    obtain ⟨-, rfl, rfl⟩ := hf.quiet_of_choked hc
    rw [List.range'_zero, List.map_nil, List.append_nil] at hs
    right
    left
    rw [← hs] at hgreet
    cases hph : l.phase with
    | ended => exact absurd hph halive
    | serving =>
      rw [hph] at hgreet
      cases hgreet
      exact ⟨rfl, hc, rfl, rfl, hhas⟩
    | _ =>
      rw [hph] at hgreet
      cases hgreet
  | unchoked hphase hc _ =>
    right
    right
    cases a with
    | zero => cases hs
    | succ a' =>
      rw [List.nil_append, List.range'_succ, List.map_cons] at hs
      obtain ⟨rfl, rfl⟩ := List.cons.inj hs
      exact ⟨a', rfl, rfl, hc, hphase, rfl⟩

/-- The seeder's bitfield arrives. -/
theorem Attended.bitfield (h : Attended seed c p l) (hp : p.phase = .selecting)
    {rest : List Message} (hm : l.toSession = .bitfield seed.offered.toMessageBytes :: rest)
    (hx : c.Extends c') (hcontrol : c'.control = c.control)
    (hhas : ∀ j, c'.tracker.has j = c.tracker.has j)
    (hserved : Session.Served c' { p with phase := .top, peerHas := seed.offered }) :
    Advanced seed c p l c' { p with phase := .top, peerHas := seed.offered }
      { l with toSession := rest } := by
  obtain ⟨greeting, hello, i, lo, a, q, hf⟩ := h.flight
  have hacc := h.accepted (by rw [hp]; exact Phase.noConfusion)
  obtain ⟨hch, hgreet⟩ : p.choked = true ∧
      .bitfield seed.offered.toMessageBytes :: rest = seed.greeted l.phase := by
    rcases hf.head h.alive hm with ⟨-, hch, hgreet⟩ | ⟨hm', -⟩ | ⟨a', -, hm', -⟩
    · exact ⟨hch, hgreet⟩
    · cases hm'
    · cases hm'
  obtain ⟨hcur, rfl, rfl⟩ := hf.quiet_of_choked hch
  refine ⟨⟨?_, trivial, fun _ => hacc, h.alive, hserved, ?_, ?_, ?_⟩, ?_⟩
  · rw [hcontrol]
    exact h.controlSeen
  · rintro - (hph | hph) <;> cases hph
  · intro hph
    cases hph
  · rw [hx.geometry]
    refine ⟨rest, hello, i, lo, 0, 0, ?_, hf.toSeeder, ?_, hf.hello, fun _ => ⟨rfl, rfl⟩,
      fun asm hasm => ?_⟩
    · exact (List.append_nil rest).symm
    · exact .advertised rest hch rfl hgreet
    · rw [hcur] at hasm
      cases hasm
  · refine cost_lt hx.geometry (wanted_congr hx.geometry hhas rfl) rfl ?_
    rw [cost_receive hm, hp]
    simp only [phaseCost, arrivalCost]
    omega

/-- The seeder's unchoke arrives. -/
theorem Attended.unchoke (h : Attended seed c p l) (hp : p.phase = .selecting)
    {rest : List Message} (hm : l.toSession = .unchoke :: rest) (hx : c.Extends c')
    (hcontrol : c'.control = c.control) (hhas : ∀ j, c'.tracker.has j = c.tracker.has j)
    (hserved : Session.Served c' { p with phase := .top, choked := false }) :
    Advanced seed c p l c' { p with phase := .top, choked := false }
      { l with toSession := rest } := by
  obtain ⟨greeting, hello, i, lo, a, q, hf⟩ := h.flight
  have hacc := h.accepted (by rw [hp]; exact Phase.noConfusion)
  obtain ⟨hch, rfl, hserving, hoff⟩ : p.choked = true ∧ rest = [] ∧ l.phase = .serving ∧
      p.peerHas = seed.offered := by
    rcases hf.head h.alive hm with ⟨hm', -⟩ | ⟨-, hch, hr, hs, hoff⟩ | ⟨a', -, hm', -⟩
    · cases hm'
    · exact ⟨hch, hr, hs, hoff⟩
    · cases hm'
  obtain ⟨hcur, rfl, rfl⟩ := hf.quiet_of_choked hch
  refine ⟨⟨?_, trivial, fun _ => hacc, h.alive, hserved, ?_, ?_, ?_⟩, ?_⟩
  · rw [hcontrol]
    exact h.controlSeen
  · rintro - (hph | hph) <;> cases hph
  · intro hph
    cases hph
  · rw [hx.geometry]
    refine ⟨[], hello, i, lo, 0, 0, rfl, hf.toSeeder, .unchoked hserving rfl hoff, hf.hello,
      fun _ => ⟨rfl, rfl⟩, fun asm hasm => ?_⟩
    rw [hcur] at hasm
    cases hasm
  · refine cost_lt hx.geometry (wanted_congr hx.geometry hhas rfl) rfl ?_
    rw [cost_receive hm, hp]
    simp only [phaseCost, arrivalCost]
    omega

/-- An answer is a block of the piece in progress: the assembler accepts it and holds one
block more. -/
theorem Flight.accepts (hf : Flight seed c.geometry p l greeting hello i lo a q)
    (hfeed : seed.Feeds sha1 c) (hg : c.geometry.WellFormed) {asm : PieceAssembler}
    (hcur : p.current = some asm) (hi : asm.index < c.geometry.numPieces) :
    ∃ block asm', seed.reply c.geometry i lo = .piece block ∧ block.index.toNat = asm.index ∧
      asm.addBlock block.begin.toNat block.data = .ok asm' ∧ asm'.index = asm.index ∧
      asm'.Holds (Storage.pieceOf c.geometry seed.content i) (List.range (lo + 1)) ∧
      (asm'.isComplete = true ↔ c.geometry.numBlocks i ≤ lo + 1) ∧
      (asm'.isComplete = true →
        asm'.intoBytes = Storage.pieceOf c.geometry seed.content i) := by
  obtain ⟨rfl, -, -, -, hlo, hholds, -⟩ := hf.busy asm hcur
  have hlen := hfeed.length_pieceOf hg hi
  obtain ⟨asm', hadd, hholds'⟩ := hholds.snoc hg hi hlo hlen
  rw [← List.range_succ] at hholds'
  have hcount : blockCount asm'.length = c.geometry.numBlocks asm.index := by
    rw [hholds'.length, hlen, Geometry.numBlocks_eq]
  refine ⟨_, asm', rfl, (hg.blockInfo_spec hi hlo).1, hadd, (PieceAssembler.addBlock_frame hadd).1,
    hholds', ?_, fun hdone => ?_⟩
  · rw [hholds'.isComplete_iff, hcount]
    constructor
    · intro hall
      by_contra hlt
      have hmem := List.mem_range.mp (hall (lo + 1) (by omega))
      omega
    · intro hle b hb
      exact List.mem_range.mpr (by omega)
  · exact hholds'.intoBytes (hholds'.isComplete_iff.mp hdone)

/-- A block under way to the session is the first answer. -/
theorem Flight.answer (hf : Flight seed c.geometry p l greeting hello i lo a q)
    (hfeed : seed.Feeds sha1 c) (hg : c.geometry.WellFormed) (halive : l.phase ≠ .ended)
    {asm : PieceAssembler} (hcur : p.current = some asm) (hi : asm.index < c.geometry.numPieces)
    {block : Block} {rest : List Message} (hm : l.toSession = .piece block :: rest) :
    block.index.toNat = asm.index ∧ ∃ asm' a', a = a' + 1 ∧
      asm.addBlock block.begin.toNat block.data = .ok asm' ∧ asm'.index = asm.index ∧
      asm'.Holds (Storage.pieceOf c.geometry seed.content i) (List.range (lo + 1)) ∧
      (asm'.isComplete = true ↔ c.geometry.numBlocks i ≤ lo + 1) ∧
      (asm'.isComplete = true → asm'.intoBytes = Storage.pieceOf c.geometry seed.content i) ∧
      rest = (List.range' (lo + 1) a').map (seed.reply c.geometry i) := by
  obtain ⟨block', asm', hreply, hidx, hadd, hindex, hholds, hdone, hbytes⟩ :=
    hf.accepts hfeed hg hcur hi
  rcases hf.head halive hm with ⟨hm', -⟩ | ⟨hm', -⟩ | ⟨a', ha, hm', -, -, hrest⟩
  · cases hm'
  · cases hm'
  · rw [hreply] at hm'
    obtain rfl := Message.piece.inj hm'
    exact ⟨hidx, asm', a', ha, hadd, hindex, hholds, hdone, hbytes, hrest⟩

/-- A block of an unfinished piece arrives. -/
theorem Attended.blockAdded (h : Attended seed c p l) (hfeed : seed.Feeds sha1 c)
    (hg : c.geometry.WellFormed) (hp : p.phase = .selecting) {asm asm' : PieceAssembler}
    (hcur : p.current = some asm) (hi : asm.index < c.geometry.numPieces) {block : Block}
    {rest : List Message} (hm : l.toSession = .piece block :: rest)
    (hadd : asm.addBlock block.begin.toNat block.data = .ok asm')
    (hd : asm'.isComplete = false) (hx : c.Extends c') (hcontrol : c'.control = c.control)
    (hhas : ∀ j, c'.tracker.has j = c.tracker.has j)
    (hserved : Session.Served c'
      { p with phase := .top, current := some asm', inFlight := p.inFlight - 1 }) :
    Advanced seed c p l c'
      { p with phase := .top, current := some asm', inFlight := p.inFlight - 1 }
      { l with toSession := rest } := by
  obtain ⟨greeting, hello, i, lo, a, q, hf⟩ := h.flight
  have hacc := h.accepted (by rw [hp]; exact Phase.noConfusion)
  obtain ⟨-, asm'', a', rfl, hadd', hindex, hholds, hdone, -, hrest⟩ :=
    hf.answer hfeed hg h.alive hcur hi hm
  rw [hadd] at hadd'
  obtain rfl := Except.ok.inj hadd'
  obtain ⟨rfl, hnext, hfly, hle, hlo, -, hch⟩ := hf.busy asm hcur
  obtain ⟨-, hserving, hoff⟩ := hf.unchoked hch
  have hmore : lo + 1 < c.geometry.numBlocks asm.index := by
    by_contra hn
    rw [hdone.mpr (by omega)] at hd
    cases hd
  refine ⟨⟨?_, trivial, fun _ => hacc, h.alive, hserved, ?_, ?_, ?_⟩, ?_⟩
  · rw [hcontrol]
    exact h.controlSeen
  · rintro - (hph | hph) <;> cases hph
  · intro hph
    cases hph
  · rw [hx.geometry]
    refine ⟨[], hello, asm.index, lo + 1, a', q, hrest, ?_, .unchoked hserving hch hoff, hf.hello,
      ?_, ?_⟩
    · rw [hf.toSeeder, show lo + (a' + 1) = lo + 1 + a' by omega]
    · intro hnone
      cases hnone
    · intro asm'' hasm
      obtain rfl := Option.some.inj hasm
      refine ⟨hindex, ?_, ?_, hle, hmore, hholds, hch⟩
      · show lo + 1 + a' + q = p.nextBlock
        omega
      · show p.inFlight - 1 = a' + q
        omega
  · refine cost_lt hx.geometry (wanted_congr hx.geometry hhas ?_) ?_ ?_
    · rw [hcur, Option.map_some, Option.map_some, hindex]
    · simp only [unrequested, hcur, hindex]
    · rw [cost_receive hm, hp]
      simp only [phaseCost, arrivalCost]
      omega

/-- The last block of a piece arrives: nothing is under way any more. -/
theorem Attended.pieceDone (h : Attended seed c p l) (hfeed : seed.Feeds sha1 c)
    (hg : c.geometry.WellFormed) (hp : p.phase = .selecting) {asm asm' : PieceAssembler}
    (hcur : p.current = some asm) (hi : asm.index < c.geometry.numPieces) {block : Block}
    {rest : List Message} (hm : l.toSession = .piece block :: rest)
    (hadd : asm.addBlock block.begin.toNat block.data = .ok asm')
    (hd : asm'.isComplete = true) (hx : c.Extends c') (hcontrol : c'.control = c.control)
    (hhas : ∀ j, c'.tracker.has j = (c.tracker.has j || decide (j = asm.index))) {phase : Phase}
    (ht : Tended c' phase) (hcost : phaseCost phase ≤ 6) (hne : phase ≠ .refilling)
    (hne' : phase ≠ .selecting)
    (hserved : Session.Served c' { p with phase, current := none, inFlight := p.inFlight - 1 }) :
    Advanced seed c p l c' { p with phase, current := none, inFlight := p.inFlight - 1 }
      { l with toSession := rest } := by
  obtain ⟨greeting, hello, i, lo, a, q, hf⟩ := h.flight
  have hacc := h.accepted (by rw [hp]; exact Phase.noConfusion)
  obtain ⟨-, asm'', a', rfl, hadd', hindex, -, hdone, -, hrest⟩ :=
    hf.answer hfeed hg h.alive hcur hi hm
  rw [hadd] at hadd'
  obtain rfl := Except.ok.inj hadd'
  obtain ⟨rfl, hnext, hfly, hle, hlo, -, hch⟩ := hf.busy asm hcur
  obtain ⟨-, hserving, hoff⟩ := hf.unchoked hch
  have hlast := hdone.mp hd
  obtain ⟨rfl, rfl⟩ : a' = 0 ∧ q = 0 := by omega
  refine ⟨⟨?_, ht, fun _ => hacc, h.alive, hserved, ?_, ?_, ?_⟩, ?_⟩
  · rw [hcontrol]
    exact h.controlSeen
  · rintro - (hph | hph)
    · exact absurd hph hne
    · exact absurd hph hne'
  · intro hph
    exact absurd hph hne'
  · rw [hx.geometry]
    exact ⟨[], hello, asm.index, lo, 0, 0, hrest, hf.toSeeder, .unchoked hserving hch hoff,
      hf.hello, fun _ => ⟨rfl, rfl⟩, fun asm'' hasm => (by cases hasm)⟩
  · refine cost_lt hx.geometry ?_ ?_ ?_
    · -- the piece was left out as the one in progress, and is left out as had
      ext j
      rw [mem_wanted, mem_wanted, hx.geometry, hhas, hcur, Option.map_some, Option.map_none]
      simp only [Bool.or_eq_false_iff, decide_eq_false_iff_not, ne_eq, reduceCtorEq,
        not_false_eq_true, and_true, Option.some.injEq, @eq_comm _ asm.index]
    · simp only [unrequested, hcur]
      omega
    · rw [cost_receive hm, hp]
      simp only [phaseCost, arrivalCost] at hcost ⊢
      omega

end Session

/-! ### Steps of the seeder -/

section Seeder

variable {sha1 : List UInt8 → List UInt8} {seed : Seed} {c : Shared} {p : Session} {l l' : Link}

/-- A step of the seeder leaves the session as it is. -/
theorem Attended.seeder_of_link (h : Attended seed c p l) (hacc : l'.phase ≠ .accepting)
    (halive : l'.phase ≠ .ended)
    (hf : ∃ greeting hello i lo a q, Flight seed c.geometry p l' greeting hello i lo a q)
    (hcost : l'.cost < l.cost) : Advanced seed c p l c p l' := by
  refine ⟨⟨h.controlSeen, h.tended, fun _ => hacc, halive, h.served, h.ready, h.refilled, hf⟩, ?_⟩
  refine cost_lt rfl rfl rfl ?_
  omega

/-- The seeder's next message of the greeting. -/
theorem Attended.greeted (h : Attended seed c p l) {phase : SeederPhase} {m : Message}
    (hacc : phase ≠ .accepting) (halive : phase ≠ .ended)
    (hgreet : seed.greeted phase = seed.greeted l.phase ++ [m]) (hne : l.phase ≠ .serving)
    (hcost : phase.cost + arrivalCost m < l.phase.cost) :
    Advanced seed c p l c p { l with phase, toSession := l.toSession ++ [m] } := by
  obtain ⟨greeting, hello, i, lo, a, q, hf⟩ := h.flight
  refine h.seeder_of_link hacc halive ?_ ?_
  · have hch : p.choked = true := by
      cases hch : p.choked with
      | true => rfl
      | false => exact absurd (hf.unchoked hch).2.1 hne
    obtain ⟨hcur, rfl, rfl⟩ := hf.quiet_of_choked hch
    have hs := hf.toSession
    rw [List.range'_zero, List.map_nil, List.append_nil] at hs
    refine ⟨greeting ++ [m], hello, i, lo, 0, 0, ?_, hf.toSeeder, ?_, hf.hello,
      fun _ => ⟨rfl, rfl⟩, fun asm hasm => ?_⟩
    · rw [hs]
      simp
    · cases hf.greeting with
      | waiting _ =>
        rw [← hgreet]
        exact .waiting hch
      | advertised _ _ hhas hm =>
        refine .advertised _ hch hhas ?_
        rw [hgreet, ← hm]
        rfl
      | unchoked _ hch' =>
        rw [hch] at hch'
        cases hch'
    · rw [hcur] at hasm
      cases hasm
  · simp only [Link.cost, List.map_append, List.sum_append, List.map_cons, List.map_nil,
      List.sum_cons, List.sum_nil]
    omega

theorem received_request (b : BlockInfo) : received (.request b) = .ok (some (.request b)) :=
  received_of_fits (by simp [Message.body, maxMessageLen])

/-- The seeder serves the oldest message of the session. -/
theorem Attended.serves (h : Attended seed c p l) (hfeed : seed.Feeds sha1 c)
    (hg : c.geometry.WellFormed)
    (hi : ∀ asm, p.current = some asm → asm.index < c.geometry.numPieces)
    (hph : l.phase = .serving) (hstep : seed.step l = some l') : Advanced seed c p l c p l' := by
  obtain ⟨greeting, hello, i, lo, a, q, hf⟩ := h.flight
  have hq := hf.toSeeder
  cases hello with
  | cons m hello =>
    obtain rfl := hf.hello m List.mem_cons_self
    rw [List.cons_append] at hq
    have hrec : received .interested = .ok (some .interested) :=
      received_of_fits (by simp [Message.body, maxMessageLen])
    simp only [Seed.step, hph, hq] at hstep
    rw [hrec, Seed.serve_interested] at hstep
    obtain rfl := Option.some.inj hstep
    refine h.seeder_of_link (by simp) (by simp) ?_ ?_
    · refine ⟨greeting, hello, i, lo, a, q, hf.toSession, rfl, ?_,
        fun m hm => hf.hello m (List.mem_cons_of_mem _ hm), hf.idle, hf.busy⟩
      rw [← hph]
      exact hf.greeting
    · simp only [Link.cost, hph, hq, List.map_cons, List.sum_cons, serviceCost]
      omega
  | nil =>
    cases q with
    | zero =>
      rw [List.range'_zero, List.map_nil, List.append_nil] at hq
      simp only [Seed.step, hph, hq] at hstep
      cases hstep
    | succ q =>
      obtain ⟨asm, hcur⟩ : ∃ asm, p.current = some asm := by
        cases hcur : p.current with
        | none => exact absurd (hf.idle hcur).2 (Nat.succ_ne_zero q)
        | some asm => exact ⟨asm, rfl⟩
      obtain ⟨rfl, hnext, hfly, hle, -⟩ := hf.busy asm hcur
      rw [List.nil_append, List.range'_succ, List.map_cons] at hq
      have hreply := hfeed.block_eq hg (hi asm hcur)
        (show lo + a < c.geometry.numBlocks asm.index by omega)
      obtain ⟨block, hblock, hreply⟩ := Option.map_eq_some_iff.mp hreply
      simp only [Seed.step, hph, hq] at hstep
      rw [received_request, Seed.serve_request hblock, hreply] at hstep
      obtain rfl := Option.some.inj hstep
      refine h.seeder_of_link (by simp) (by simp) ?_ ?_
      · refine ⟨greeting, [], asm.index, lo, a + 1, q, ?_, ?_, ?_, hf.hello, ?_, ?_⟩
        · rw [hf.toSession, List.range'_1_concat, List.map_append, List.map_singleton,
            List.append_assoc]
        · rw [← Nat.add_assoc]
          rfl
        · rw [← hph]
          exact hf.greeting
        · intro hnone
          rw [hcur] at hnone
          cases hnone
        · intro asm' hasm
          obtain ⟨hidx, hn, hin, hrest⟩ := hf.busy asm' hasm
          exact ⟨hidx, by omega, by omega, hrest⟩
      · rw [← hreply]
        simp only [Link.cost, hph, hq, List.map_cons, List.map_append, List.sum_cons,
          List.sum_append, serviceCost, arrivalCost, List.map_nil, List.sum_nil]
        omega

/-- A step of the seeder. -/
theorem Attended.seeder (h : Attended seed c p l) (hfeed : seed.Feeds sha1 c)
    (hg : c.geometry.WellFormed)
    (hi : ∀ asm, p.current = some asm → asm.index < c.geometry.numPieces)
    (hstep : seed.step l = some l') : Advanced seed c p l c p l' := by
  cases hph : l.phase with
  | serving => exact h.serves hfeed hg hi hph hstep
  | accepting =>
    simp only [Seed.step, hph] at hstep
    obtain rfl := Option.some.inj hstep
    obtain ⟨greeting, hello, i, lo, a, q, hf⟩ := h.flight
    refine h.seeder_of_link (by simp) (by simp) ?_ ?_
    · refine ⟨greeting, hello, i, lo, a, q, hf.toSession, hf.toSeeder, ?_, hf.hello, hf.idle,
        hf.busy⟩
      have hgreet := hf.greeting
      rw [hph] at hgreet
      cases hgreet with
      | waiting hch => exact .waiting hch
      | advertised _ _ _ hm => cases hm
      | unchoked hserving => cases hserving
    · simp only [Link.cost, hph, SeederPhase.cost]
      omega
  | greeting =>
    simp only [Seed.step, hph] at hstep
    obtain rfl := Option.some.inj hstep
    refine h.greeted (by simp) (by simp) ?_ (by simp [hph]) ?_
    · rw [hph]
      rfl
    · rw [hph]
      simp only [SeederPhase.cost, arrivalCost]
      omega
  | unchoking =>
    simp only [Seed.step, hph] at hstep
    obtain rfl := Option.some.inj hstep
    refine h.greeted (by simp) (by simp) ?_ (by simp [hph]) ?_
    · rw [hph]
      rfl
    · rw [hph]
      simp only [SeederPhase.cost, arrivalCost]
      omega
  | ended =>
    simp only [Seed.step, hph] at hstep
    cases hstep

end Seeder

end Torrentina.Seeding
