import Torrentina.Download.Rarest
import Torrentina.Download.Reservation

/-!
# When the endgame starts

A session enters the endgame when `reserve_piece` has nothing for it. That says that
everything its peer advertises is claimed, not that everything is: with a peer that
lacks a free piece, a piece is fetched twice while another is fetched by nobody. The
same state is reached where a claim ends while two sessions fetch one piece, and where
a piece is reserved that a session without a claim still fetches.
-/

namespace Torrentina.Download

open Torrentina.Core Peer

/-- Piece `i` is neither had nor claimed. -/
def PieceTracker.Free (t : PieceTracker) (i : Nat) : Prop :=
  i < t.numPieces ∧ t.has i = false ∧ t.isClaimed i = false

/-- The session is about to ask for a piece. -/
def Session.Asks (p : Session) (e : SessionEvent) : Prop :=
  e = .proceed ∧ p.phase = .observed .running ∧ p.current = none ∧ p.choked = false

/-- The session is given piece `i` by `reserve_piece_endgame`. -/
def Session.TakesEndgame (c : Shared) (p : Session) (e : SessionEvent) (i : Nat) : Prop :=
  p.Asks e ∧ (c.tracker.reservePiece p.peerHas).1 = none ∧ c.tracker.isComplete = false ∧
    c.tracker.reservePieceEndgame p.peerHas = some i

/-- The session runs and works on piece `i`. -/
def Session.Fetches (p : Session) (i : Nat) : Prop := p.running = true ∧ p.held = some i

/-- Two sessions other than `k` fetch piece `i`. -/
def DoubledByOthers (s : Swarm) (k i : Nat) : Prop :=
  ∃ (j j' : Nat) (q q' : Session), j ≠ k ∧ j' ≠ k ∧ j ≠ j' ∧
    s.procs[j]? = some q ∧ s.procs[j']? = some q' ∧ q.Fetches i ∧ q'.Fetches i

/-- Two sessions fetch piece `i`. -/
def Doubled (s : Swarm) (i : Nat) : Prop :=
  ∃ (j j' : Nat) (q q' : Session), j ≠ j' ∧ s.procs[j]? = some q ∧ s.procs[j']? = some q' ∧
    q.Fetches i ∧ q'.Fetches i

/-- Whenever a session takes a piece in the endgame, every piece not had is claimed. -/
def EndgameAtEnd (s : Swarm) (e : SwarmEvent) : Prop :=
  ∀ k ev p i, e = .proc k ev → s.procs[k]? = some p → p.TakesEndgame s.shared ev i →
    ∀ j < s.shared.tracker.numPieces, s.shared.tracker.has j = false →
      s.shared.tracker.isClaimed j = true

/-- No piece is fetched twice while a piece is free. -/
def NoDoubleWhileFree (s : Swarm) : Prop := ∀ i j, Doubled s i → ¬s.shared.tracker.Free j

/-- The peer of a session that asks for a piece has every free piece; a free piece that
another session still fetches is the only free piece when a session asks; and while two
sessions fetch one piece, no other session gives up a piece that is not had. -/
structure KeepsOrder (sha1 : List UInt8 → List UInt8) (s : Swarm) (e : SwarmEvent) : Prop where
  offered : ∀ k ev p, e = .proc k ev → s.procs[k]? = some p → p.Asks ev →
    ∀ j, s.shared.tracker.Free j → p.peerHas.has j = true
  reserved : ∀ k ev p i, e = .proc k ev → s.procs[k]? = some p → p.Asks ev →
    s.shared.tracker.Free i → HeldByOther s k i false → ∀ j, s.shared.tracker.Free j → j = i
  released : ∀ k ev p i, e = .proc k ev → s.procs[k]? = some p → Releases sha1 s.shared p ev →
    p.held = some i → s.shared.tracker.has i = false → ∀ x, ¬DoubledByOthers s k x

section Step

variable {sha1 : List UInt8 → List UInt8} {c c' : Shared} {p p' : Session} {e : SessionEvent}

theorem PieceTracker.reservePiece_fst (t : PieceTracker) (peerHas : Bitfield) :
    (t.reservePiece peerHas).1 = t.rarestNeeded peerHas true := by
  unfold PieceTracker.reservePiece
  split <;> rename_i hr <;> exact hr.symm

/-- A session comes to hold a piece by asking for it: a free one, which it claims, or one
it takes in the endgame. -/
theorem Session.Step.takes (hc : c.Sound sha1) (hp : p.Sound sha1 c)
    (h : Step sha1 c p e c' p') {i : Nat} (hnone : p.held = none) (hheld : p'.held = some i) :
    (p.Asks e ∧ c.tracker.Free i ∧ c'.tracker.isClaimed i = true) ∨ p.TakesEndgame c e i := by
  cases h with
  | reserved index hph hn hch hr =>
    obtain rfl : index = i := Option.some.inj hheld
    obtain ⟨hlt, hneed, hfree⟩ := hp.needed hc hr
    refine .inl ⟨⟨rfl, hph, hn, hch⟩, ⟨hlt, hneed, hfree rfl⟩, ?_⟩
    simp [hlt]
  | endgame index hph hn hch hr hd he =>
    obtain rfl : index = i := Option.some.inj hheld
    exact .inr ⟨⟨rfl, hph, hn, hch⟩, (PieceTracker.reservePiece_fst _ _).trans hr, hd, he⟩
  | paused | choke => simp [Session.held] at hheld
  | blockAdded block asm asm' hph hcur => simp [Session.held, hcur] at hnone
  | timeout | pieceAlreadyHad | pieceVerified | pieceBadHash => cases hheld
  | _ => exact absurd (hheld.symm.trans hnone) (Option.some_ne_none i)

end Step

/-! ## Fetching twice -/

section Doubled

variable {s : Swarm} {c' : Shared} {k : Nat} {p p' : Session}

/-- Of two sessions that fetch a piece, session `k` is one or neither. -/
theorem doubled_iff (hk : s.procs[k]? = some p) {i : Nat} :
    Doubled s i ↔ DoubledByOthers s k i ∨ p.Fetches i ∧ HeldByOther s k i false := by
  constructor
  · rintro ⟨j, j', q, q', hne, hj, hj', hq, hq'⟩
    by_cases h : j = k
    · subst h
      obtain rfl := Option.some.inj (hk.symm.trans hj)
      exact .inr ⟨hq, j', q', hne.symm, hj', hq'.1, hq'.2, fun h => absurd h Bool.false_ne_true⟩
    by_cases h' : j' = k
    · subst h'
      obtain rfl := Option.some.inj (hk.symm.trans hj')
      exact .inr ⟨hq', j, q, hne, hj, hq.1, hq.2, fun h => absurd h Bool.false_ne_true⟩
    · exact .inl ⟨j, j', q, q', h, h', hne, hj, hj', hq, hq'⟩
  · rintro (⟨j, j', q, q', -, -, h⟩ | ⟨hp, j, q, hne, hj, hrun, hheld, -⟩)
    · exact ⟨j, j', q, q', h⟩
    · exact ⟨j, k, q, p, hne, hj, hk, ⟨hrun, hheld⟩, hp⟩

/-- A step of session `k` leaves the other sessions where they are. -/
theorem doubledByOthers_set (hk : s.procs[k]? = some p) {i : Nat} :
    DoubledByOthers ⟨c', s.procs.set k p'⟩ k i ↔ DoubledByOthers s k i := by
  have hget : ∀ j, j ≠ k → (s.procs.set k p')[j]? = s.procs[j]? := fun j hj => by
    rw [PoolProgram.getElem?_set_proc hk, if_neg hj]
  constructor
  · rintro ⟨j, j', q, q', hjk, hj'k, hne, hj, hj', hq⟩
    exact ⟨j, j', q, q', hjk, hj'k, hne, hget j hjk ▸ hj, hget j' hj'k ▸ hj', hq⟩
  · rintro ⟨j, j', q, q', hjk, hj'k, hne, hj, hj', hq⟩
    exact ⟨j, j', q, q', hjk, hj'k, hne, (hget j hjk).trans hj, (hget j' hj'k).trans hj', hq⟩

theorem heldByOther_set (hk : s.procs[k]? = some p) {i : Nat} :
    HeldByOther ⟨c', s.procs.set k p'⟩ k i false ↔ HeldByOther s k i false := by
  constructor
  · rintro ⟨j, q, hne, hj, hq⟩
    rw [PoolProgram.getElem?_set_proc hk, if_neg hne] at hj
    exact ⟨j, q, hne, hj, hq⟩
  · exact fun h => h.set hk

/-- What is fetched twice after a step of session `k`. -/
theorem doubled_set (hk : s.procs[k]? = some p) {i : Nat} :
    Doubled ⟨c', s.procs.set k p'⟩ i ↔
      DoubledByOthers s k i ∨ p'.Fetches i ∧ HeldByOther s k i false := by
  have hk' : (s.procs.set k p')[k]? = some p' := by
    rw [PoolProgram.getElem?_set_proc hk, if_pos rfl]
  rw [doubled_iff (s := ⟨c', s.procs.set k p'⟩) hk', doubledByOthers_set hk, heldByOther_set hk]

end Doubled

section PoolStep

variable {sha1 : List UInt8 → List UInt8} {s s' : Swarm} {e : SwarmEvent}

/-- When `reserve_piece` has nothing for a session whose peer has every free piece, no piece
is free. -/
theorem not_free_of_endgame {c : Shared} {p : Session} {ev : SessionEvent} {i : Nat}
    (h : p.TakesEndgame c ev i) (hall : ∀ j, c.tracker.Free j → p.peerHas.has j = true) (j : Nat) :
    ¬c.tracker.Free j := by
  intro hj
  obtain ⟨-, hnone, -⟩ := h
  rw [PieceTracker.reservePiece_fst] at hnone
  exact PieceTracker.rarestNeeded_eq_none_iff.mp hnone j hj.1 ⟨hj.2.1, hall j hj, fun _ => hj.2.2⟩

/-- A piece that is free after a step was not had before it. -/
theorem Shared.Extends.not_had_of_free {c c' : Shared} (h : c.Extends c') {j : Nat}
    (hj : c'.tracker.Free j) : j < c.tracker.numPieces ∧ c.tracker.has j = false := by
  obtain ⟨hlt, hn, -⟩ := hj
  rw [PieceTracker.numPieces, h.pieceHashes] at hlt
  refine ⟨hlt, ?_⟩
  by_contra hhas
  exact Bool.false_ne_true (hn.symm.trans (h.has j (Bool.not_eq_false _ ▸ hhas)))

/-- A new session fetches nothing. -/
theorem fetches_spawn {c : Shared} {addr : SocketAddr} {l : List Session} {k i : Nat}
    {q : Session} (hk : (l ++ [Session.new c addr])[k]? = some q) (hq : q.Fetches i) :
    l[k]? = some q := by
  rw [List.getElem?_append] at hk
  split at hk
  · exact hk
  · rw [List.mem_singleton.mp (List.mem_of_getElem? hk)] at hq
    cases hq.1

section Effect

variable {c c' : Shared} {p p' : Session} {ev : SessionEvent}

/-- What is free after a step was free before it, or is what the session gave up, which then
fetches nothing. -/
theorem Effect.free_cases (heff : Effect sha1 c p ev c' p') (hext : c.Extends c') {j : Nat}
    (hj : c'.tracker.Free j) :
    c.tracker.Free j ∨ p.held = some j ∧ Releases sha1 c p ev ∧ ∀ i, ¬p'.Fetches i := by
  obtain ⟨hlt, hn⟩ := hext.not_had_of_free hj
  obtain ⟨-, hn', hnotclaimed⟩ := hj
  cases heff with
  | quiet hclaimed => exact .inl ⟨hlt, hn, hclaimed j ▸ hnotclaimed⟩
  | acquired i excl hnone hheld hexcl hrun hneed hfree hclaimed =>
    rw [hclaimed] at hnotclaimed
    split at hnotclaimed
    · cases hnotclaimed
    · exact .inl ⟨hlt, hn, hnotclaimed⟩
  | released i hheld hgone hrel hrun hclaimed =>
    rw [hclaimed] at hnotclaimed
    split at hnotclaimed
    · rename_i hji
      refine .inr ⟨hji ▸ hheld, hrel, fun x hx => ?_⟩
      rcases hgone with h | h
      · cases h.symm.trans hx.2
      · cases h.symm.trans hx.1
    · exact .inl ⟨hlt, hn, hnotclaimed⟩
  | settled i hheld hgone hhas hclaimed =>
    have hji : j ≠ i := by
      rintro rfl
      cases hhas.symm.trans hn'
    exact .inl ⟨hlt, hn, hclaimed j hji ▸ hnotclaimed⟩

/-- What a session fetches after a step it fetched before it, or has just come to hold. -/
theorem Effect.fetches_cases (heff : Effect sha1 c p ev c' p') {i : Nat} (hi : p'.Fetches i) :
    p.Fetches i ∨ p.held = none ∧ p'.held = some i := by
  obtain ⟨hrun, hheldi⟩ := hi
  cases heff with
  | quiet hclaimed hheld hexcl henter hleave =>
    rcases henter hrun with h | h
    · exact .inl ⟨h, hheld ▸ hheldi⟩
    · cases (hheld.trans h).symm.trans hheldi
  | acquired i₀ excl hnone => exact .inr ⟨hnone, hheldi⟩
  | released i₀ hheld hgone =>
    rcases hgone with h | h
    · cases h.symm.trans hheldi
    · cases h.symm.trans hrun
  | settled i₀ hheld hgone => cases hgone.symm.trans hheldi

end Effect

/-- A step in order keeps pieces from being fetched twice while another is free. -/
theorem NoDoubleWhileFree.poolStep
    (hsound : s.shared.Sound sha1 ∧ ∀ p ∈ s.procs, p.Sound sha1 s.shared)
    (hs : NoDoubleWhileFree s) (hok : KeepsOrder sha1 s e)
    (h : (swarm sha1).poolStep s e = some s') : NoDoubleWhileFree s' := by
  cases e with
  | spawn addr =>
    obtain ⟨c', p, hspawn, rfl⟩ := PoolProgram.poolStep_spawn h
    obtain ⟨rfl, rfl⟩ := swarm_spawn hspawn
    rintro i j ⟨a, b, q, q', hne, ha, hb, hq, hq'⟩ hfree
    exact hs i j ⟨a, b, q, q', hne, fetches_spawn ha hq, fetches_spawn hb hq', hq, hq'⟩ hfree
  | env ev =>
    obtain ⟨c', henv, rfl⟩ := PoolProgram.poolStep_env h
    obtain ⟨control, completed, rfl, -⟩ := swarm_env henv
    exact hs
  | proc k ev =>
    obtain ⟨p, c', p', hk, hstep, rfl⟩ := PoolProgram.poolStep_proc h
    have hst := Session.step_cases hstep
    have hp := hsound.2 p (List.mem_of_getElem? hk)
    have heff := hst.effect hsound.1 hp
    intro i j hdouble hfree
    rw [doubled_set hk] at hdouble
    rcases heff.free_cases hst.extends hfree with hfree₀ | ⟨hheldj, hrel, hnone⟩
    · rcases hdouble with hd | ⟨hfetches, hother⟩
      · exact hs i j ((doubled_iff hk).mpr (.inl hd)) hfree₀
      rcases heff.fetches_cases hfetches with hf | ⟨hnone, hheld⟩
      · exact hs i j ((doubled_iff hk).mpr (.inr ⟨hf, hother⟩)) hfree₀
      rcases hst.takes hsound.1 hp hnone hheld with ⟨hasks, hfreei, hclaims⟩ | htakes
      · obtain rfl := hok.reserved k ev p i rfl hk hasks hfreei hother j hfree₀
        exact Bool.false_ne_true (hfree.2.2.symm.trans hclaims)
      · exact not_free_of_endgame htakes (hok.offered k ev p rfl hk htakes.1) j hfree₀
    · rcases hdouble with hd | ⟨hfetches, -⟩
      · obtain ⟨-, hn⟩ := hst.extends.not_had_of_free hfree
        exact hok.released k ev p j rfl hk hrel hheldj hn i hd
      · exact hnone i hfetches

/-- A session whose peer has every free piece enters the endgame only when none is free. -/
theorem KeepsOrder.endgameAtEnd (hok : KeepsOrder sha1 s e) : EndgameAtEnd s e := by
  intro k ev p i he hk htakes j hlt hn
  by_contra hcl
  exact not_free_of_endgame htakes (hok.offered k ev p he hk htakes.1) j
    ⟨hlt, hn, Bool.not_eq_true _ ▸ hcl⟩

end PoolStep

/-- In every run whose steps keep the order, the endgame starts only at the end, and no
piece is fetched twice while another is free. -/
theorem endgame_at_end {sha1 : List UInt8 → List UInt8} {info : Info}
    {infoHash peerId : List UInt8} {c : Coordinator}
    (h : Coordinator.new info infoHash peerId = .ok c) {run : Run} {s : Swarm}
    (hr : (c.system sha1).HistoryWhere (KeepsOrder sha1) run s) :
    ∀ t ∈ run, EndgameAtEnd t.pre t.event ∧ NoDoubleWhileFree t.post := by
  refine (hr.invariant (P := fun run s => NoDoubleWhileFree s ∧
    ∀ t ∈ run, EndgameAtEnd t.pre t.event ∧ NoDoubleWhileFree t.post) ⟨?_, ?_⟩ ?_).2
  · rintro i j ⟨a, b, q, q', -, ha, -⟩
    cases ha
  · intro t ht
    cases ht
  · intro run s e s' hrun ⟨hs, hall⟩ hok hstep
    have hs' := hs.poolStep (Coordinator.sound h ⟨run, hrun.history⟩) hok hstep
    refine ⟨hs', fun t ht => ?_⟩
    rcases List.mem_append.mp ht with ht | ht
    · exact hall t ht
    · obtain rfl := List.mem_singleton.mp ht
      exact ⟨hok.endgameAtEnd, hs'⟩

/-- The pieces that are neither had nor claimed. -/
def PieceTracker.free (t : PieceTracker) : List Nat :=
  (List.range t.numPieces).filter fun j => !t.has j && !t.isClaimed j

theorem PieceTracker.mem_free_iff {t : PieceTracker} {i : Nat} : i ∈ t.free ↔ t.Free i := by
  simp [PieceTracker.free, PieceTracker.Free]

/-- A check that implies `KeepsOrder` where there are two sessions at most. -/
def inOrder (s : Swarm) (e : SwarmEvent) : Bool :=
  decide (s.procs.length ≤ 2) &&
    match e with
    | .proc k .proceed => (s.procs[k]?).all fun p => p.choked || p.current.isSome ||
        s.shared.tracker.free.all fun i => p.peerHas.has i &&
          (s.shared.tracker.free.all (fun j => decide (j = i)) ||
            s.procs.all fun q => decide (q.held ≠ some i))
    | _ => true

theorem keepsOrder_of_inOrder {sha1 : List UInt8 → List UInt8} (s : Swarm) (e : SwarmEvent)
    (h : inOrder s e = true) : KeepsOrder sha1 s e := by
  unfold inOrder at h
  rw [Bool.and_eq_true, decide_eq_true_eq] at h
  obtain ⟨hlen, hasks⟩ := h
  have hfree : ∀ k ev p i, e = .proc k ev → s.procs[k]? = some p → p.Asks ev →
      s.shared.tracker.Free i → p.peerHas.has i = true ∧
        ((∀ j ∈ s.shared.tracker.free, j = i) ∨ ∀ q ∈ s.procs, q.held ≠ some i) := by
    rintro k ev p i rfl hk ⟨rfl, -, hcur, hch⟩ hi
    simp only [hk, Option.all_some, hch, hcur, Option.isSome_none, Bool.false_or,
      List.all_eq_true] at hasks
    simpa using hasks i (PieceTracker.mem_free_iff.mpr hi)
  refine ⟨fun k ev p he hk hasks j hj => (hfree k ev p j he hk hasks hj).1, ?_, ?_⟩
  · rintro k ev p i he hk hasks hi ⟨a, q, -, ha, -, hheld, -⟩ j hj
    rcases (hfree k ev p i he hk hasks hi).2 with hone | hnone
    · exact hone j (PieceTracker.mem_free_iff.mpr hj)
    · exact absurd hheld (hnone q (List.mem_of_getElem? ha))
  · rintro k ev p i he hk hrel hheld hn x ⟨a, b, q, q', hak, hbk, hne, ha, hb, -⟩
    obtain ⟨hlt, -⟩ := List.getElem?_eq_some_iff.mp hk
    obtain ⟨hlt', -⟩ := List.getElem?_eq_some_iff.mp ha
    obtain ⟨hlt'', -⟩ := List.getElem?_eq_some_iff.mp hb
    omega

/-- Two peers have both pieces. Session 0 reserves the first and session 1 the second;
session 0 delivers its piece and takes the second in the endgame; session 1 is choked,
gives the second piece up and reserves it again. -/
def fullPeers : Trace :=
  List.flatten [Trace.join 0, Trace.deliver 0 (.bitfield [0xC0]), Trace.take 0,
    Trace.join 1, Trace.deliver 1 (.bitfield [0xC0]), Trace.take 1,
    [.proc 0 (.recv (.ok (some (.piece ⟨0, 0, [0x61]⟩)))), .proc 0 .emit, .proc 0 .poll,
      .proc 0 .proceed, .proc 0 (.request (.ok ())), .proc 0 .refilled],
    Trace.deliver 1 .choke, Trace.take 1]

instance (p : Session) (i : Nat) : Decidable (p.Fetches i) :=
  inferInstanceAs (Decidable (_ ∧ _))

/-- Both sessions come to fetch the last piece, which one of them took in the endgame and the
other gave up and reserved again. -/
theorem endgame_at_end_twoPieces : ∃ run s,
    (twoPieces.system sha1OfA).HistoryWhere (KeepsOrder sha1OfA) run s ∧
      (∃ p ∈ s.procs[0]?, p.Fetches 1 ∧ p.exclusive = false) ∧
      (∃ p ∈ s.procs[1]?, p.Fetches 1 ∧ p.exclusive = true) ∧
      (∃ t ∈ run, t.pre.shared.tracker.free = [1] ∧
        ∃ p ∈ t.pre.procs[0]?, p.Fetches 1) ∧
      ∀ t ∈ run, EndgameAtEnd t.pre t.event ∧ NoDoubleWhileFree t.post := by
  obtain ⟨run, s, hr, hfirst, hsecond, hfree⟩ :=
    System.HistoryWhere.exists_run (twoPieces.system sha1OfA)
      (P := fun run s => (∃ p ∈ s.procs[0]?, p.Fetches 1 ∧ p.exclusive = false) ∧
        (∃ p ∈ s.procs[1]?, p.Fetches 1 ∧ p.exclusive = true) ∧
        ∃ t ∈ run, t.pre.shared.tracker.free = [1] ∧
          ∃ p ∈ t.pre.procs[0]?, p.Fetches 1)
      inOrder keepsOrder_of_inOrder fullPeers (by decide +kernel)
  exact ⟨run, s, hr, hfirst, hsecond, hfree, endgame_at_end twoPieces_new hr⟩

/-! ## Partial peers -/

/-- Two peers have the first piece only; session 0 reserves it, and session 1 asks. -/
def partialPeers : Trace :=
  Trace.join 0 ++ Trace.deliver 0 (.have 0) ++ Trace.take 0 ++
    Trace.join 1 ++ Trace.deliver 1 (.have 0) ++
    [.proc 1 (.recv (.ok (some .unchoke))), .proc 1 .poll]

/-- Session 1 enters the endgame while nobody has claimed the second piece, and the first is
then fetched twice. -/
theorem endgame_before_end : Coordinator.new twoPiecesInfo [] [] = .ok twoPieces ∧
    ∃ run t s, (twoPieces.system sha1OfA).History (run ++ [t]) s ∧
      ¬EndgameAtEnd t.pre t.event ∧ ¬NoDoubleWhileFree s := by
  refine ⟨rfl, _, ⟨_, .proc 1 .proceed, _⟩, _,
    .snoc (System.History.ofExec partialPeers rfl) trivial rfl, fun h => ?_, fun h => ?_⟩
  · exact Bool.false_ne_true (h 1 .proceed _ 0 rfl rfl ⟨⟨rfl, rfl, rfl, rfl⟩, rfl, rfl, rfl⟩ 1
      (by decide) rfl)
  · exact h 0 1 ⟨0, 1, _, _, Nat.zero_ne_one, rfl, rfl, ⟨rfl, rfl⟩, rfl, rfl⟩ ⟨by decide, rfl, rfl⟩

end Torrentina.Download
