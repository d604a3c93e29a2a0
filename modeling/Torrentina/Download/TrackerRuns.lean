import Torrentina.Core.System
import Torrentina.Download.Rarest

/-!
# Runs of a tracker

A tracker under every sequence of its public operations, with any arguments. What is
had is never claimed and never lost, and a claim is exclusive until it is released, as
long as a piece index fits `u32`; the scan returns an index as `u32`, and beyond that
it names another piece than the one it chose.
-/

namespace Torrentina.Download

open Torrentina.Core

/-- The public operations of a tracker, with their arguments. -/
inductive TrackerOp
  | addAvailability (index : Nat)
  | addBitfieldAvailability (bitfield : Bitfield)
  | removeBitfieldAvailability (bitfield : Bitfield)
  | reservePiece (peerHas : Bitfield)
  | reservePieceEndgame (peerHas : Bitfield)
  | releasePiece (index : UInt32)
  | verify (index : UInt32) (data : List UInt8)
  | markHave (index : UInt32)

/-- Whether an operation counts a peer's pieces. -/
def TrackerOp.adds : TrackerOp → Bool
  | .addAvailability _ | .addBitfieldAvailability _ => true
  | _ => false

namespace PieceTracker

/-- The tracker after an operation. -/
def apply (t : PieceTracker) : TrackerOp → PieceTracker
  | .addAvailability index => t.addAvailability index
  | .addBitfieldAvailability bitfield => t.addBitfieldAvailability bitfield
  | .removeBitfieldAvailability bitfield => t.removeBitfieldAvailability bitfield
  | .reservePiece peerHas => (t.reservePiece peerHas).2
  | .reservePieceEndgame _ => t
  | .releasePiece index => t.releasePiece index.toNat
  | .verify _ _ => t
  | .markHave index => t.markHave index.toNat

/-- All sequences of operations on a tracker. -/
def system (t : PieceTracker) : System PieceTracker TrackerOp where
  init := t
  step t op := some (t.apply op)

/-- What a reservation leaves behind is what it was given, or that with one piece claimed. -/
theorem reservePiece_cases (t : PieceTracker) (peerHas : Bitfield) :
    (t.reservePiece peerHas).2 = t ∨ ∃ i, (t.reservePiece peerHas).2 = t.claim i := by
  unfold reservePiece
  split
  · exact .inl rfl
  · exact .inr ⟨_, rfl⟩

section Apply

variable (t : PieceTracker) (op : TrackerOp)

@[simp] theorem pieceHashes_apply : (t.apply op).pieceHashes = t.pieceHashes := by
  cases op with
  | reservePiece peerHas =>
    rcases t.reservePiece_cases peerHas with h | ⟨i, h⟩ <;> rw [apply, h]
    rfl
  | _ => rfl

theorem has_apply_of_has {i : Nat} (h : t.has i = true) : (t.apply op).has i = true := by
  cases op with
  | reservePiece peerHas =>
    rcases t.reservePiece_cases peerHas with h' | ⟨j, h'⟩ <;> rw [apply, h']
    · exact h
    · exact h
  | markHave index => rw [apply, has_markHave, h, Bool.true_or]
  | _ => exact h

/-- A piece becomes had where it is marked. -/
theorem has_of_has_apply {i : Nat} (h : (t.apply op).has i = true) :
    t.has i = true ∨ ∃ index, op = .markHave index ∧ index.toNat = i := by
  cases op with
  | reservePiece peerHas =>
    rcases t.reservePiece_cases peerHas with h' | ⟨j, h'⟩ <;> rw [apply, h'] at h
    · exact .inl h
    · exact .inl h
  | markHave index =>
    rw [apply, has_markHave, Bool.or_eq_true, decide_eq_true_eq] at h
    exact h.imp_right fun h => ⟨index, rfl, h.1.symm⟩
  | _ => exact .inl h

/-- A claim ends where its piece is released or marked. -/
theorem isClaimed_apply_of_isClaimed {i : Nat} (h : t.isClaimed i = true)
    (hrelease : ∀ index, op = .releasePiece index → index.toNat ≠ i)
    (hmark : ∀ index, op = .markHave index → index.toNat ≠ i) :
    (t.apply op).isClaimed i = true := by
  cases op with
  | reservePiece peerHas =>
    rcases t.reservePiece_cases peerHas with h' | ⟨j, h'⟩
    · rw [apply, h', h]
    · rw [apply, h', isClaimed_claim, h, ite_self]
  | releasePiece index =>
    rw [apply, isClaimed_releasePiece, if_neg fun he => hrelease index rfl he.symm, h]
  | markHave index =>
    rw [apply, isClaimed_markHave, if_neg fun he => hmark index rfl he.symm, h]
  | _ => exact h

/-- A claim starts with the reservation of its piece. -/
theorem isClaimed_of_isClaimed_apply {i : Nat} (h : (t.apply op).isClaimed i = true) :
    t.isClaimed i = true ∨
      ∃ peerHas, op = .reservePiece peerHas ∧ (t.reservePiece peerHas).1 = some i := by
  cases op with
  | reservePiece peerHas =>
    rw [apply] at h
    unfold reservePiece at h ⊢
    split at h
    · exact .inl h
    · rename_i j hj
      rw [isClaimed_claim] at h
      split at h
      · rename_i he
        refine .inr ⟨peerHas, rfl, ?_⟩
        rw [hj, he.1]
      · exact .inl h
  | releasePiece index =>
    rw [apply, isClaimed_releasePiece] at h
    split at h
    · cases h
    · exact .inl h
  | markHave index =>
    rw [apply, isClaimed_markHave] at h
    split at h
    · cases h
    · exact .inl h
  | _ => exact .inl h

end Apply

/-- Two sequences of operations make one. -/
theorem reachable_trans {t t' t'' : PieceTracker} (h : t.system.Reachable t')
    (h' : t'.system.Reachable t'') : t.system.Reachable t'' := by
  refine h'.invariant (P := fun s => t.system.Reachable s) h ?_
  intro s op s' _ hr hs
  exact hr.step hs

end PieceTracker

/-- What a sequence of operations records. -/
abbrev TrackerRun := List (Transition PieceTracker TrackerOp)

/-- The operation is a reservation that returns piece `i`. -/
def ReservesPiece (i : Nat) (u : Transition PieceTracker TrackerOp) : Prop :=
  ∃ peerHas, u.event = .reservePiece peerHas ∧ (u.pre.reservePiece peerHas).1 = some i

/-- The operation releases piece `i`. -/
def ReleasesPiece (i : Nat) (u : Transition PieceTracker TrackerOp) : Prop :=
  ∃ index : UInt32, u.event = .releasePiece index ∧ index.toNat = i

/-- The operation marks piece `i`. -/
def MarksPiece (i : Nat) (u : Transition PieceTracker TrackerOp) : Prop :=
  ∃ index : UInt32, u.event = .markHave index ∧ index.toNat = i

/-- What holds after a sequence of operations: nothing had is claimed, what was had before
is had, completion is exact, and of two reservations of one piece the second comes after a
release and before any mark. -/
structure Consistent (run : TrackerRun) (t : PieceTracker) : Prop where
  disjoint : ∀ i, ¬(t.has i = true ∧ t.isClaimed i = true)
  grows : ∀ u ∈ run, ∀ i, u.pre.has i = true → u.post.has i = true
  complete : t.isComplete = true ↔ ∀ i < t.numPieces, t.has i = true
  exclusive : ∀ before u between v after i, run = before ++ u :: (between ++ v :: after) →
    ReservesPiece i u → ReservesPiece i v →
      (∃ w ∈ between, ReleasesPiece i w) ∧ ∀ w ∈ before ++ u :: between, ¬MarksPiece i w

section Small

variable {t₀ t t' : PieceTracker} {run : TrackerRun}

theorem PieceTracker.pieceHashes_eq_of_reachable (h : t₀.system.Reachable t) :
    t.pieceHashes = t₀.pieceHashes := by
  refine h.invariant (P := fun t => t.pieceHashes = t₀.pieceHashes) rfl ?_
  intro t op t' _ ht hs
  obtain rfl := Option.some.inj hs
  rw [PieceTracker.pieceHashes_apply, ht]

theorem PieceTracker.numPieces_eq_of_reachable (h : t₀.system.Reachable t) :
    t.numPieces = t₀.numPieces := by
  rw [PieceTracker.numPieces, PieceTracker.pieceHashes_eq_of_reachable h, PieceTracker.numPieces]

/-- A piece marked in a run is had at its end, if there is such a piece. -/
theorem has_of_marksPiece (hr : t₀.system.History run t) {i : Nat} (hi : i < t₀.numPieces)
    {w : Transition PieceTracker TrackerOp} (hw : w ∈ run) (hm : MarksPiece i w) :
    t.has i = true := by
  obtain ⟨before, after, rfl⟩ := List.append_of_mem hw
  obtain ⟨hreach, -, hs⟩ := System.HistoryWhere.mem hr hw
  obtain ⟨index, he, rfl⟩ := hm
  rw [he] at hs
  have hpost : w.post.has index.toNat = true := by
    rw [← Option.some.inj hs, PieceTracker.apply, PieceTracker.has_markHave,
      PieceTracker.numPieces_eq_of_reachable hreach]
    simp [hi]
  refine (System.HistoryWhere.since (P := fun t => t.has index.toNat = true) hr rfl hpost ?_).1
  intro t op t' _ ht _ hs
  obtain rfl := Option.some.inj hs
  exact t.has_apply_of_has op ht

variable (hn : t₀.numPieces ≤ 2 ^ 32)
include hn

/-- A reservation returns a piece that is neither had nor claimed, and claims it. -/
theorem reserved_free (hr : t₀.system.Reachable t) {peerHas : Bitfield} {i : Nat}
    (h : (t.reservePiece peerHas).1 = some i) :
    i < t₀.numPieces ∧ t.has i = false ∧ t.isClaimed i = false ∧
      (t.apply (.reservePiece peerHas)).isClaimed i = true := by
  have hnum := PieceTracker.numPieces_eq_of_reachable hr
  rcases PieceTracker.reservePiece_spec (hnum.trans_le hn) peerHas with ⟨-, hres⟩ | ⟨j, hj, hres⟩
  · rw [hres] at h
    cases h
  · rw [PieceTracker.apply, hres]
    rw [hres] at h
    obtain rfl := Option.some.inj h
    refine ⟨hnum ▸ hj.lt, hj.eligible.1, hj.eligible.2.2 rfl, ?_⟩
    rw [PieceTracker.isClaimed_claim, if_pos ⟨rfl, hj.lt⟩]

/-- Nothing had is claimed. -/
theorem not_claimed_of_reachable (h0 : ∀ i, t₀.has i = true → t₀.isClaimed i = false)
    (hr : t₀.system.Reachable t) : ∀ i, t.has i = true → t.isClaimed i = false := by
  refine hr.invariant (P := fun t => ∀ i, t.has i = true → t.isClaimed i = false) h0 ?_
  intro t op t' hreach ht hs i hi
  obtain rfl := Option.some.inj hs
  by_contra hcl
  rcases t.isClaimed_of_isClaimed_apply op (Bool.not_eq_false _ ▸ hcl) with hcl' | ⟨bf, rfl, hres⟩
  · rcases t.has_of_has_apply op hi with hhas | ⟨index, rfl, rfl⟩
    · rw [ht i hhas] at hcl'
      cases hcl'
    · rw [PieceTracker.apply, PieceTracker.isClaimed_markHave, if_pos rfl] at hcl
      exact hcl rfl
  · -- A reservation changes nothing in what is had.
    obtain ⟨-, hfree, -⟩ := reserved_free hn hreach hres
    rcases t.has_of_has_apply _ hi with hhas | ⟨index, he, -⟩
    · exact Bool.false_ne_true (hfree.symm.trans hhas)
    · cases he

/-- Between two reservations of a piece it is released, and before the second it is not
marked. -/
theorem released_between {before between after : TrackerRun}
    {u v : Transition PieceTracker TrackerOp} {i : Nat} (hr : t₀.system.History run t)
    (hsplit : run = before ++ u :: (between ++ v :: after)) (hu : ReservesPiece i u)
    (hv : ReservesPiece i v) :
    (∃ w ∈ between, ReleasesPiece i w) ∧ ∀ w ∈ before ++ u :: between, ¬MarksPiece i w := by
  have hv' : t₀.system.History (before ++ u :: between) v.pre :=
    System.HistoryWhere.before hr (show run = (before ++ u :: between) ++ v :: after by
      rw [hsplit, List.append_assoc, List.cons_append])
  have hmem : u ∈ before ++ u :: between := List.mem_append_right _ List.mem_cons_self
  obtain ⟨hreach, -, hs⟩ := System.HistoryWhere.mem hv' hmem
  obtain ⟨bf, he, hres⟩ := hu
  obtain ⟨hlt, -, -, hclaims⟩ := reserved_free hn hreach hres
  obtain ⟨bf', -, hres'⟩ := hv
  obtain ⟨-, hnothas, hnotclaimed, -⟩ := reserved_free hn ⟨_, hv'⟩ hres'
  have hmarks : ∀ w ∈ before ++ u :: between, ¬MarksPiece i w := by
    intro w hw hm
    have hhas := has_of_marksPiece hv' hlt hw hm
    exact Bool.false_ne_true (hnothas.symm.trans hhas)
  refine ⟨?_, hmarks⟩
  have hclaimed : u.post.isClaimed i = true := by
    rw [← Option.some.inj hs, he, hclaims]
  rcases hv'.holds_or_ended (P := fun t => t.isClaimed i = true) rfl hclaimed with
    h | ⟨w, hw, hpre, hpost⟩
  · exact absurd (hnotclaimed.symm.trans h) Bool.false_ne_true
  refine ⟨w, hw, ?_⟩
  have hwm : w ∈ before ++ u :: between := List.mem_append_right _ (List.mem_cons_of_mem _ hw)
  obtain ⟨-, -, hws⟩ := System.HistoryWhere.mem hv' hwm
  by_contra hno
  apply hpost
  rw [← Option.some.inj hws]
  refine PieceTracker.isClaimed_apply_of_isClaimed _ _ hpre ?_ ?_
  · intro index he hi
    exact hno ⟨index, he, hi⟩
  · intro index he hi
    exact hmarks w hwm ⟨index, he, hi⟩

/-- With at most `2^32` pieces every sequence of operations leaves a consistent tracker. -/
theorem consistent_of_le (h0 : ∀ i, t₀.has i = true → t₀.isClaimed i = false)
    (hr : t₀.system.History run t) : Consistent run t where
  disjoint i h := by
    have hcl := not_claimed_of_reachable hn h0 ⟨run, hr⟩ i h.1
    exact Bool.false_ne_true (hcl.symm.trans h.2)
  grows u hu i hi := by
    obtain ⟨-, -, hs⟩ := System.HistoryWhere.mem hr hu
    rw [← Option.some.inj hs]
    exact u.pre.has_apply_of_has u.event hi
  complete := t.isComplete_iff
  exclusive before u between v after i hsplit hu hv := released_between hn hr hsplit hu hv

end Small

/-! ## Beyond `u32` -/

/-- A peer that has the piece of index `2^32` and no other. -/
def onlyPeer : Bitfield := (Bitfield.new (2 ^ 32 + 1)).set (2 ^ 32)

theorem has_onlyPeer (i : Nat) : onlyPeer.has i = decide (i = 2 ^ 32) := by
  have hlt : 2 ^ 32 < (Bitfield.new (2 ^ 32 + 1)).numPieces := Nat.lt_succ_self _
  rw [onlyPeer, Bitfield.has_set, Bitfield.has_new]
  simp only [hlt, and_true, Bool.false_or]

/-- The piece of index `2^32` is chosen, and piece 0 is returned and claimed. -/
theorem reservePiece_onlyPeer {t : PieceTracker} (hn : 2 ^ 32 < t.numPieces)
    (hhas : t.has (2 ^ 32) = false) (hclaimed : t.isClaimed (2 ^ 32) = false) :
    t.reservePiece onlyPeer = (some 0, t.claim 0) := by
  have heligible : t.Eligible onlyPeer true (2 ^ 32) :=
    ⟨hhas, by rw [has_onlyPeer, decide_eq_true rfl], fun _ => hclaimed⟩
  unfold PieceTracker.reservePiece
  cases hr : t.rarestNeeded onlyPeer true with
  | none => exact absurd heligible (PieceTracker.rarestNeeded_eq_none_iff.mp hr _ hn)
  | some j =>
    obtain ⟨i, -, ⟨-, hpeer, -⟩, rfl⟩ := PieceTracker.rarestNeeded_eq_some hr
    rw [has_onlyPeer, decide_eq_true_eq] at hpeer
    rw [hpeer, Nat.mod_self]

/-- Beyond `u32` two reservations in a row return the same piece. -/
theorem not_consistent_of_lt {t : PieceTracker} (hn : 2 ^ 32 < t.numPieces)
    (hhas : t.has (2 ^ 32) = false) (hclaimed : t.isClaimed (2 ^ 32) = false) :
    ∃ run s, t.system.History run s ∧ (run.countP fun u => u.event.adds) = 0 ∧
      ¬Consistent run s := by
  have hfirst := reservePiece_onlyPeer hn hhas hclaimed
  have hclaimed' : (t.claim 0).isClaimed (2 ^ 32) = false := by
    rw [PieceTracker.isClaimed_claim, if_neg (fun h => absurd h.1 (by decide)), hclaimed]
  have hsecond : (t.claim 0).reservePiece onlyPeer = _ :=
    reservePiece_onlyPeer (t := t.claim 0) hn hhas hclaimed'
  have hstep : t.apply (.reservePiece onlyPeer) = t.claim 0 := by
    rw [PieceTracker.apply, hfirst]
  refine ⟨_, _, .snoc (.snoc .nil trivial (e := .reservePiece onlyPeer) rfl) trivial
    (e := .reservePiece onlyPeer) rfl, rfl, fun h => ?_⟩
  obtain ⟨⟨w, hw, -⟩, -⟩ := h.exclusive [] _ [] _ [] 0 rfl
    ⟨onlyPeer, rfl, by rw [show (t.system.init) = t from rfl, hfirst]⟩
    ⟨onlyPeer, rfl, by
      show ((t.apply (.reservePiece onlyPeer)).reservePiece onlyPeer).1 = some 0
      rw [hstep, hsecond]⟩
  cases hw

/-- A tracker is consistent along every run just when its pieces are at most `2^32`. -/
theorem tracker_consistent_iff {info : Info} {t : PieceTracker}
    (h : PieceTracker.fromInfo info = .ok t) :
    (∀ run s, t.system.History run s → (run.countP fun u => u.event.adds) < 2 ^ 32 →
      Consistent run s) ↔ info.numPieces ≤ 2 ^ 32 := by
  obtain ⟨ht, hnum⟩ := PieceTracker.fromInfo_eq_ok h
  have hhas : ∀ i, t.has i = false := by
    intro i
    rw [ht, PieceTracker.has_ofHashes]
  constructor
  · intro hall
    by_contra hlt
    have hn : 2 ^ 32 < t.numPieces := hnum ▸ Nat.lt_of_not_le hlt
    have hclaimed : t.isClaimed (2 ^ 32) = false := by
      rw [ht, PieceTracker.isClaimed_ofHashes]
    obtain ⟨run, s, hr, hadds, hbad⟩ := not_consistent_of_lt hn (hhas _) hclaimed
    exact hbad (hall run s hr (hadds ▸ Nat.two_pow_pos 32))
  · intro hle run s hr _
    refine consistent_of_le (hnum.trans_le hle) (fun i hi => ?_) hr
    exact absurd ((hhas i).symm.trans hi) Bool.false_ne_true

/-- A torrent of one piece. -/
def onePieceInfo : Info where
  name := "t"
  pieceLength := 1
  pieces := List.replicate sha1Len 0
  length := some 1
  files := none

/-- Its piece is reserved, released and reserved again. -/
def reserveAgain : List TrackerOp :=
  [.reservePiece ((Bitfield.new 1).set 0), .releasePiece 0,
    .reservePiece ((Bitfield.new 1).set 0)]

theorem tracker_consistent_onePiece : ∃ t s, PieceTracker.fromInfo onePieceInfo = .ok t ∧
    t.system.exec t reserveAgain = some s ∧
    Consistent (t.system.recorded t reserveAgain) s := by
  have hnew : PieceTracker.fromInfo onePieceInfo =
      .ok (PieceTracker.ofHashes [List.replicate sha1Len 0]) := rfl
  refine ⟨_, _, hnew, rfl, ?_⟩
  exact (tracker_consistent_iff hnew).mpr (by decide) _ _
    (.ofExec reserveAgain rfl) (by decide)

/-- A torrent of one piece more than `u32` counts. -/
def hugeInfo : Info where
  name := "t"
  pieceLength := 1
  pieces := List.replicate (sha1Len * (2 ^ 32 + 1)) 0
  length := some 1
  files := none

/-- Its first piece is reserved twice in a row. -/
theorem tracker_inconsistent : ∃ t, PieceTracker.fromInfo hugeInfo = .ok t ∧
    ∃ run s, t.system.History run s ∧ (run.countP fun u => u.event.adds) = 0 ∧
      ¬Consistent run s := by
  have hlen : hugeInfo.pieces.length = sha1Len * (2 ^ 32 + 1) := List.length_replicate
  obtain ⟨hashes, hh⟩ : ∃ hashes, hugeInfo.pieceHashes = .ok hashes := by
    rw [Info.pieceHashes, hlen, Nat.mul_mod_right, if_neg (not_not.mpr rfl)]
    exact ⟨_, rfl⟩
  have hn : 2 ^ 32 < (PieceTracker.ofHashes hashes).numPieces := by
    rw [show (PieceTracker.ofHashes hashes).numPieces = hashes.length from rfl,
      Info.length_pieceHashes hh, Info.numPieces, hlen, Nat.mul_div_right _ (by decide)]
    exact Nat.lt_succ_self _
  refine ⟨PieceTracker.ofHashes hashes, by rw [PieceTracker.fromInfo, hh]; rfl, ?_⟩
  exact not_consistent_of_lt hn (PieceTracker.has_ofHashes hashes _)
    (PieceTracker.isClaimed_ofHashes _ hashes)

end Torrentina.Download
