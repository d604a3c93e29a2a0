import Torrentina.Core.Argmin
import Torrentina.Download.State

/-!
# Rarest first

The scan behind both reservations is a scan for a least key, so what it picks is the
least pair of availability and index among what it does not skip.
-/

namespace Torrentina.Download

open Torrentina.Core

namespace PieceTracker

instance (t : PieceTracker) (peerHas : Bitfield) (skipClaimed : Bool) (i : Nat) :
    Decidable (t.Eligible peerHas skipClaimed i) :=
  inferInstanceAs (Decidable (_ ∧ _))

/-- Piece `i` is the rarest of the eligible ones, and the first of those. -/
structure Rarest (t : PieceTracker) (peerHas : Bitfield) (skipClaimed : Bool) (i : Nat) :
    Prop where
  lt : i < t.numPieces
  eligible : t.Eligible peerHas skipClaimed i
  least : ∀ j < t.numPieces, t.Eligible peerHas skipClaimed j →
    toLex (t.avail i, i) ≤ toLex (t.avail j, j)

/-- Below `2^32` an iteration of the scan truncates nothing. -/
theorem rarestStep_eq_scanStep {t : PieceTracker} {peerHas : Bitfield} {skip : Bool} {i : Nat}
    (hi : i < 2 ^ 32) (best : Option (Nat × Nat)) : t.rarestStep peerHas skip best i =
      scanStep (fun i => decide (t.Eligible peerHas skip i)) t.avail best i := by
  unfold rarestStep scanStep
  by_cases he : t.Eligible peerHas skip i
  · rw [if_neg (fun hskip => skips_iff.mp hskip he), if_pos (decide_eq_true he),
      Nat.mod_eq_of_lt hi]
    cases best <;> rfl
  · rw [if_pos (skips_iff.mpr he), if_neg (by simpa using he)]

section Exact

variable {t : PieceTracker} (hn : t.numPieces ≤ 2 ^ 32) {peerHas : Bitfield} {skip : Bool}
  {i : Nat}
include hn

theorem rarestNeeded_eq_argmin : t.rarestNeeded peerHas skip =
    ((List.range t.numPieces).filter fun i => t.Eligible peerHas skip i).argmin t.avail := by
  rw [rarestNeeded, ← foldl_scanStep]
  congr 1
  refine List.foldl_ext _ _ _ fun best i hi => rarestStep_eq_scanStep ?_ best
  exact Nat.lt_of_lt_of_le (List.mem_range.mp hi) hn

/-- The scan finds the rarest eligible piece, and the first of several. -/
theorem rarestNeeded_eq_some_iff :
    t.rarestNeeded peerHas skip = some i ↔ t.Rarest peerHas skip i := by
  rw [rarestNeeded_eq_argmin hn,
    argmin_eq_some_iff_lex (List.pairwise_lt_range.sublist List.filter_sublist)]
  simp only [List.mem_filter, List.mem_range, decide_eq_true_eq]
  constructor
  · rintro ⟨⟨hi, he⟩, hleast⟩
    exact ⟨hi, he, fun j hj hj' => hleast j ⟨hj, hj'⟩⟩
  · intro h
    exact ⟨⟨h.lt, h.eligible⟩, fun j hj => h.least j hj.1 hj.2⟩

end Exact

/-- `t'` is `t` with piece `i` claimed, and nothing else changed. -/
structure ClaimsOnly (t t' : PieceTracker) (i : Nat) : Prop where
  pieceHashes : t'.pieceHashes = t.pieceHashes
  have_ : t'.have_ = t.have_
  availability : t'.availability = t.availability
  isClaimed : ∀ j, t'.isClaimed j = if j = i then true else t.isClaimed j

theorem claimsOnly_claim {t : PieceTracker} {i : Nat} (hi : i < t.numPieces) :
    t.ClaimsOnly (t.claim i) i := by
  refine ⟨rfl, rfl, rfl, fun j => ?_⟩
  rw [isClaimed_claim]
  simp only [hi, and_true]

/-- A reservation takes the rarest eligible piece, claims it and changes nothing else;
without an eligible piece it changes nothing at all. -/
theorem reservePiece_spec {t : PieceTracker} (hn : t.numPieces ≤ 2 ^ 32) (peerHas : Bitfield) :
    ((∀ i < t.numPieces, ¬t.Eligible peerHas true i) ∧ t.reservePiece peerHas = (none, t)) ∨
      ∃ i, t.Rarest peerHas true i ∧ t.reservePiece peerHas = (some i, t.claim i) := by
  unfold reservePiece
  cases hr : t.rarestNeeded peerHas true with
  | none => exact .inl ⟨rarestNeeded_eq_none_iff.mp hr, rfl⟩
  | some i => exact .inr ⟨i, (rarestNeeded_eq_some_iff hn).mp hr, rfl⟩

/-- Rarest-first selection is exact, whatever the state and the peer's bitfield. -/
theorem reserve_rarest {t : PieceTracker} (hn : t.numPieces < 2 ^ 32) (peerHas : Bitfield) :
    ((t.reservePiece peerHas).1 = none ↔
        ∀ i < t.numPieces, ¬(t.has i = false ∧ peerHas.has i = true ∧ t.isClaimed i = false)) ∧
      (∀ i, (t.reservePiece peerHas).1 = some i ↔ t.Rarest peerHas true i) ∧
      ((t.reservePiece peerHas).1 = none → (t.reservePiece peerHas).2 = t) ∧
      (∀ i, (t.reservePiece peerHas).1 = some i → t.ClaimsOnly (t.reservePiece peerHas).2 i) ∧
      (t.reservePieceEndgame peerHas = none ↔
        ∀ i < t.numPieces, ¬(t.has i = false ∧ peerHas.has i = true)) ∧
      ∀ i, t.reservePieceEndgame peerHas = some i ↔ t.Rarest peerHas false i := by
  have hle := Nat.le_of_lt hn
  have hfirst : (t.reservePiece peerHas).1 = t.rarestNeeded peerHas true := by
    unfold reservePiece
    split <;> rename_i hr <;> exact hr.symm
  refine ⟨?_, fun i => ?_, fun hnone => ?_, fun i hsome => ?_, ?_, fun i => ?_⟩
  · rw [hfirst, rarestNeeded_eq_none_iff]
    simp only [Eligible, true_implies]
  · rw [hfirst, rarestNeeded_eq_some_iff hle]
  · rcases reservePiece_spec hle peerHas with ⟨-, h⟩ | ⟨i, -, h⟩
    · rw [h]
    · rw [h] at hnone
      cases hnone
  · rcases reservePiece_spec hle peerHas with ⟨-, h⟩ | ⟨j, hj, h⟩
    · rw [h] at hsome
      cases hsome
    · rw [h] at hsome ⊢
      obtain rfl := Option.some.inj hsome
      exact claimsOnly_claim hj.lt
  · rw [reservePieceEndgame, rarestNeeded_eq_none_iff]
    simp only [Eligible, Bool.false_eq_true, false_implies, and_true]
  · rw [reservePieceEndgame, rarestNeeded_eq_some_iff hle]

/-- Three pieces, the first advertised by one peer and the second claimed. -/
def threePieces : PieceTracker :=
  ((ofHashes [[1], [2], [3]]).addAvailability 0).claim 1

/-- A peer that has the first two pieces is given the first, which is not the rarest, as the
second is claimed; the endgame gives it the second. -/
theorem reserve_rarest_threePieces :
    ((threePieces.reservePiece (((Bitfield.new 2).set 0).set 1)).1 = some 0 ∧
      threePieces.Rarest (((Bitfield.new 2).set 0).set 1) true 0) ∧
    (threePieces.reservePieceEndgame (((Bitfield.new 2).set 0).set 1) = some 1 ∧
      threePieces.Rarest (((Bitfield.new 2).set 0).set 1) false 1) := by
  obtain ⟨-, hreserve, -, -, -, hendgame⟩ :=
    reserve_rarest (t := threePieces) (by decide) (((Bitfield.new 2).set 0).set 1)
  have h0 : (threePieces.reservePiece (((Bitfield.new 2).set 0).set 1)).1 = some 0 := by decide
  have h1 : threePieces.reservePieceEndgame (((Bitfield.new 2).set 0).set 1) = some 1 := by decide
  exact ⟨⟨h0, (hreserve 0).mp h0⟩, h1, (hendgame 1).mp h1⟩

end PieceTracker

end Torrentina.Download
