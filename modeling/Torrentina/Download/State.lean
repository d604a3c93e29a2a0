import Torrentina.Download.Bitfield
import Torrentina.Metainfo.Types
import Mathlib.Algebra.Group.Nat.Defs

/-!
# The shared piece-level state

`PieceTracker` is what the peer tasks share behind a mutex: the verified pieces,
how many peers advertise each piece, and which pieces are claimed. Its vectors
have one entry for each piece by construction. Each operation comes with one
lemma for every component it touches, so later proofs read the components
through `has`, `isClaimed` and `avail` only.
-/

namespace Torrentina.Download

/-- The shared piece-level state. -/
structure PieceTracker where
  pieceHashes : List (List UInt8)
  have_ : Bitfield
  availability : List Nat
  claimed : List Bool
  numPieces_have : have_.numPieces = pieceHashes.length
  length_availability : availability.length = pieceHashes.length
  length_claimed : claimed.length = pieceHashes.length

namespace PieceTracker

/-- The tracker of a torrent with the given piece hashes, before any download. -/
def ofHashes (pieceHashes : List (List UInt8)) : PieceTracker where
  pieceHashes
  have_ := Bitfield.new pieceHashes.length
  availability := List.replicate pieceHashes.length 0
  claimed := List.replicate pieceHashes.length false
  numPieces_have := rfl
  length_availability := List.length_replicate
  length_claimed := List.length_replicate

/-- Build a tracker from a parsed `Info`. -/
def fromInfo (info : Info) : Except Error PieceTracker := do
  let pieceHashes ← info.pieceHashes
  return ofHashes pieceHashes

/-- Total number of pieces. -/
def numPieces (t : PieceTracker) : Nat := t.pieceHashes.length

/-- Whether all pieces have been downloaded and verified. -/
def isComplete (t : PieceTracker) : Bool := t.have_.isComplete

/-- Whether piece `index` has been downloaded and verified. -/
def has (t : PieceTracker) (index : Nat) : Bool := t.have_.has index

/-- Whether piece `index` is being downloaded by some peer. -/
def isClaimed (t : PieceTracker) (index : Nat) : Bool := t.claimed.getD index false

/-- How many peers are counted as advertising piece `index`. -/
def avail (t : PieceTracker) (index : Nat) : Nat := t.availability.getD index 0

/-- Record that a peer advertised a single piece. The counter is a `u32`. -/
def addAvailability (t : PieceTracker) (index : Nat) : PieceTracker :=
  { t with
    availability := t.availability.modify index fun a => (a + 1) % 2 ^ 32
    length_availability := by rw [List.length_modify, t.length_availability] }

/-- Record an entire peer bitfield's worth of availability at once. -/
def addBitfieldAvailability (t : PieceTracker) (bf : Bitfield) : PieceTracker :=
  { t with
    availability := t.availability.mapIdx fun i a => if bf.has i then (a + 1) % 2 ^ 32 else a
    length_availability := by rw [List.length_mapIdx, t.length_availability] }

/-- Undo a peer's availability contribution, with `saturating_sub`. -/
def removeBitfieldAvailability (t : PieceTracker) (bf : Bitfield) : PieceTracker :=
  { t with
    availability := t.availability.mapIdx fun i a => if bf.has i then a - 1 else a
    length_availability := by rw [List.length_mapIdx, t.length_availability] }

/-- One iteration of the scan for the rarest needed piece. -/
def rarestStep (t : PieceTracker) (peerHas : Bitfield) (skipClaimed : Bool)
    (best : Option (Nat × Nat)) (i : Nat) : Option (Nat × Nat) :=
  if t.has i || !peerHas.has i || (skipClaimed && t.isClaimed i) then best
  else
    match best with
    -- the index is kept as `i as u32`
    | none => some (t.avail i, i % 2 ^ 32)
    | some (b, j) => if t.avail i < b then some (t.avail i, i % 2 ^ 32) else some (b, j)

/-- The rarest piece that is still needed and that the peer has. -/
def rarestNeeded (t : PieceTracker) (peerHas : Bitfield) (skipClaimed : Bool) : Option Nat :=
  ((List.range t.numPieces).foldl (t.rarestStep peerHas skipClaimed) none).map Prod.snd

/-- Mark a piece claimed. -/
def claim (t : PieceTracker) (index : Nat) : PieceTracker :=
  { t with
    claimed := t.claimed.set index true
    length_claimed := by rw [List.length_set, t.length_claimed] }

/-- Pick a piece for a peer to download, claiming it exclusively. -/
def reservePiece (t : PieceTracker) (peerHas : Bitfield) : Option Nat × PieceTracker :=
  match t.rarestNeeded peerHas true with
  | none => (none, t)
  | some index => (some index, t.claim index)

/-- Pick a still-needed piece the peer has even if another peer claimed it. -/
def reservePieceEndgame (t : PieceTracker) (peerHas : Bitfield) : Option Nat :=
  t.rarestNeeded peerHas false

/-- Release a previously reserved piece. -/
def releasePiece (t : PieceTracker) (index : Nat) : PieceTracker :=
  { t with
    claimed := t.claimed.set index false
    length_claimed := by rw [List.length_set, t.length_claimed] }

/-- Verify assembled piece bytes against the expected hash. -/
def verify (sha1 : List UInt8 → List UInt8) (t : PieceTracker) (index : Nat)
    (data : List UInt8) : Bool :=
  match t.pieceHashes[index]? with
  | some expected => sha1 data == expected
  | none => false

/-- Mark a verified piece as owned and no longer claimed. -/
def markHave (t : PieceTracker) (index : Nat) : PieceTracker :=
  { t with
    have_ := t.have_.set index
    numPieces_have := by rw [Bitfield.numPieces_set, t.numPieces_have] }.releasePiece index

/-! ## The components after each operation -/

section Components

variable (t : PieceTracker) (bf : Bitfield) (index i : Nat)

@[simp] theorem pieceHashes_addAvailability :
    (t.addAvailability index).pieceHashes = t.pieceHashes := rfl

@[simp] theorem pieceHashes_addBitfieldAvailability :
    (t.addBitfieldAvailability bf).pieceHashes = t.pieceHashes := rfl

@[simp] theorem pieceHashes_removeBitfieldAvailability :
    (t.removeBitfieldAvailability bf).pieceHashes = t.pieceHashes := rfl

@[simp] theorem pieceHashes_claim : (t.claim index).pieceHashes = t.pieceHashes := rfl

@[simp] theorem pieceHashes_releasePiece :
    (t.releasePiece index).pieceHashes = t.pieceHashes := rfl

@[simp] theorem pieceHashes_markHave : (t.markHave index).pieceHashes = t.pieceHashes := rfl

@[simp] theorem has_addAvailability : (t.addAvailability index).has i = t.has i := rfl

@[simp] theorem has_addBitfieldAvailability :
    (t.addBitfieldAvailability bf).has i = t.has i := rfl

@[simp] theorem has_removeBitfieldAvailability :
    (t.removeBitfieldAvailability bf).has i = t.has i := rfl

@[simp] theorem has_claim : (t.claim index).has i = t.has i := rfl

@[simp] theorem has_releasePiece : (t.releasePiece index).has i = t.has i := rfl

@[simp] theorem has_markHave :
    (t.markHave index).has i = (t.has i || decide (i = index ∧ index < t.numPieces)) := by
  rw [numPieces, ← t.numPieces_have]
  exact Bitfield.has_set t.have_ index i

@[simp] theorem isComplete_addAvailability :
    (t.addAvailability index).isComplete = t.isComplete := rfl

@[simp] theorem isComplete_addBitfieldAvailability :
    (t.addBitfieldAvailability bf).isComplete = t.isComplete := rfl

@[simp] theorem isComplete_removeBitfieldAvailability :
    (t.removeBitfieldAvailability bf).isComplete = t.isComplete := rfl

@[simp] theorem isComplete_claim : (t.claim index).isComplete = t.isComplete := rfl

@[simp] theorem isComplete_releasePiece :
    (t.releasePiece index).isComplete = t.isComplete := rfl

@[simp] theorem isClaimed_addAvailability :
    (t.addAvailability index).isClaimed i = t.isClaimed i := rfl

@[simp] theorem isClaimed_addBitfieldAvailability :
    (t.addBitfieldAvailability bf).isClaimed i = t.isClaimed i := rfl

@[simp] theorem isClaimed_removeBitfieldAvailability :
    (t.removeBitfieldAvailability bf).isClaimed i = t.isClaimed i := rfl

/-- Reading a flag after one was set. -/
theorem getD_set_bool (l : List Bool) (b : Bool) :
    (l.set index b).getD i false =
      if i = index ∧ index < l.length then b else l.getD i false := by
  rw [List.getD_eq_getElem?_getD, List.getD_eq_getElem?_getD, List.getElem?_set]
  by_cases he : index = i
  · subst he
    by_cases hlt : index < l.length
    · simp [hlt]
    · simp [hlt]
  · have hne : ¬i = index := fun h => he h.symm
    simp [he, hne]

@[simp] theorem isClaimed_claim : (t.claim index).isClaimed i =
    if i = index ∧ index < t.numPieces then true else t.isClaimed i := by
  rw [numPieces, ← t.length_claimed]
  exact getD_set_bool index i t.claimed true

@[simp] theorem isClaimed_releasePiece : (t.releasePiece index).isClaimed i =
    if i = index then false else t.isClaimed i := by
  have h := getD_set_bool index i t.claimed false
  rw [isClaimed, releasePiece, h]
  by_cases he : i = index
  · subst he
    by_cases hlt : i < t.claimed.length
    · simp [hlt]
    · simp [hlt]
  · simp [he, isClaimed]

@[simp] theorem isClaimed_markHave : (t.markHave index).isClaimed i =
    if i = index then false else t.isClaimed i := by
  rw [markHave, isClaimed_releasePiece]
  rfl

@[simp] theorem avail_claim : (t.claim index).avail i = t.avail i := rfl

@[simp] theorem avail_releasePiece : (t.releasePiece index).avail i = t.avail i := rfl

@[simp] theorem avail_markHave : (t.markHave index).avail i = t.avail i := rfl

/-- A `Have` adds one to the piece it names, modulo 2^32. -/
theorem avail_addAvailability : (t.addAvailability index).avail i =
    if i = index ∧ index < t.numPieces then (t.avail i + 1) % 2 ^ 32 else t.avail i := by
  rw [numPieces, ← t.length_availability]
  simp only [avail, addAvailability, List.getD_eq_getElem?_getD, List.getElem?_modify]
  by_cases he : index = i
  · subst he
    by_cases hlt : index < t.availability.length
    · simp [hlt]
    · simp [hlt]
  · have hne : ¬i = index := fun h => he h.symm
    simp [he, hne]

/-- Reading a number after all were changed. -/
theorem getD_mapIdx {f : Nat → Nat → Nat} (l : List Nat) :
    (l.mapIdx f).getD i 0 = if i < l.length then f i (l.getD i 0) else 0 := by
  rw [List.getD_eq_getElem?_getD, List.getD_eq_getElem?_getD, List.getElem?_mapIdx]
  by_cases hlt : i < l.length
  · simp [hlt]
  · simp [hlt]

/-- There is no availability outside the torrent. -/
theorem avail_of_le (h : t.numPieces ≤ i) : t.avail i = 0 := by
  have hle : t.availability.length ≤ i := t.length_availability ▸ h
  rw [avail, List.getD_eq_getElem?_getD, List.getElem?_eq_none hle, Option.getD_none]

/-- A bitfield adds one to each piece it has, modulo 2^32. -/
theorem avail_addBitfieldAvailability : (t.addBitfieldAvailability bf).avail i =
    if i < t.numPieces ∧ bf.has i then (t.avail i + 1) % 2 ^ 32 else t.avail i := by
  have h := getD_mapIdx i (f := fun i a => if bf.has i then (a + 1) % 2 ^ 32 else a) t.availability
  rw [show t.availability.length = t.numPieces from t.length_availability] at h
  rw [avail, addBitfieldAvailability, h]
  by_cases hi : i < t.numPieces
  · rw [if_pos hi]
    by_cases hb : bf.has i = true
    · simp [hi, hb, avail]
    · simp [hb, avail]
  · rw [if_neg hi, if_neg (by simp [hi]), t.avail_of_le i (Nat.le_of_not_lt hi)]

/-- Taking a bitfield back subtracts one from each piece it has, down to zero. -/
theorem avail_removeBitfieldAvailability : (t.removeBitfieldAvailability bf).avail i =
    if bf.has i then t.avail i - 1 else t.avail i := by
  have h := getD_mapIdx i (f := fun i a => if bf.has i then a - 1 else a) t.availability
  rw [show t.availability.length = t.numPieces from t.length_availability] at h
  rw [avail, removeBitfieldAvailability, h]
  by_cases hi : i < t.numPieces
  · rw [if_pos hi]
    rfl
  · rw [if_neg hi, t.avail_of_le i (Nat.le_of_not_lt hi), ite_self]

/-- At the start no piece is available. -/
theorem avail_ofHashes (hashes : List (List UInt8)) : (ofHashes hashes).avail i = 0 := by
  rw [avail, ofHashes, List.getD_eq_getElem?_getD, List.getElem?_replicate]
  split <;> rfl

/-- At the start no piece is claimed. -/
theorem isClaimed_ofHashes (hashes : List (List UInt8)) :
    (ofHashes hashes).isClaimed i = false := by
  rw [isClaimed, ofHashes, List.getD_eq_getElem?_getD, List.getElem?_replicate]
  split <;> rfl

end Components

/-- Only pieces of the torrent are claimed. -/
theorem lt_of_isClaimed {t : PieceTracker} {i : Nat} (h : t.isClaimed i = true) :
    i < t.numPieces := by
  by_contra hlt
  have hle : t.claimed.length ≤ i := t.length_claimed ▸ Nat.le_of_not_lt hlt
  rw [isClaimed, List.getD_eq_getElem?_getD, List.getElem?_eq_none hle] at h
  cases h

/-- The torrent is complete when every piece is had. -/
theorem isComplete_iff (t : PieceTracker) :
    t.isComplete = true ↔ ∀ i < t.numPieces, t.has i = true := by
  rw [isComplete, Bitfield.isComplete_iff, t.numPieces_have]
  rfl

/-! ## The scan for the rarest piece -/

/-- What the scan does not skip. -/
def Eligible (t : PieceTracker) (peerHas : Bitfield) (skipClaimed : Bool) (i : Nat) : Prop :=
  t.has i = false ∧ peerHas.has i = true ∧ (skipClaimed = true → t.isClaimed i = false)

/-- The scan's skip condition is the negation of eligibility. -/
theorem skips_iff {t : PieceTracker} {peerHas : Bitfield} {skip : Bool} {i : Nat} :
    (t.has i || !peerHas.has i || (skip && t.isClaimed i)) = true ↔
      ¬t.Eligible peerHas skip i := by
  unfold Eligible
  cases t.has i <;> cases peerHas.has i <;> cases skip <;> cases t.isClaimed i <;> simp

/-- One iteration keeps what it had or takes the eligible piece it looks at. -/
theorem rarestStep_eq_some {t : PieceTracker} {peerHas : Bitfield} {skip : Bool} {i b j : Nat}
    {best : Option (Nat × Nat)} (h : t.rarestStep peerHas skip best i = some (b, j)) :
    best = some (b, j) ∨ t.Eligible peerHas skip i ∧ j = i % 2 ^ 32 := by
  unfold rarestStep at h
  split at h
  · exact .inl h
  rename_i hskip
  have he : t.Eligible peerHas skip i := not_not.mp (mt skips_iff.mpr hskip)
  cases best with
  | none =>
    obtain ⟨-, rfl⟩ := Prod.mk.inj (Option.some.inj h)
    exact .inr ⟨he, rfl⟩
  | some best =>
    simp only at h
    split at h
    · obtain ⟨-, rfl⟩ := Prod.mk.inj (Option.some.inj h)
      exact .inr ⟨he, rfl⟩
    · exact .inl h

/-- One iteration has something exactly when it had something or its piece is eligible. -/
theorem isSome_rarestStep {t : PieceTracker} {peerHas : Bitfield} {skip : Bool} {i : Nat}
    {best : Option (Nat × Nat)} :
    (t.rarestStep peerHas skip best i).isSome = true ↔
      best.isSome = true ∨ t.Eligible peerHas skip i := by
  unfold rarestStep
  split
  · rename_i hskip
    simp only [skips_iff.mp hskip, or_false]
  · rename_i hskip
    have he : t.Eligible peerHas skip i := not_not.mp (mt skips_iff.mpr hskip)
    simp only [he, or_true, iff_true]
    cases best with
    | none => rfl
    | some best =>
      simp only
      split <;> rfl

/-- The scan finds something exactly when it started with something or met an eligible piece. -/
theorem isSome_foldl_rarestStep {t : PieceTracker} {peerHas : Bitfield} {skip : Bool}
    (l : List Nat) (best : Option (Nat × Nat)) :
    (l.foldl (t.rarestStep peerHas skip) best).isSome = true ↔
      best.isSome = true ∨ ∃ i ∈ l, t.Eligible peerHas skip i := by
  induction l generalizing best with
  | nil => simp
  | cons i l ih => rw [List.foldl_cons, ih, isSome_rarestStep, or_assoc, List.exists_mem_cons_iff]

/-- What the scan finds it started with, or is an eligible piece it met. -/
theorem foldl_rarestStep_eq_some {t : PieceTracker} {peerHas : Bitfield} {skip : Bool}
    {l : List Nat} {best : Option (Nat × Nat)} {b j : Nat}
    (h : l.foldl (t.rarestStep peerHas skip) best = some (b, j)) :
    best = some (b, j) ∨ ∃ i ∈ l, t.Eligible peerHas skip i ∧ j = i % 2 ^ 32 := by
  induction l generalizing best with
  | nil => exact .inl h
  | cons i l ih =>
    rcases ih h with h | ⟨k, hk, he⟩
    · rcases rarestStep_eq_some h with h | he
      · exact .inl h
      · exact .inr ⟨i, List.mem_cons_self, he⟩
    · exact .inr ⟨k, List.mem_cons_of_mem i hk, he⟩

/-- Nothing is found exactly when nothing is eligible. -/
theorem rarestNeeded_eq_none_iff {t : PieceTracker} {peerHas : Bitfield} {skip : Bool} :
    t.rarestNeeded peerHas skip = none ↔ ∀ i < t.numPieces, ¬t.Eligible peerHas skip i := by
  rw [rarestNeeded, Option.map_eq_none_iff, ← Option.not_isSome_iff_eq_none,
    isSome_foldl_rarestStep]
  simp

/-- A found index is the `u32` of an eligible piece. -/
theorem rarestNeeded_eq_some {t : PieceTracker} {peerHas : Bitfield} {skip : Bool} {j : Nat}
    (h : t.rarestNeeded peerHas skip = some j) :
    ∃ i < t.numPieces, t.Eligible peerHas skip i ∧ j = i % 2 ^ 32 := by
  rw [rarestNeeded, Option.map_eq_some_iff] at h
  obtain ⟨⟨b, j'⟩, hf, rfl⟩ := h
  rcases foldl_rarestStep_eq_some hf with h | ⟨i, hi, he⟩
  · cases h
  · exact ⟨i, List.mem_range.mp hi, he⟩

/-- With a peer bitfield of at most `2^32` pieces the index is the piece itself. -/
theorem rarestNeeded_eligible {t : PieceTracker} {peerHas : Bitfield} {skip : Bool} {j : Nat}
    (hn : peerHas.numPieces ≤ 2 ^ 32) (h : t.rarestNeeded peerHas skip = some j) :
    j < t.numPieces ∧ t.Eligible peerHas skip j := by
  obtain ⟨i, hi, he, rfl⟩ := rarestNeeded_eq_some h
  have hlt := Bitfield.lt_of_has he.2.1
  rw [Nat.mod_eq_of_lt (by omega)]
  exact ⟨hi, he⟩

end PieceTracker

/-! ## The tracker of a torrent -/

/-- There is one hash for each piece. -/
theorem Info.length_pieceHashes {info : Info} {hashes : List (List UInt8)}
    (h : info.pieceHashes = .ok hashes) : hashes.length = info.numPieces := by
  unfold Info.pieceHashes at h
  split at h
  · cases h
  · obtain rfl := Except.ok.inj h
    rw [List.length_map, List.length_range]

/-- A tracker starts out with nothing had, counted or claimed. -/
theorem PieceTracker.fromInfo_eq_ok {info : Info} {t : PieceTracker}
    (h : PieceTracker.fromInfo info = .ok t) :
    t = PieceTracker.ofHashes t.pieceHashes ∧ t.numPieces = info.numPieces := by
  obtain ⟨hashes, hh, h⟩ := bind_eq_ok_iff.mp h
  obtain rfl := Except.ok.inj h
  exact ⟨rfl, Info.length_pieceHashes hh⟩

@[simp] theorem PieceTracker.has_ofHashes (hashes : List (List UInt8)) (i : Nat) :
    (PieceTracker.ofHashes hashes).has i = false :=
  Bitfield.has_new _ i

end Torrentina.Download
