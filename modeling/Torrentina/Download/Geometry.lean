import Torrentina.Metainfo.Types
import Torrentina.Peer.Message
import Mathlib.Tactic.Ring

/-!
# Piece and block geometry

Index arithmetic over pieces and blocks. The piece count is the metainfo's,
truncated to `u32` as the source truncates it; every other quantity is checked
when the geometry is built, and what those checks establish is `WellFormed`.
-/

namespace Torrentina.Download

/-- Standard block size for requests: 16 KiB. -/
def blockSize : Nat := 16 * 1024

/-- Of what is divided into blocks, the blocks are those that begin inside it. -/
theorem lt_blocks_iff {b length : Nat} :
    b < (length + blockSize - 1) / blockSize ↔ b * blockSize < length := by
  rw [blockSize]
  omega

/-- Immutable size arithmetic for a torrent. -/
structure Geometry where
  totalLength : Nat
  pieceLength : Nat
  numPieces : Nat
  lastPieceLength : Nat
  deriving DecidableEq, Repr

namespace Geometry

/-- Derive the geometry of a parsed `Info`. -/
def fromInfo (info : Info) : Except Error Geometry := do
  let totalLength := (← info.totalLength).toNat
  let pieceLength := info.pieceLength.toNat
  if pieceLength ≥ 2 ^ 32 then
    .error (.peerProtocol "piece length exceeds u32")
  else if pieceLength = 0 then
    .error (.peerProtocol "piece length is zero")
  else
    -- `info.num_pieces() as u32`
    let numPieces := info.numPieces % 2 ^ 32
    if numPieces = 0 then
      .error (.peerProtocol "torrent has zero pieces")
    else
      let full := (numPieces - 1) * pieceLength
      if totalLength < full then
        .error (.peerProtocol "piece count exceeds total length")
      else
        let last := totalLength - full
        if last = 0 ∨ last > pieceLength then
          .error (.peerProtocol "inconsistent total length, piece length, and piece count")
        else
          .ok { totalLength, pieceLength, numPieces, lastPieceLength := last }

/-- The global byte offset where piece `index` begins. -/
def pieceOffset (g : Geometry) (index : Nat) : Nat := index * g.pieceLength

/-- Length in bytes of the piece at `index`. -/
def pieceLengthOf (g : Geometry) (index : Nat) : Nat :=
  if index + 1 = g.numPieces then g.lastPieceLength else g.pieceLength

/-- Number of blocks the piece at `index` is divided into. -/
def numBlocks (g : Geometry) (index : Nat) : Nat :=
  (g.pieceLengthOf index + blockSize - 1) / blockSize

theorem lt_numBlocks_iff {g : Geometry} {index b : Nat} :
    b < g.numBlocks index ↔ b * blockSize < g.pieceLengthOf index := lt_blocks_iff

/-- The block `blockIdx` of piece `index`. -/
def blockInfo (g : Geometry) (index blockIdx : Nat) : Peer.BlockInfo :=
  let begin := blockIdx * blockSize
  { index := UInt32.ofNat index
    begin := UInt32.ofNat begin
    length := UInt32.ofNat (min blockSize (g.pieceLengthOf index - begin)) }

/-- What `fromInfo` has checked: every piece is non-empty, the last one is no
longer than the others, and together they make up the total. -/
structure WellFormed (g : Geometry) : Prop where
  pieceLength_pos : 0 < g.pieceLength
  pieceLength_lt : g.pieceLength < 2 ^ 32
  numPieces_pos : 0 < g.numPieces
  numPieces_lt : g.numPieces < 2 ^ 32
  last_pos : 0 < g.lastPieceLength
  last_le : g.lastPieceLength ≤ g.pieceLength
  total_eq : g.totalLength = (g.numPieces - 1) * g.pieceLength + g.lastPieceLength

/-- A successful `fromInfo` read its fields off the metainfo and passed every check. -/
theorem fromInfo_eq_ok {info : Info} {g : Geometry} (h : fromInfo info = .ok g) :
    (∃ total, info.totalLength = .ok total ∧ g.totalLength = total.toNat) ∧
      g.pieceLength = info.pieceLength.toNat ∧ g.numPieces = info.numPieces % 2 ^ 32 ∧
      g.WellFormed := by
  obtain ⟨total, ht, h⟩ := bind_eq_ok_iff.mp h
  simp only at h
  split at h
  · cases h
  rename_i hlt
  split at h
  · cases h
  rename_i hpos
  split at h
  · cases h
  rename_i hnum
  split at h
  · cases h
  rename_i hfull
  split at h
  · cases h
  rename_i hlast
  obtain rfl := (Except.ok.inj h).symm
  refine ⟨⟨total, ht, rfl⟩, rfl, rfl, ?_⟩
  constructor <;> simp only <;> omega

theorem fromInfo_wellFormed {info : Info} {g : Geometry} (h : fromInfo info = .ok g) :
    g.WellFormed := (fromInfo_eq_ok h).2.2.2

namespace WellFormed

variable {g : Geometry} (hg : g.WellFormed)
include hg

theorem pieceLengthOf_pos (i : Nat) : 0 < g.pieceLengthOf i := by
  have h1 := hg.last_pos
  have h2 := hg.pieceLength_pos
  rw [pieceLengthOf]
  split <;> assumption

theorem pieceLengthOf_le (i : Nat) : g.pieceLengthOf i ≤ g.pieceLength := by
  have h := hg.last_le
  rw [pieceLengthOf]
  split
  · exact h
  · exact Nat.le_refl _

/-- Each piece ends where the next one begins, or at the end of the content. -/
theorem pieceOffset_add (i : Nat) :
    g.pieceOffset i + g.pieceLengthOf i =
      if i + 1 = g.numPieces then g.totalLength else g.pieceOffset (i + 1) := by
  have ht := hg.total_eq
  rw [pieceLengthOf, pieceOffset, pieceOffset]
  split
  · rename_i he
    rw [ht, ← he, Nat.add_sub_cancel]
  · rw [Nat.add_mul, Nat.one_mul]

/-- Every piece lies inside the content. -/
theorem pieceOffset_add_le {i : Nat} (hi : i < g.numPieces) :
    g.pieceOffset i + g.pieceLengthOf i ≤ g.totalLength := by
  rw [hg.pieceOffset_add i]
  split
  · exact Nat.le_refl _
  · have ht := hg.total_eq
    have hm : (i + 1) * g.pieceLength ≤ (g.numPieces - 1) * g.pieceLength :=
      Nat.mul_le_mul_right _ (by omega)
    rw [pieceOffset]
    omega

/-- An earlier piece ends before a later one begins. -/
theorem pieceOffset_add_le_of_lt {i j : Nat} (hij : i < j) (hj : j < g.numPieces) :
    g.pieceOffset i + g.pieceLengthOf i ≤ g.pieceOffset j := by
  rw [hg.pieceOffset_add i, if_neg (by omega)]
  exact Nat.mul_le_mul_right _ hij

/-- Every position of the content belongs to a piece. -/
theorem exists_piece {p : Nat} (hp : p < g.totalLength) :
    ∃ i, i < g.numPieces ∧ g.pieceOffset i ≤ p ∧ p < g.pieceOffset i + g.pieceLengthOf i := by
  have hpos := hg.pieceLength_pos
  have ht := hg.total_eq
  have hlast := hg.last_le
  have hn := hg.numPieces_pos
  have hd := Nat.div_add_mod p g.pieceLength
  have hm := Nat.mod_lt p hpos
  rw [Nat.mul_comm] at hd
  have hlt : p / g.pieceLength < g.numPieces := by
    apply Nat.div_lt_of_lt_mul
    have : g.numPieces * g.pieceLength = (g.numPieces - 1) * g.pieceLength + g.pieceLength := by
      rw [← Nat.succ_mul]
      congr 1
      omega
    rw [Nat.mul_comm]
    omega
  refine ⟨p / g.pieceLength, hlt, by rw [pieceOffset]; omega, ?_⟩
  rw [hg.pieceOffset_add]
  split
  · exact hp
  · rw [pieceOffset, Nat.add_mul, Nat.one_mul]
    omega

/-- The fields of a block are not truncated, and the block lies inside its piece. -/
theorem blockInfo_spec {i b : Nat} (hi : i < g.numPieces) (hb : b < g.numBlocks i) :
    (g.blockInfo i b).index.toNat = i ∧ (g.blockInfo i b).begin.toNat = b * blockSize ∧
      1 ≤ (g.blockInfo i b).length.toNat ∧ (g.blockInfo i b).length.toNat ≤ blockSize ∧
      b * blockSize + (g.blockInfo i b).length.toNat ≤ g.pieceLengthOf i := by
  have hnum := hg.numPieces_lt
  have hlen := Nat.lt_of_le_of_lt (hg.pieceLengthOf_le i) hg.pieceLength_lt
  have hbegin := lt_numBlocks_iff.mp hb
  simp only [blockInfo, blockSize] at hbegin ⊢
  have hsize : UInt32.size = 2 ^ 32 := rfl
  refine ⟨UInt32.toNat_ofNat_of_lt' (by omega), UInt32.toNat_ofNat_of_lt' (by omega), ?_⟩
  rw [UInt32.toNat_ofNat_of_lt' (by omega)]
  omega

/-- The product of `piece_offset` is of two `u32` and fits `u64`. -/
theorem pieceOffset_lt {i : Nat} (hi : i < g.numPieces) : g.pieceOffset i < 2 ^ 64 := by
  have h1 := hg.numPieces_lt
  have h2 := hg.pieceLength_lt
  calc g.pieceOffset i = i * g.pieceLength := rfl
    _ < 2 ^ 32 * 2 ^ 32 := Nat.mul_lt_mul'' (by omega) h2
    _ = 2 ^ 64 := by norm_num

end WellFormed

end Geometry

end Torrentina.Download
