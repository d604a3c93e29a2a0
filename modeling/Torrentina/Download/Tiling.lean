import Torrentina.Core.Tiling
import Torrentina.Download.Geometry
import Mathlib.Algebra.Order.Floor.Div

/-!
# The geometry tiles the content

`from_info` checks its three numbers by a subtraction. What it accepts is a
piece count that is the total length divided by the piece length, rounded up.
The pieces then tile the content and the blocks of a piece tile the piece, and
none of the machine arithmetic on the way leaves its type.
-/

namespace Torrentina

open Torrentina.Core

/-- Total content length of a layout. -/
def FileLayout.bytes : FileLayout → Nat
  | .single length => length.toNat
  | .multi files => (files.map fun f => f.length.toNat).sum

/-- The sum of the lengths is exact when it fits. -/
theorem toNat_foldl_length {files : List FileEntry} (acc : UInt64)
    (h : acc.toNat + (files.map fun f => f.length.toNat).sum < 2 ^ 64) :
    (files.foldl (fun acc f => acc + f.length) acc).toNat =
      acc.toNat + (files.map fun f => f.length.toNat).sum := by
  induction files generalizing acc with
  | nil => simp
  | cons f files ih =>
    rw [List.map_cons, List.sum_cons] at h ⊢
    have hacc : (acc + f.length).toNat = acc.toNat + f.length.toNat := by
      rw [UInt64.toNat_add, Nat.mod_eq_of_lt (by omega)]
    rw [List.foldl_cons, ih _ (by rw [hacc]; omega), hacc, Nat.add_assoc]

/-- The `u64` sum is exact where it fits. -/
theorem Info.totalLength_eq_ok_iff {info : Info}
    (hsum : ∀ layout, info.layout = .ok layout → layout.bytes < 2 ^ 64) {total : UInt64} :
    info.totalLength = .ok total ↔
      ∃ layout, info.layout = .ok layout ∧ layout.bytes = total.toNat := by
  unfold totalLength
  cases hl : info.layout with
  | error e => simp [bind, Except.bind]
  | ok layout =>
    have hfit := hsum layout hl
    cases layout with
    | single length => simp [bind, Except.bind, FileLayout.bytes, UInt64.toNat_inj]
    | multi files =>
      have hfold := toNat_foldl_length 0 (by simpa [FileLayout.bytes] using hfit)
      rw [UInt64.toNat_zero, Nat.zero_add] at hfold
      simp [bind, Except.bind, FileLayout.bytes, ← hfold, UInt64.toNat_inj]

namespace Download

/-- A count of pieces leaves a last piece that is neither empty nor too long
exactly when it is the quotient rounded up. -/
theorem lastPiece_iff {total length n : Nat} (hlen : 1 ≤ length) (hn : 1 ≤ n) :
    (n - 1) * length ≤ total ∧ total - (n - 1) * length ≠ 0 ∧
        total - (n - 1) * length ≤ length ↔ n = total ⌈/⌉ length := by
  have hsplit : n * length = (n - 1) * length + length := by
    rw [← Nat.succ_mul]
    congr 1
    omega
  have hle : total ⌈/⌉ length ≤ n ↔ total ≤ n * length := by
    rw [ceilDiv_le_iff_le_mul hlen, Nat.mul_comm]
  have hlt : n ≤ total ⌈/⌉ length ↔ (n - 1) * length < total := by
    rw [← not_iff_not, Nat.not_le, Nat.not_lt, ← Nat.le_pred_iff_lt hn,
      ceilDiv_le_iff_le_mul hlen, Nat.mul_comm]
    rfl
  constructor
  · rintro ⟨h1, h2, h3⟩
    exact Nat.le_antisymm (hlt.mpr (by omega)) (hle.mpr (by omega))
  · intro h
    have h1 := hlt.mp h.le
    have h2 := hle.mp h.ge
    omega

namespace Geometry

/-! ## Machine arithmetic -/

/-- A result that fits its unsigned type. -/
def fits (width n : Nat) : Option Nat := if n < 2 ^ width then some n else none

/-- `piece_offset`, as its `u64` product is computed. -/
def pieceOffsetChecked (g : Geometry) (index : Nat) : Option Nat := fits 64 (index * g.pieceLength)

/-- `piece_length`, with the `u32` sum it compares. -/
def pieceLengthChecked (g : Geometry) (index : Nat) : Option Nat := do
  let next ← fits 32 (index + 1)
  return if next = g.numPieces then g.lastPieceLength else g.pieceLength

/-- `num_blocks`: `div_ceil` adds one to the quotient where there is a remainder. -/
def numBlocksChecked (g : Geometry) (index : Nat) : Option Nat := do
  let length ← g.pieceLengthChecked index
  if length % blockSize > 0 then fits 32 (length / blockSize + 1)
  else return length / blockSize

/-- `block_info`: begin and length of a block, by a `u32` product and a `u32` difference. -/
def blockInfoChecked (g : Geometry) (index blockIdx : Nat) : Option (Nat × Nat) := do
  let pieceLen ← g.pieceLengthChecked index
  let begin ← fits 32 (blockIdx * blockSize)
  if begin ≤ pieceLen then return (begin, min blockSize (pieceLen - begin)) else none

/-- A number that fits is kept. -/
theorem fits_eq_some {width n : Nat} (h : n < 2 ^ width) : fits width n = some n := if_pos h

/-- No operation leaves its type on the indices of a torrent, and the results are those
of the unbounded arithmetic. -/
structure Exact (g : Geometry) : Prop where
  pieceOffset : ∀ i < g.numPieces, g.pieceOffsetChecked i = some (g.pieceOffset i)
  pieceLength : ∀ i < g.numPieces, g.pieceLengthChecked i = some (g.pieceLengthOf i)
  numBlocks : ∀ i < g.numPieces, g.numBlocksChecked i = some (g.numBlocks i)
  blockInfo : ∀ i < g.numPieces, ∀ b < g.numBlocks i, g.blockInfoChecked i b =
    some ((g.blockInfo i b).begin.toNat, (g.blockInfo i b).length.toNat)

namespace WellFormed

variable {g : Geometry} (hg : g.WellFormed)
include hg

/-- Every piece length fits 32 bits. -/
theorem pieceLengthOf_lt (i : Nat) : g.pieceLengthOf i < 2 ^ 32 :=
  Nat.lt_of_le_of_lt (hg.pieceLengthOf_le i) hg.pieceLength_lt

/-- The block at `b`, in unbounded arithmetic. -/
theorem blockInfo_toNat {i b : Nat} (hi : i < g.numPieces) (hb : b < g.numBlocks i) :
    (g.blockInfo i b).begin.toNat = b * blockSize ∧
      (g.blockInfo i b).length.toNat = min blockSize (g.pieceLengthOf i - b * blockSize) := by
  have hlen := hg.pieceLengthOf_lt i
  have hsize : UInt32.size = 2 ^ 32 := rfl
  refine ⟨(hg.blockInfo_spec hi hb).2.1, ?_⟩
  simp only [Geometry.blockInfo, blockSize]
  exact UInt32.toNat_ofNat_of_lt' (by omega)

/-- No cast of a well-formed geometry loses anything. -/
theorem exact : g.Exact := by
  have hnum := hg.numPieces_lt
  have hlength : ∀ i < g.numPieces, g.pieceLengthChecked i = some (g.pieceLengthOf i) := by
    intro i hi
    rw [pieceLengthChecked, fits_eq_some (by omega)]
    rfl
  refine ⟨fun i hi => fits_eq_some (hg.pieceOffset_lt hi), hlength, fun i hi => ?_, ?_⟩
  · have hlt := hg.pieceLengthOf_lt i
    rw [numBlocksChecked, hlength i hi, Option.bind_eq_bind, Option.bind_some, Geometry.numBlocks]
    by_cases hrest : g.pieceLengthOf i % blockSize > 0
    · have hnext : g.pieceLengthOf i / blockSize + 1 < 2 ^ 32 := by
        simp only [blockSize] at hrest ⊢
        omega
      rw [if_pos hrest, fits_eq_some hnext, Option.some.injEq]
      simp only [blockSize] at hrest ⊢
      omega
    · rw [if_neg hrest, Option.pure_def, Option.some.injEq]
      simp only [blockSize] at hrest ⊢
      omega
  · intro i hi b hb
    have hlt := hg.pieceLengthOf_lt i
    obtain ⟨hbegin, hlen⟩ := hg.blockInfo_toNat hi hb
    have hin := lt_numBlocks_iff.mp hb
    rw [blockInfoChecked, hlength i hi, hbegin, hlen]
    simp only [Option.bind_eq_bind, Option.bind_some, fits_eq_some (hin.trans hlt), if_pos hin.le,
      Option.pure_def]

/-! ## Tilings -/

/-- The pieces tile the content. -/
theorem tiles_pieces : Tiles g.pieceOffset g.pieceLengthOf g.numPieces g.totalLength where
  first := Nat.zero_mul _
  next i hi := by rw [hg.pieceOffset_add, if_neg (by omega)]
  last i hi := by rw [hg.pieceOffset_add, if_pos hi]
  pos i _ := hg.pieceLengthOf_pos i
  nonempty := hg.numPieces_pos

/-- The blocks of a piece tile it. -/
theorem tiles_blocks {i : Nat} (hi : i < g.numPieces) :
    Tiles (fun b => (g.blockInfo i b).begin.toNat) (fun b => (g.blockInfo i b).length.toNat)
      (g.numBlocks i) (g.pieceLengthOf i) := by
  have hpos := hg.pieceLengthOf_pos i
  have hcount : 0 < g.numBlocks i := by
    rwa [lt_numBlocks_iff, Nat.zero_mul]
  refine ⟨?_, fun b hb => ?_, fun b hb => ?_, fun b hb => ?_, hcount⟩
  · rw [(hg.blockInfo_toNat hi hcount).1, Nat.zero_mul]
  · obtain ⟨hbegin, hlen⟩ := hg.blockInfo_toNat hi (Nat.lt_of_succ_lt hb)
    have hnext := lt_numBlocks_iff.mp hb
    simp only [hbegin, hlen, (hg.blockInfo_toNat hi hb).1]
    rw [Nat.add_mul, Nat.one_mul] at hnext ⊢
    omega
  · obtain ⟨hbegin, hlen⟩ := hg.blockInfo_toNat hi (by omega : b < g.numBlocks i)
    have hin := lt_numBlocks_iff.mp (by omega : b < g.numBlocks i)
    have hlast := Nat.not_lt.mp (mt lt_numBlocks_iff.mpr (by omega : ¬b + 1 < g.numBlocks i))
    simp only [hbegin, hlen]
    rw [Nat.add_mul, Nat.one_mul] at hlast
    omega
  · exact (hg.blockInfo_spec hi hb).2.2.1

end WellFormed

/-- What is accepted, by the fields of the metainfo. -/
theorem fromInfo_isOk_iff {info : Info} (hpieces : info.numPieces < 2 ^ 32)
    (hsum : ∀ layout, info.layout = .ok layout → layout.bytes < 2 ^ 64) :
    (∃ g, fromInfo info = .ok g) ↔
      ∃ layout, info.layout = .ok layout ∧ 1 ≤ info.pieceLength.toNat ∧
        info.pieceLength.toNat < 2 ^ 32 ∧ 1 ≤ info.numPieces ∧
        info.numPieces = layout.bytes ⌈/⌉ info.pieceLength.toNat := by
  have htrunc : info.numPieces % 2 ^ 32 = info.numPieces := Nat.mod_eq_of_lt hpieces
  constructor
  · rintro ⟨g, hg⟩
    obtain ⟨⟨total, ht, hgt⟩, hgl, hgn, hwf⟩ := fromInfo_eq_ok hg
    obtain ⟨layout, hl, hbytes⟩ := (Info.totalLength_eq_ok_iff hsum).mp ht
    rw [htrunc] at hgn
    have hlen := hwf.pieceLength_pos
    have hn := hwf.numPieces_pos
    have htotal := hwf.total_eq
    have hlast := hwf.last_pos
    have hle := hwf.last_le
    refine ⟨layout, hl, hgl ▸ hlen, hgl ▸ hwf.pieceLength_lt, hgn ▸ hn, ?_⟩
    rw [hbytes, ← hgt, ← hgl, ← hgn]
    exact (lastPiece_iff hlen hn).mp ⟨by omega, by omega, by omega⟩
  · rintro ⟨layout, hl, hlen, hlt, hn, hceil⟩
    obtain ⟨h1, h2, h3⟩ := (lastPiece_iff hlen hn).mpr hceil
    have hfit := hsum layout hl
    have htotal : info.totalLength = .ok (UInt64.ofNat layout.bytes) := by
      rw [Info.totalLength_eq_ok_iff hsum]
      exact ⟨layout, hl, (UInt64.toNat_ofNat_of_lt' hfit).symm⟩
    refine ⟨⟨layout.bytes, info.pieceLength.toNat, info.numPieces,
      layout.bytes - (info.numPieces - 1) * info.pieceLength.toNat⟩,
      bind_eq_ok_iff.mpr ⟨_, htotal, ?_⟩⟩
    simp only [UInt64.toNat_ofNat_of_lt' hfit, htrunc]
    rw [if_neg (by omega), if_neg (by omega), if_neg (by omega), if_neg (by omega),
      if_neg (by omega)]

end Geometry

/-- `from_info` accepts a torrent exactly when its layout is valid and its pieces
are as many as its length takes, and what it accepts is tiled by its pieces, and
each piece by its blocks. -/
theorem geometry_tiles {info : Info} (hpieces : info.numPieces < 2 ^ 32)
    (hsum : ∀ layout, info.layout = .ok layout → layout.bytes < 2 ^ 64) :
    ((∃ g, Geometry.fromInfo info = .ok g) ↔
      ∃ layout, info.layout = .ok layout ∧ 1 ≤ info.pieceLength.toNat ∧
        info.pieceLength.toNat < 2 ^ 32 ∧ 1 ≤ info.numPieces ∧
        info.numPieces = layout.bytes ⌈/⌉ info.pieceLength.toNat) ∧
      ∀ g, Geometry.fromInfo info = .ok g →
        (∃ layout, info.layout = .ok layout ∧ g.totalLength = layout.bytes) ∧
        g.numPieces = info.numPieces ∧
        Partitions g.pieceOffset g.pieceLengthOf g.numPieces g.totalLength ∧
        (∀ i < g.numPieces,
          Partitions (fun b => (g.blockInfo i b).begin.toNat)
            (fun b => (g.blockInfo i b).length.toNat) (g.numBlocks i) (g.pieceLengthOf i) ∧
          ∀ b < g.numBlocks i, 1 ≤ (g.blockInfo i b).length.toNat ∧
            (g.blockInfo i b).length.toNat ≤ blockSize) ∧
        g.Exact := by
  refine ⟨Geometry.fromInfo_isOk_iff hpieces hsum, fun g hg => ?_⟩
  obtain ⟨⟨total, ht, hgt⟩, -, hgn, hwf⟩ := Geometry.fromInfo_eq_ok hg
  obtain ⟨layout, hl, hbytes⟩ := (Info.totalLength_eq_ok_iff hsum).mp ht
  rw [Nat.mod_eq_of_lt hpieces] at hgn
  refine ⟨⟨layout, hl, hgt.trans hbytes.symm⟩, hgn, hwf.tiles_pieces.partitions, ?_, hwf.exact⟩
  intro i hi
  refine ⟨(hwf.tiles_blocks hi).partitions, fun b hb => ?_⟩
  obtain ⟨-, -, hpos, hle, -⟩ := hwf.blockInfo_spec hi hb
  exact ⟨hpos, hle⟩

/-- Two files of 100000 bytes together, in two pieces of four blocks each. -/
def shortTailInfo : Info where
  name := "t"
  pieceLength := 65536
  pieces := List.replicate 40 0
  length := none
  files := some [⟨65000, ["a"]⟩, ⟨35000, ["b"]⟩]

/-- A torrent whose last piece is short is partitioned. -/
theorem geometry_tiles_shortTail :
    ∃ g, Geometry.fromInfo shortTailInfo = .ok g ∧
      Partitions g.pieceOffset g.pieceLengthOf g.numPieces g.totalLength := by
  have hpieces : shortTailInfo.numPieces < 2 ^ 32 := by decide
  have hlayout : shortTailInfo.layout = .ok (.multi [⟨65000, ["a"]⟩, ⟨35000, ["b"]⟩]) := rfl
  have hsum : ∀ layout, shortTailInfo.layout = .ok layout → layout.bytes < 2 ^ 64 := by
    intro layout h
    obtain rfl := Except.ok.inj (hlayout.symm.trans h)
    decide
  obtain ⟨haccept, htiles⟩ := geometry_tiles hpieces hsum
  obtain ⟨g, hg⟩ := haccept.mpr ⟨_, hlayout, by decide, by decide, by decide, by decide⟩
  exact ⟨g, hg, (htiles g hg).2.2.1⟩

end Download

end Torrentina
