import Torrentina.Download.Coverage
import Torrentina.Download.Tiling

/-!
# The blocks of the geometry put a piece together

Requests are cut by the geometry and deliveries are placed by the assembler. Both
cut at multiples of the block size, so the blocks of a piece, in whatever order
and however often they come, are all accepted, and each leaves its own part of the
content in the buffer.
-/

namespace Torrentina.Download

open Torrentina.Core

namespace Geometry

/-- The delivery of block `b` of piece `i`: its part of the content of the piece, at its offset. -/
def delivery (g : Geometry) (i : Nat) (content : List UInt8) (b : Nat) : Call :=
  let block := g.blockInfo i b
  ⟨block.begin, (content.drop block.begin.toNat).take block.length.toNat⟩

/-- The blocks of a piece are those of an assembler of its length. -/
theorem numBlocks_eq (g : Geometry) (i : Nat) : g.numBlocks i = blockCount (g.pieceLengthOf i) :=
  rfl

variable {g : Geometry} {i b : Nat} {content : List UInt8}

/-- Where a delivery goes, how much it brings and what. -/
theorem WellFormed.delivery (hg : g.WellFormed) (hi : i < g.numPieces) (hb : b < g.numBlocks i)
    (hc : content.length = g.pieceLengthOf i) :
    (g.delivery i content b).begin.toNat = b * blockSize ∧
      b * blockSize + (g.delivery i content b).data.length =
        PieceAssembler.blockEnd content.length (b * blockSize) ∧
      ∀ j < (g.delivery i content b).data.length,
        (g.delivery i content b).data[j]? = content[b * blockSize + j]? := by
  obtain ⟨hbegin, hlength⟩ := hg.blockInfo_toNat hi hb
  have hlt : b * blockSize < content.length := by rwa [hc, ← lt_numBlocks_iff]
  have hdata : (g.delivery i content b).data.length =
      min blockSize (content.length - b * blockSize) := by
    simp only [Geometry.delivery, hbegin, hlength, List.length_take, List.length_drop, ← hc]
    rw [Nat.min_assoc, Nat.min_self]
  refine ⟨hbegin, ?_, fun j hj => ?_⟩
  · rw [hdata, PieceAssembler.blockEnd, ← Nat.add_min_add_left, Nat.add_sub_of_le hlt.le]
  · rw [hdata] at hj
    simp only [Geometry.delivery, hbegin, hlength, ← hc]
    rw [List.getElem?_take_of_lt hj, List.getElem?_drop]

end Geometry

namespace PieceAssembler

/-- Add several blocks, one after another. -/
def addBlocks (asm : PieceAssembler) (calls : List Call) : Except Fault PieceAssembler :=
  calls.foldlM (fun asm call => asm.addBlock call.begin.toNat call.data) asm

/-- The blocks in `bs`, and only these, have been received, with their part of the content. -/
structure Holds (asm : PieceAssembler) (content : List UInt8) (bs : List Nat) : Prop where
  length : asm.length = content.length
  received : ∀ b < blockCount asm.length, asm.received[b]? = some true ↔ b ∈ bs
  bytes : ∀ b ∈ bs, ∀ p, b * blockSize ≤ p → p < blockEnd asm.length (b * blockSize) →
    asm.buf[p]? = content[p]?

theorem holds_new (i : Nat) (content : List UInt8) : (new i content.length).Holds content [] where
  length := rfl
  received b hb := by
    simp [new, List.getElem?_replicate]
  bytes b hb := by cases hb

/-- One more block of the piece is accepted, and held from then on. -/
theorem Holds.snoc {asm : PieceAssembler} {g : Geometry} {i b : Nat} {content : List UInt8}
    {bs : List Nat} (h : asm.Holds content bs) (hg : g.WellFormed) (hi : i < g.numPieces)
    (hb : b < g.numBlocks i) (hc : content.length = g.pieceLengthOf i) :
    ∃ asm', asm.addBlock (g.delivery i content b).begin.toNat (g.delivery i content b).data =
      .ok asm' ∧ asm'.Holds content (bs ++ [b]) := by
  obtain ⟨hbegin, hend, hdata⟩ := hg.delivery hi hb hc
  have hlen := h.length
  have hblock : b < blockCount asm.length := by rwa [hlen, hc, ← g.numBlocks_eq]
  have halign : b * blockSize % blockSize = 0 := Nat.mul_mod_left b blockSize
  have hdiv : b * blockSize / blockSize = b := Nat.mul_div_cancel b (by decide)
  have haccepts : Accepts asm.length (g.delivery i content b) := by
    rw [Accepts, hbegin, hend, hlen]
    refine ⟨halign, Nat.min_le_right _ _, ?_⟩
    rwa [← hlen, ← div_lt_blockCount_iff halign, hdiv]
  have hsmall : asm.length < 2 ^ 32 := by
    rw [hlen, hc]
    exact hg.pieceLengthOf_lt i
  obtain ⟨asm', hadd⟩ := (addBlock_eq_ok_iff hsmall).mpr haccepts
  obtain ⟨-, hfit, hbuf, -, hreceived⟩ := addBlock_eq_ok hadd
  have hlen' := (addBlock_frame hadd).2
  rw [hbegin] at hfit hbuf hreceived
  rw [hdiv] at hreceived
  refine ⟨asm', hadd, hlen'.trans hlen, fun b' hb' => ?_, fun b' hb' p hp hpend => ?_⟩
  · rw [hlen'] at hb'
    rw [hreceived, List.getElem?_set, asm.length_received, List.mem_append, List.mem_singleton]
    by_cases he : b = b'
    · rw [if_pos he, if_pos hblock]
      exact iff_of_true rfl (.inr he.symm)
    · rw [if_neg he, h.received b' hb']
      exact (or_iff_left (Ne.symm he)).symm
  · rw [hbuf, getElem?_copyInto (by rw [asm.length_buf]; exact hfit)]
    split
    · rename_i hin
      rw [hdata (p - b * blockSize) (by omega)]
      congr 1
      omega
    · rename_i hout
      rcases List.mem_append.mp hb' with hb' | hb'
      · rw [hlen'] at hpend
        exact h.bytes b' hb' p hp hpend
      · -- the new block is what the data covers
        obtain rfl := List.mem_singleton.mp hb'
        rw [hlen', hlen] at hpend
        exact absurd ⟨hp, by omega⟩ hout

/-- Every sequence of blocks of the piece is accepted. -/
theorem exists_holds {g : Geometry} {i : Nat} {content : List UInt8} (hg : g.WellFormed)
    (hi : i < g.numPieces) (hc : content.length = g.pieceLengthOf i) {bs : List Nat}
    (hbs : ∀ b ∈ bs, b < g.numBlocks i) :
    ∃ asm, (new i content.length).addBlocks (bs.map (g.delivery i content)) = .ok asm ∧
      asm.Holds content bs := by
  induction bs using List.reverseRecOn with
  | nil => exact ⟨_, rfl, holds_new i content⟩
  | append_singleton bs b ih =>
    obtain ⟨asm, hadded, hholds⟩ := ih fun b' hb' => hbs b' (List.mem_append_left _ hb')
    have hb := hbs b (List.mem_append_right _ (List.mem_singleton.mpr rfl))
    obtain ⟨asm', hadd, hholds'⟩ := hholds.snoc hg hi hb hc
    refine ⟨asm', ?_, hholds'⟩
    rw [addBlocks] at hadded ⊢
    rw [List.map_append, List.foldlM_append, bind_of_eq_ok hadded, List.map_singleton,
      List.foldlM_cons, bind_of_eq_ok hadd, List.foldlM_nil]
    rfl

theorem Holds.isComplete_iff {asm : PieceAssembler} {content : List UInt8} {bs : List Nat}
    (h : asm.Holds content bs) : asm.isComplete = true ↔ ∀ b < blockCount asm.length, b ∈ bs := by
  rw [asm.isComplete_iff]
  exact forall₂_congr h.received

/-- An assembler that holds every block holds the content. -/
theorem Holds.intoBytes {asm : PieceAssembler} {content : List UInt8} {bs : List Nat}
    (h : asm.Holds content bs) (hall : ∀ b < blockCount asm.length, b ∈ bs) :
    asm.intoBytes = content := by
  apply List.ext_getElem?
  intro p
  by_cases hp : p < asm.length
  · apply h.bytes _ (hall _ (div_lt_blockCount hp)) p (Nat.div_mul_le_self p blockSize)
    simp only [blockEnd, blockSize]
    omega
  · rw [List.getElem?_eq_none (by rw [asm.length_intoBytes]; omega),
      List.getElem?_eq_none (by rw [← h.length]; omega)]

end PieceAssembler

/-- The assembler accepts the blocks of the geometry in any order and however often, is
complete exactly when each has come, and then holds the content. -/
theorem geometry_reassembles {info : Info} {g : Geometry} (h : Geometry.fromInfo info = .ok g)
    {i : Nat} (hi : i < g.numPieces) {content : List UInt8}
    (hc : content.length = g.pieceLengthOf i) {bs : List Nat}
    (hbs : ∀ b ∈ bs, b < g.numBlocks i) :
    ∃ asm, (PieceAssembler.new i (g.pieceLengthOf i)).addBlocks (bs.map (g.delivery i content)) =
        .ok asm ∧
      (asm.isComplete = true ↔ ∀ b < g.numBlocks i, b ∈ bs) ∧
      (asm.isComplete = true → asm.intoBytes = content) := by
  obtain ⟨asm, hadded, hholds⟩ :=
    PieceAssembler.exists_holds (Geometry.fromInfo_wellFormed h) hi hc hbs
  have hcount : blockCount asm.length = g.numBlocks i := by
    rw [hholds.length, hc, g.numBlocks_eq]
  have hcomplete := hholds.isComplete_iff
  rw [hc] at hadded
  refine ⟨asm, hadded, by rwa [← hcount], fun hdone => ?_⟩
  exact hholds.intoBytes (hcomplete.mp hdone)

/-- The short last piece, its last block first and its first block twice. -/
theorem geometry_reassembles_shortTail : ∃ g asm, Geometry.fromInfo shortTailInfo = .ok g ∧
    (PieceAssembler.new 1 (g.pieceLengthOf 1)).addBlocks
      ([2, 0, 1, 0].map (g.delivery 1 (List.replicate 34464 7))) = .ok asm ∧
    asm.isComplete = true ∧ asm.intoBytes = List.replicate 34464 7 := by
  have hg : Geometry.fromInfo shortTailInfo = .ok ⟨100000, 65536, 2, 34464⟩ := rfl
  have hcontent : (List.replicate 34464 (7 : UInt8)).length = 34464 := List.length_replicate
  have hblocks : ∀ b ∈ [2, 0, 1, 0], b < 3 := by decide
  obtain ⟨asm, hadded, hcomplete, hbytes⟩ :=
    geometry_reassembles hg (i := 1) (by decide) hcontent hblocks
  have hdone := hcomplete.mpr (by decide)
  exact ⟨_, asm, hg, hadded, hdone, hbytes hdone⟩

end Torrentina.Download
