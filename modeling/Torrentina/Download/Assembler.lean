import Torrentina.Download.Geometry
import Mathlib.Data.List.Count

/-!
# Assembling one piece from its blocks

A piece assembler carries its own bookkeeping invariants: the buffer has the
length of the piece, there is one flag for each block, and the remaining count
is the number of flags still down. `addBlock` follows the source into its two
panics: a slice copy between different lengths and a flag index out of bounds.
-/

namespace Torrentina.Download

/-- Number of blocks a piece of `length` bytes is divided into. -/
def blockCount (length : Nat) : Nat := (length + blockSize - 1) / blockSize

theorem lt_blockCount_iff {b length : Nat} :
    b < blockCount length ↔ b * blockSize < length := lt_blocks_iff

/-- Every offset of a piece is in one of its blocks. -/
theorem div_lt_blockCount {p length : Nat} (h : p < length) : p / blockSize < blockCount length :=
  lt_blockCount_iff.mpr (Nat.lt_of_le_of_lt (Nat.div_mul_le_self p blockSize) h)

/-- Accumulates the blocks of a single piece until it is whole. -/
structure PieceAssembler where
  index : Nat
  length : Nat
  buf : List UInt8
  received : List Bool
  remaining : Nat
  length_buf : buf.length = length
  length_received : received.length = blockCount length
  remaining_eq : remaining = received.count false
  deriving DecidableEq

namespace PieceAssembler

/-- Start assembling piece `index`, which is `length` bytes long. -/
def new (index length : Nat) : PieceAssembler where
  index
  length
  buf := List.replicate length 0
  received := List.replicate (blockCount length) false
  remaining := blockCount length
  length_buf := List.length_replicate
  length_received := List.length_replicate
  remaining_eq := by rw [List.count_replicate_self]

/-- The buffer with `data` copied over `[begin, begin + data.length)`. -/
def copyInto (buf : List UInt8) (begin : Nat) (data : List UInt8) : List UInt8 :=
  buf.take begin ++ data ++ buf.drop (begin + data.length)

theorem length_copyInto {buf data : List UInt8} {begin : Nat}
    (h : begin + data.length ≤ buf.length) : (copyInto buf begin data).length = buf.length := by
  rw [copyInto, List.length_append, List.length_append, List.length_take, List.length_drop]
  omega

theorem count_false_set {flags : List Bool} {k : Nat} (h : flags[k]? = some false) :
    (flags.set k true).count false = flags.count false - 1 := by
  obtain ⟨hk, hget⟩ := List.getElem?_eq_some_iff.mp h
  rw [List.count_set hk, hget]
  simp

/-- Copy a received block into place. -/
def addBlock (asm : PieceAssembler) (begin : Nat) (data : List UInt8) :
    Except Fault PieceAssembler :=
  if begin % blockSize ≠ 0 then
    .error (.error (.peerProtocol s!"block offset {begin} is not block-aligned"))
  else
    -- `data.len() as u32`, then `checked_add` and the bound on the piece
    let stop := begin + data.length % 2 ^ 32
    if hstop : stop ≥ 2 ^ 32 ∨ stop > asm.length then
      .error (.error (.peerProtocol
        s!"block [{begin}, {begin}+{data.length}) exceeds piece length {asm.length}"))
    else if hlen : begin + data.length ≠ stop then
      -- `copy_from_slice` between slices of different lengths
      .error .panic
    else
      have hfit : begin + data.length ≤ asm.buf.length := by
        rw [asm.length_buf]
        omega
      match hr : asm.received[begin / blockSize]? with
      | none => .error .panic
      | some true => .ok
        { asm with
          buf := copyInto asm.buf begin data
          length_buf := by rw [length_copyInto hfit, asm.length_buf] }
      | some false => .ok
        { asm with
          buf := copyInto asm.buf begin data
          received := asm.received.set (begin / blockSize) true
          remaining := asm.remaining - 1
          length_buf := by rw [length_copyInto hfit, asm.length_buf]
          length_received := by rw [List.length_set, asm.length_received]
          remaining_eq := by rw [count_false_set hr, asm.remaining_eq] }

/-- Whether every block of the piece has been received. -/
def isComplete (asm : PieceAssembler) : Bool := asm.remaining == 0

/-- Consume the assembler, yielding the piece bytes. -/
def intoBytes (asm : PieceAssembler) : List UInt8 := asm.buf

/-- What an accepted block does: it fits the piece, its bytes are copied and its flag goes up. -/
theorem addBlock_eq_ok {asm asm' : PieceAssembler} {begin : Nat} {data : List UInt8}
    (h : asm.addBlock begin data = .ok asm') :
    begin % blockSize = 0 ∧ begin + data.length ≤ asm.length ∧
      asm'.buf = copyInto asm.buf begin data ∧
      (∃ old, asm.received[begin / blockSize]? = some old) ∧
      asm'.received = asm.received.set (begin / blockSize) true := by
  unfold addBlock at h
  split at h
  · cases h
  rename_i halign
  simp only at h
  split at h
  · cases h
  split at h
  · cases h
  have hfit : begin + data.length ≤ asm.length := by omega
  split at h
  · cases h
  · rename_i hr
    obtain rfl := Except.ok.inj h
    refine ⟨not_not.mp halign, hfit, rfl, ⟨true, hr⟩, ?_⟩
    obtain ⟨hk, hget⟩ := List.getElem?_eq_some_iff.mp hr
    rw [← hget, List.set_getElem_self]
  · rename_i hr
    obtain rfl := Except.ok.inj h
    exact ⟨not_not.mp halign, hfit, rfl, ⟨false, hr⟩, rfl⟩

/-- A block never changes which piece is assembled or how long it is. -/
theorem addBlock_frame {asm asm' : PieceAssembler} {begin : Nat} {data : List UInt8}
    (h : asm.addBlock begin data = .ok asm') :
    asm'.index = asm.index ∧ asm'.length = asm.length := by
  unfold addBlock at h
  split at h
  · cases h
  simp only at h
  split at h
  · cases h
  split at h
  · cases h
  split at h
  · cases h
  · obtain rfl := Except.ok.inj h
    exact ⟨rfl, rfl⟩
  · obtain rfl := Except.ok.inj h
    exact ⟨rfl, rfl⟩

theorem length_intoBytes (asm : PieceAssembler) : asm.intoBytes.length = asm.length :=
  asm.length_buf

end PieceAssembler

end Torrentina.Download
