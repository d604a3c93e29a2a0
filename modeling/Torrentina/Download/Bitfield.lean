import Torrentina.Error

/-!
# A fixed-size set of pieces, stored as a wire-compatible bitfield

Bits are packed MSB-first. The byte length and the cached population count are
part of the type, so every bitfield the client can hold has the right number of
bytes and an exact count; later results only use `has`.
-/

namespace Torrentina.Download

/-- The mask of bit `index` in its byte: `0x80 >> (index % 8)`. -/
def bitMask (index : Nat) : UInt8 := 0x80 >>> UInt8.ofNat (index % 8)

/-- Bit `index` of packed bytes. -/
def packedBit (bytes : List UInt8) (index : Nat) : Bool :=
  bytes.getD (index / 8) 0 &&& bitMask index != 0

/-- Number of bytes needed to hold `numPieces` bits. -/
def byteLen (numPieces : Nat) : Nat := (numPieces + 7) / 8

/-- The mask has the bit of its piece. -/
theorem toBitVec_bitMask (index : Nat) :
    (bitMask index).toBitVec = BitVec.twoPow 8 (7 - index % 8) := by
  have h : ∀ k : Fin 8, ((0x80 : UInt8) >>> UInt8.ofNat k.val).toBitVec =
      BitVec.twoPow 8 (7 - k.val) := by decide
  exact h ⟨index % 8, Nat.mod_lt _ (by decide)⟩

/-- Testing with the mask reads one bit of the byte. -/
theorem and_bitMask_ne_zero (b : UInt8) (index : Nat) :
    (b &&& bitMask index != 0) = b.toBitVec.getLsbD (7 - index % 8) := by
  have hpow : BitVec.twoPow 8 (7 - index % 8) ≠ 0#8 := by
    intro h
    have hbit := congrArg (fun v => v.getLsbD (7 - index % 8)) h
    simp [BitVec.getLsbD_twoPow] at hbit
    omega
  rw [bne, Bool.eq_iff_iff]
  simp only [Bool.not_eq_true', beq_eq_false_iff_ne, ne_eq, ← UInt8.toBitVec_inj,
    UInt8.toBitVec_and, toBitVec_bitMask, BitVec.and_twoPow]
  by_cases hb : b.toBitVec.getLsbD (7 - index % 8) = true
  · simpa [hb] using hpow
  · simp [hb]

/-- Setting a bit of its byte changes exactly that bit. -/
theorem packedBit_modify {bytes : List UInt8} {index : Nat} (hi : index / 8 < bytes.length)
    (j : Nat) : packedBit (bytes.modify (index / 8) (· ||| bitMask index)) j =
      (packedBit bytes j || decide (j = index)) := by
  rw [packedBit, packedBit, and_bitMask_ne_zero, and_bitMask_ne_zero, List.getD_eq_getElem?_getD,
    List.getD_eq_getElem?_getD, List.getElem?_modify]
  by_cases hbyte : index / 8 = j / 8
  · have hj : j / 8 < bytes.length := by omega
    simp only [if_pos hbyte, List.getElem?_eq_getElem hj, Option.map_eq_map, Option.map_some,
      Option.getD_some, UInt8.toBitVec_or, toBitVec_bitMask, BitVec.getLsbD_or,
      BitVec.getLsbD_twoPow]
    congr 1
    by_cases he : j = index
    · subst he
      simp
      omega
    · simp only [he, decide_false, Bool.and_eq_false_iff, decide_eq_false_iff_not]
      omega
  · have hne : j ≠ index := by
      intro he
      exact hbyte (by rw [he])
    simp [if_neg hbyte, hne]

/-- Adding one new element below the bound adds one to the count. -/
theorem countP_range_insert {p : Nat → Bool} {i n : Nat} (hi : i < n) (hp : p i = false) :
    (List.range n).countP (fun j => p j || decide (j = i)) = (List.range n).countP p + 1 := by
  induction n with
  | zero => omega
  | succ n ih =>
    rw [List.range_succ, List.countP_append, List.countP_append, List.countP_singleton,
      List.countP_singleton]
    by_cases hn : i = n
    · subst hn
      have hrest : (List.range i).countP (fun j => p j || decide (j = i)) =
          (List.range i).countP p := by
        apply List.countP_congr
        intro j hj
        have hlt := List.mem_range.mp hj
        simp [Nat.ne_of_lt hlt]
      simp [hrest, hp]
    · rw [ih (by omega)]
      have hne : n ≠ i := fun h => hn h.symm
      simp only [hne, decide_false, Bool.or_false]
      omega

/-- A set of pieces by index, backed by a packed bitfield. -/
structure Bitfield where
  bytes : List UInt8
  numPieces : Nat
  count : Nat
  length_bytes : bytes.length = byteLen numPieces
  count_eq : count = (List.range numPieces).countP (packedBit bytes)
  deriving DecidableEq

namespace Bitfield

/-- No bit is set in bytes of zero. -/
theorem packedBit_replicate (n index : Nat) : packedBit (List.replicate n 0) index = false := by
  rw [packedBit, and_bitMask_ne_zero, List.getD_eq_getElem?_getD, List.getElem?_replicate]
  by_cases h : index / 8 < n
  · rw [if_pos h]
    simp
  · rw [if_neg h]
    simp

/-- An empty bitfield sized for `numPieces`. -/
def new (numPieces : Nat) : Bitfield where
  bytes := List.replicate (byteLen numPieces) 0
  numPieces
  count := 0
  length_bytes := List.length_replicate
  count_eq := by
    symm
    rw [List.countP_eq_zero]
    intro i _
    rw [packedBit_replicate]
    exact Bool.false_ne_true

/-- Wrap raw wire bytes as a bitfield, checking their number. -/
def fromBytes (bytes : List UInt8) (numPieces : Nat) : Except Error Bitfield :=
  let expected := byteLen numPieces
  if h : bytes.length ≠ expected then
    .error (.peerProtocol
      s!"bitfield is {bytes.length} bytes but {numPieces} pieces need {expected}")
  else .ok
    { bytes, numPieces, count := (List.range numPieces).countP (packedBit bytes)
      length_bytes := not_not.mp h
      count_eq := rfl }

/-- Whether piece `index` is present. Out-of-range indices are absent. -/
def has (bf : Bitfield) (index : Nat) : Bool :=
  if index ≥ bf.numPieces then false else packedBit bf.bytes index

/-- A piece of the bitfield has its byte. -/
theorem byte_lt (bf : Bitfield) {index : Nat} (h : ¬index ≥ bf.numPieces) :
    index / 8 < bf.bytes.length := by
  rw [bf.length_bytes, byteLen]
  omega

/-- Mark piece `index` as present. Out-of-range indices are ignored. -/
def set (bf : Bitfield) (index : Nat) : Bitfield :=
  if h : index ≥ bf.numPieces then bf
  else if hb : packedBit bf.bytes index = true then bf
  else
    { bytes := bf.bytes.modify (index / 8) (· ||| bitMask index)
      numPieces := bf.numPieces
      count := bf.count + 1
      length_bytes := by rw [List.length_modify, bf.length_bytes]
      count_eq := by
        rw [bf.count_eq, ← countP_range_insert (by omega) (Bool.not_eq_true _ ▸ hb)]
        exact congrArg (fun f => List.countP f _)
          (funext fun j => (packedBit_modify (bf.byte_lt h) j).symm) }

/-- Whether every piece is present. -/
def isComplete (bf : Bitfield) : Bool := bf.count == bf.numPieces

@[simp] theorem numPieces_new (n : Nat) : (new n).numPieces = n := rfl

@[simp] theorem has_new (n index : Nat) : (new n).has index = false := by
  rw [has, new, packedBit_replicate, ite_self]

/-- A bitfield that is read is for the given number of pieces. -/
theorem numPieces_fromBytes {bytes : List UInt8} {n : Nat} {bf : Bitfield}
    (h : fromBytes bytes n = .ok bf) : bf.numPieces = n := by
  rw [fromBytes] at h
  split at h
  · cases h
  · obtain rfl := Except.ok.inj h
    rfl

/-- A piece is had only if its bit was set. -/
theorem has_fromBytes {bits : List UInt8} {n : Nat} {bf : Bitfield}
    (h : fromBytes bits n = .ok bf) {i : Nat} (hi : bf.has i = true) :
    packedBit bits i = true := by
  unfold fromBytes at h
  simp only at h
  split at h
  · cases h
  · obtain rfl := Except.ok.inj h
    unfold has at hi
    split at hi
    · cases hi
    · exact hi

/-- Only pieces of the torrent are had. -/
theorem lt_of_has {bf : Bitfield} {index : Nat} (h : bf.has index = true) :
    index < bf.numPieces := by
  rw [has] at h
  split at h
  · cases h
  · omega

@[simp] theorem numPieces_set (bf : Bitfield) (index : Nat) :
    (bf.set index).numPieces = bf.numPieces := by
  rw [set]
  split
  · rfl
  · split <;> rfl

/-- Setting an index adds exactly that index, when it is in range. -/
@[simp] theorem has_set (bf : Bitfield) (index j : Nat) :
    (bf.set index).has j = (bf.has j || decide (j = index ∧ index < bf.numPieces)) := by
  by_cases h : index ≥ bf.numPieces
  · rw [set, dif_pos h]
    simp [Nat.not_lt.mpr h]
  rw [set, dif_neg h]
  by_cases hb : packedBit bf.bytes index = true
  · rw [dif_pos hb]
    by_cases he : j = index
    · subst he
      simp [has, h, hb]
    · simp [he]
  · rw [dif_neg hb]
    by_cases hj : j ≥ bf.numPieces
    · have hne : j ≠ index := by omega
      simp [has, hj, hne]
    · simp only [has, hj, if_false, packedBit_modify (bf.byte_lt h)]
      simp [Nat.not_le.mp h]

/-- A bitfield is complete exactly when it has every piece. -/
theorem isComplete_iff (bf : Bitfield) :
    bf.isComplete = true ↔ ∀ i < bf.numPieces, bf.has i = true := by
  have hall : (List.range bf.numPieces).countP (packedBit bf.bytes) = bf.numPieces ↔
      ∀ i ∈ List.range bf.numPieces, packedBit bf.bytes i = true := by
    rw [← List.countP_eq_length, List.length_range]
  rw [isComplete, beq_iff_eq, bf.count_eq, hall]
  constructor
  · intro h i hi
    rw [has, if_neg (by omega)]
    exact h i (List.mem_range.mpr hi)
  · intro h i hi
    have hlt := List.mem_range.mp hi
    have hh := h i hlt
    rwa [has, if_neg (by omega)] at hh

end Bitfield

end Torrentina.Download
