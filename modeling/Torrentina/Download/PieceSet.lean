import Torrentina.Download.Bitfield
import Mathlib.Algebra.Order.Floor.Div
import Mathlib.Data.Finset.Card
import Mathlib.Data.Finset.Range

/-!
# The set a bitfield stands for

A bitfield is a finite set of indices below its number of pieces. Setting an
index inserts it, the cached count is the cardinality, and the packed bytes that
go on the wire determine the whole value again. The bits past the last piece
belong to no set and stay as they came.
-/

namespace Torrentina.Download.Bitfield

/-- The indices that are present. -/
def pieces (bf : Bitfield) : Finset Nat :=
  (Finset.range bf.numPieces).filter fun i => bf.has i = true

@[simp] theorem mem_pieces {bf : Bitfield} {i : Nat} : i ∈ bf.pieces ↔ bf.has i = true := by
  rw [pieces, Finset.mem_filter, Finset.mem_range, and_iff_right_iff_imp]
  exact lt_of_has

@[simp] theorem pieces_new (n : Nat) : (new n).pieces = ∅ := by
  ext i
  simp

theorem packedBit_eq_has (bf : Bitfield) {i : Nat} (hi : i < bf.numPieces) :
    packedBit bf.bytes i = bf.has i := by
  rw [has, if_neg (by omega)]

/-- The pieces of received bytes are the bits below the number of pieces. -/
theorem pieces_fromBytes {bytes : List UInt8} {n : Nat} {bf : Bitfield}
    (h : fromBytes bytes n = .ok bf) :
    bf.pieces = (Finset.range n).filter fun i => packedBit bytes i = true := by
  have hn := numPieces_fromBytes h
  ext i
  rw [mem_pieces, Finset.mem_filter, Finset.mem_range]
  constructor
  · intro hi
    exact ⟨hn ▸ lt_of_has hi, has_fromBytes h hi⟩
  · rintro ⟨hi, hbit⟩
    unfold fromBytes at h
    simp only at h
    split at h
    · cases h
    · obtain rfl := Except.ok.inj h
      rwa [has, if_neg (by simpa using hi)]

/-- Setting an index inserts it, or nothing when it is out of range. -/
theorem pieces_set (bf : Bitfield) (j : Nat) :
    (bf.set j).pieces = if j < bf.numPieces then insert j bf.pieces else bf.pieces := by
  ext i
  rw [mem_pieces, has_set]
  by_cases hj : j < bf.numPieces
  · rw [if_pos hj, Finset.mem_insert, mem_pieces]
    simp [hj, or_comm]
  · rw [if_neg hj, mem_pieces]
    simp [hj]

/-- The cached count is the cardinality. -/
theorem card_pieces (bf : Bitfield) : bf.pieces.card = bf.count := by
  have hfilter : (List.range bf.numPieces).filter (fun i => decide (bf.has i = true)) =
      (List.range bf.numPieces).filter (packedBit bf.bytes) := by
    apply List.filter_congr
    intro i hi
    rw [Bool.decide_eq_true, packedBit_eq_has bf (List.mem_range.mp hi)]
  rw [bf.count_eq, List.countP_eq_length_filter, ← hfilter]
  rfl

/-! ## Padding and wire bytes -/

/-- The bits past the last piece stay as they are. -/
theorem packedBit_set_padding (bf : Bitfield) (j : Nat) {k : Nat} (hk : bf.numPieces ≤ k) :
    packedBit (bf.set j).bytes k = packedBit bf.bytes k := by
  rw [set]
  split
  · rfl
  rename_i hj
  split
  · rfl
  have hne : k ≠ j := by omega
  rw [packedBit_modify (bf.byte_lt hj), decide_eq_false hne, Bool.or_false]

/-- The bytes of a `Bitfield` message. -/
def toMessageBytes (bf : Bitfield) : List UInt8 := bf.bytes

/-- The wire bytes read back as the same bitfield, padding included. -/
theorem fromBytes_toMessageBytes (bf : Bitfield) :
    fromBytes bf.toMessageBytes bf.numPieces = .ok bf := by
  obtain ⟨bytes, numPieces, count, hlength, rfl⟩ := bf
  rw [toMessageBytes, fromBytes]
  simp only
  rw [dif_neg (not_not.mpr hlength)]

/-! ## Runs of updates -/

/-- A sequence of `set` calls. -/
def setAll (bf : Bitfield) (js : List Nat) : Bitfield := js.foldl set bf

@[simp] theorem numPieces_setAll (bf : Bitfield) (js : List Nat) :
    (bf.setAll js).numPieces = bf.numPieces := by
  induction js generalizing bf with
  | nil => rfl
  | cons j js ih => rw [setAll, List.foldl_cons, ← setAll, ih, numPieces_set]

/-- A run of updates adds exactly the indices it names that are in range. -/
theorem pieces_setAll (bf : Bitfield) (js : List Nat) :
    (bf.setAll js).pieces = bf.pieces ∪ js.toFinset.filter (· < bf.numPieces) := by
  induction js generalizing bf with
  | nil => simp [setAll]
  | cons j js ih =>
    rw [setAll, List.foldl_cons, ← setAll, ih, pieces_set, numPieces_set, List.toFinset_cons,
      Finset.filter_insert]
    by_cases hj : j < bf.numPieces
    · rw [if_pos hj, if_pos hj, Finset.insert_union, Finset.union_insert]
    · rw [if_neg hj, if_neg hj]

theorem packedBit_setAll_padding (bf : Bitfield) (js : List Nat) {k : Nat}
    (hk : bf.numPieces ≤ k) : packedBit (bf.setAll js).bytes k = packedBit bf.bytes k := by
  induction js generalizing bf with
  | nil => rfl
  | cons j js ih =>
    rw [setAll, List.foldl_cons, ← setAll, ih _ (by rwa [numPieces_set]),
      packedBit_set_padding bf j hk]

/-- What a bitfield for `n` pieces begins as: empty, or bytes that were accepted. -/
inductive Begins (n : Nat) : Bitfield → Prop
  | new : Begins n (new n)
  | fromBytes {bytes : List UInt8} {bf : Bitfield} (h : fromBytes bytes n = .ok bf) : Begins n bf

theorem Begins.numPieces_eq {n : Nat} {bf : Bitfield} (h : Begins n bf) : bf.numPieces = n := by
  cases h with
  | new => rfl
  | fromBytes h => exact numPieces_fromBytes h

/-- A bitfield for `n` pieces after any run of updates: the run added what it named in
range, count, completeness and membership are those of the set, the bytes are as many as
the pieces need, no update touches the padding, and the bytes sent are accepted and give
the same value back. -/
theorem represents {n : Nat} {bf₀ : Bitfield} (h₀ : Begins n bf₀) (js : List Nat) :
    (bf₀.setAll js).numPieces = n ∧
    (bf₀.setAll js).pieces = bf₀.pieces ∪ js.toFinset.filter (· < n) ∧
    (bf₀.setAll js).count =
      ((Finset.range n).filter fun i => (bf₀.setAll js).has i = true).card ∧
    ((bf₀.setAll js).isComplete = true ↔ ∀ i < n, (bf₀.setAll js).has i = true) ∧
    (∀ j i, ((bf₀.setAll js).set j).has i = true ↔
      (bf₀.setAll js).has i = true ∨ i = j ∧ j < n) ∧
    (bf₀.setAll js).bytes.length = n ⌈/⌉ 8 ∧
    (∀ k ≥ n, packedBit (bf₀.setAll js).bytes k = packedBit bf₀.bytes k) ∧
    (∀ j, ∀ k ≥ n, packedBit ((bf₀.setAll js).set j).bytes k =
      packedBit (bf₀.setAll js).bytes k) ∧
    fromBytes (bf₀.setAll js).toMessageBytes n = .ok (bf₀.setAll js) := by
  have hn := h₀.numPieces_eq
  have hrun : (bf₀.setAll js).numPieces = n := by rw [numPieces_setAll, hn]
  refine ⟨hrun, ?_, ?_, ?_, ?_, ?_, ?_, ?_, ?_⟩
  · rw [pieces_setAll, hn]
  · have hcard := card_pieces (bf₀.setAll js)
    rw [pieces, hrun] at hcard
    exact hcard.symm
  · rw [isComplete_iff, hrun]
  · intro j i
    rw [has_set, hrun, Bool.or_eq_true, decide_eq_true_iff]
  · rw [length_bytes, hrun, byteLen, Nat.ceilDiv_eq_add_pred_div]
    rfl
  · intro k hk
    exact packedBit_setAll_padding bf₀ js (by omega)
  · intro j k hk
    exact packedBit_set_padding _ j (by omega)
  · have hbytes := fromBytes_toMessageBytes (bf₀.setAll js)
    rwa [hrun] at hbytes

/-- Wire bytes with every padding bit set, completed by the one piece they lack. -/
theorem represents_padded :
    ((⟨[0xBF], 3, 2, rfl, rfl⟩ : Bitfield).setAll [7, 1, 1]).isComplete = true :=
  (represents (@Begins.fromBytes 3 [0xBF] _ rfl) [7, 1, 1]).2.2.2.1.mpr (by decide)

end Torrentina.Download.Bitfield
