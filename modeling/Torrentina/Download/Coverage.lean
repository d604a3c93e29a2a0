import Torrentina.Download.Blocks

/-!
# Which bytes the blocks bring

An accepted block raises the flag of the block at its offset, however much data
it has. So a flag stands for the bytes of its block only where the data reaches
to the end of the block, and the bytes of other blocks, or of a block that was
there before, are written over where it reaches further or comes again.
-/

namespace Torrentina.Download

open Torrentina.Core

namespace PieceAssembler

/-- A call whose error leaves the assembler as it is. -/
def deliver (asm : PieceAssembler) (call : Call) : PieceAssembler :=
  match asm.addBlock call.begin.toNat call.data with
  | .ok asm' => asm'
  | .error _ => asm

/-- The assembler after a sequence of calls. -/
def run (index length : Nat) (calls : List Call) : PieceAssembler :=
  calls.foldl deliver (new index length)

/-- Position `p` is in the data of an accepted call. -/
def Covered (length : Nat) (calls : List Call) (p : Nat) : Prop :=
  ∃ call ∈ calls, Accepts length call ∧ call.begin.toNat ≤ p ∧
    p < call.begin.toNat + call.data.length

/-- Where the block at `begin` ends. -/
def blockEnd (length begin : Nat) : Nat := min (begin + blockSize) length

/-- The data of the call begins at or before the block at `begin` and reaches to its end. -/
def Spans (length begin : Nat) (call : Call) : Prop :=
  Accepts length call ∧ call.begin.toNat ≤ begin ∧
    blockEnd length begin ≤ call.begin.toNat + call.data.length

/-- Whenever a flag is up the bytes of its block have been delivered, and whenever
the assembler is complete every byte has. -/
structure ReceivesAll (index length : Nat) (calls : List Call) : Prop where
  complete : ∀ pre post, calls = pre ++ post → (run index length pre).isComplete = true →
    ∀ p < length, Covered length pre p
  counted : ∀ pre post b, calls = pre ++ post → (run index length pre).received[b]? = some true →
    ∀ p, b * blockSize ≤ p → p < blockEnd length (b * blockSize) → Covered length pre p

/-- One more call is delivered after the others. -/
theorem run_append (index length : Nat) (calls : List Call) (call : Call) :
    run index length (calls ++ [call]) = (run index length calls).deliver call := by
  rw [run, List.foldl_append]
  rfl

/-- A call does not change the length of the piece. -/
theorem length_deliver (asm : PieceAssembler) (call : Call) :
    (asm.deliver call).length = asm.length := by
  unfold deliver
  cases h : asm.addBlock call.begin.toNat call.data with
  | ok asm' => exact (addBlock_frame h).2
  | error e => rfl

/-- Calls do not change the length of the piece. -/
theorem length_run (index length : Nat) (calls : List Call) :
    (run index length calls).length = length := by
  induction calls using List.reverseRecOn with
  | nil => rfl
  | append_singleton calls call ih => rw [run_append, length_deliver, ih]

/-- A call that is accepted sets the flag of its block. -/
theorem received_deliver {asm : PieceAssembler} (hasm : asm.length < 2 ^ 32) (call : Call) :
    (asm.deliver call).received = if Accepts asm.length call then
      asm.received.set (call.begin.toNat / blockSize) true else asm.received := by
  have hiff := @addBlock_eq_ok_iff asm call hasm
  unfold deliver
  cases h : asm.addBlock call.begin.toNat call.data with
  | ok asm' =>
    rw [if_pos (hiff.mp ⟨asm', h⟩)]
    exact (addBlock_eq_ok h).2.2.2.2
  | error e =>
    rw [if_neg]
    intro ha
    obtain ⟨asm', h'⟩ := hiff.mpr ha
    rw [h] at h'
    cases h'

/-- A flag is up when a call with the offset of its block was accepted. -/
theorem received_run_iff {index length : Nat} (hlen : length < 2 ^ 32) (calls : List Call)
    (b : Nat) : (run index length calls).received[b]? = some true ↔
      ∃ call ∈ calls, Accepts length call ∧ call.begin.toNat = b * blockSize := by
  induction calls using List.reverseRecOn with
  | nil => simp [run, new, List.getElem?_replicate]
  | append_singleton calls call ih =>
    have hrun := length_run index length calls
    rw [run_append, received_deliver (by rw [hrun]; exact hlen), hrun]
    simp only [List.mem_append, List.mem_singleton, or_and_right, exists_or, exists_eq_left, ← ih]
    by_cases ha : Accepts length call
    · rw [if_pos ha, List.getElem?_set, (run index length calls).length_received, hrun]
      have hb : call.begin.toNat / blockSize < blockCount length :=
        (div_lt_blockCount_iff ha.1).mpr ha.2.2
      have hiff : call.begin.toNat / blockSize = b ↔ call.begin.toNat = b * blockSize := by
        have halign := ha.1
        simp only [blockSize] at halign ⊢
        omega
      by_cases he : call.begin.toNat / blockSize = b
      · rw [if_pos he, ← he, if_pos hb]
        exact iff_of_true rfl (.inr ⟨ha, (hiff.mp he).trans (by rw [he])⟩)
      · rw [if_neg he, or_iff_left fun h => he (hiff.mpr h.2)]
    · rw [if_neg ha, or_iff_left fun h => ha h.1]

/-- An assembler is complete when every flag is up. -/
theorem isComplete_iff (asm : PieceAssembler) :
    asm.isComplete = true ↔ ∀ b < blockCount asm.length, asm.received[b]? = some true := by
  rw [isComplete, beq_iff_eq, asm.remaining_eq, List.count_eq_zero, ← asm.length_received]
  constructor
  · intro h b hb
    rw [List.getElem?_eq_getElem hb, Option.some.injEq]
    cases hget : asm.received[b] with
    | true => rfl
    | false => exact absurd (hget ▸ List.getElem_mem hb) h
  · intro h hmem
    obtain ⟨b, hb, hget⟩ := List.mem_iff_getElem.mp hmem
    have htrue := h b hb
    rw [List.getElem?_eq_getElem hb, hget] at htrue
    cases htrue

/-- A call that spans its block covers every position of it. -/
theorem covered_of_spans {length begin p : Nat} {calls : List Call} {call : Call}
    (hmem : call ∈ calls) (h : Spans length begin call) (hp : begin ≤ p)
    (hend : p < blockEnd length begin) : Covered length calls p :=
  ⟨call, hmem, h.1, Nat.le_trans h.2.1 hp, Nat.lt_of_lt_of_le hend h.2.2⟩

/-- Offsets are those of blocks, so what covers the last byte of a block spans it. -/
theorem spans_of_covered {length begin : Nat} {calls : List Call}
    (hbegin : begin % blockSize = 0) (hlt : begin < length)
    (h : Covered length calls (blockEnd length begin - 1)) :
    ∃ call ∈ calls, Spans length begin call := by
  obtain ⟨call, hmem, ha, hle, hend⟩ := h
  have halign := ha.1
  refine ⟨call, hmem, ha, ?_⟩
  simp only [blockEnd, blockSize] at *
  omega

end PieceAssembler

open PieceAssembler

/-- Blocks are counted as received, and a piece as complete, only with all their
bytes exactly when each accepted call finds its block spanned to the end, by its
own data or by that of an earlier call. -/
theorem complete_covered_iff (index length : UInt32) (calls : List Call) :
    ReceivesAll index.toNat length.toNat calls ↔
      ∀ pre call post, calls = pre ++ call :: post → Accepts length.toNat call →
        ∃ c ∈ pre ++ [call], Spans length.toNat call.begin.toNat c := by
  have hlen : length.toNat < 2 ^ 32 := length.toNat_lt
  constructor
  · intro h pre call post he ha
    have hblock : call.begin.toNat = call.begin.toNat / blockSize * blockSize :=
      (Nat.div_mul_cancel (Nat.dvd_of_mod_eq_zero ha.1)).symm
    apply spans_of_covered ha.1 ha.2.2
    have hflag : (run index.toNat length.toNat (pre ++ [call])).received[
        call.begin.toNat / blockSize]? = some true := by
      rw [received_run_iff hlen]
      exact ⟨call, by simp, ha, hblock⟩
    apply h.counted (pre ++ [call]) post _ (by simp [he]) hflag
    · rw [← hblock]
      have hlt := ha.2.2
      simp only [blockEnd, blockSize]
      omega
    · rw [← hblock]
      have hlt := ha.2.2
      simp only [blockEnd, blockSize]
      omega
  · intro h
    have hcounted : ∀ pre post b, calls = pre ++ post →
        (run index.toNat length.toNat pre).received[b]? = some true →
        ∀ p, b * blockSize ≤ p → p < blockEnd length.toNat (b * blockSize) →
          Covered length.toNat pre p := by
      intro pre post b he hflag p hp hend
      obtain ⟨call, hmem, ha, hbegin⟩ := (received_run_iff hlen pre b).mp hflag
      obtain ⟨front, back, rfl⟩ := List.append_of_mem hmem
      obtain ⟨c, hc, hspans⟩ := h front call (back ++ post) (by simp [he]) ha
      have hcmem : c ∈ front ++ call :: back := by
        rw [List.append_cons]
        exact List.mem_append_left _ hc
      rw [← hbegin] at hp hend
      exact covered_of_spans hcmem hspans hp hend
    refine ⟨fun pre post he hcomplete p hp => ?_, hcounted⟩
    rw [isComplete_iff, length_run] at hcomplete
    apply hcounted pre post _ he (hcomplete _ (div_lt_blockCount hp))
    · exact Nat.div_mul_le_self p blockSize
    · simp only [blockEnd, blockSize]
      omega

/-- An empty block completes a piece of one byte. -/
theorem complete_without_data :
    (run 0 1 [⟨0, []⟩]).isComplete = true ∧ ¬ Covered 1 [⟨0, []⟩] 0 := by
  constructor
  · decide
  · rintro ⟨call, hmem, -, -, hlt⟩
    rw [List.mem_singleton.mp hmem] at hlt
    cases hlt

/-! ## What one delivery changes -/

namespace PieceAssembler

/-- Copying changes exactly the positions of the data. -/
theorem getElem?_copyInto {buf data : List UInt8} {begin : Nat}
    (h : begin + data.length ≤ buf.length) (p : Nat) :
    (copyInto buf begin data)[p]? =
      if begin ≤ p ∧ p < begin + data.length then data[p - begin]? else buf[p]? := by
  have hwrite : copyInto buf begin data = writeAt 0 buf begin data := by
    have hpad : begin - buf.length = 0 := by omega
    rw [copyInto, writeAt, hpad, List.replicate_zero, List.append_nil]
  rw [hwrite, getElem?_writeAt h]

/-- The data from position `k` on is what the buffer holds there already. -/
def Repeats (asm : PieceAssembler) (begin : Nat) (data : List UInt8) (k : Nat) : Prop :=
  ∀ j, k ≤ j → j < data.length → asm.buf[begin + j]? = data[j]?

/-- Outside the block at `begin` nothing changes, and nothing at all if the block
has been received before. -/
structure ChangesOwnBlock (asm asm' : PieceAssembler) (begin : Nat) : Prop where
  bytes : ∀ p, p < begin ∨ blockEnd asm.length begin ≤ p → asm'.buf[p]? = asm.buf[p]?
  flags : ∀ b, b ≠ begin / blockSize → asm'.received[b]? = asm.received[b]?
  again : asm.received[begin / blockSize]? = some true → asm' = asm

/-- Positions of the buffer that the data agrees with are as before. -/
theorem getElem?_copyInto_eq_iff {asm : PieceAssembler} {begin k : Nat} {data : List UInt8}
    (h : begin + data.length ≤ asm.length) :
    asm.Repeats begin data k ↔ ∀ p, p < begin ∨ begin + k ≤ p →
      (copyInto asm.buf begin data)[p]? = asm.buf[p]? := by
  rw [← asm.length_buf] at h
  constructor
  · intro hrep p hp
    rw [getElem?_copyInto h]
    split
    · rename_i hin
      have heq := hrep (p - begin) (by omega) (by omega)
      rw [← heq]
      congr 1
      omega
    · rfl
  · intro hsame j hk hj
    have heq := hsame (begin + j) (by omega)
    rw [getElem?_copyInto h, if_pos (by omega)] at heq
    rw [← heq]
    congr 1
    omega

/-- A block that was there before only has its bytes written again. -/
theorem addBlock_again {asm asm' : PieceAssembler} {begin : Nat} {data : List UInt8}
    (h : asm.addBlock begin data = .ok asm')
    (hagain : asm.received[begin / blockSize]? = some true) :
    asm' = asm ↔ asm'.buf = asm.buf := by
  refine ⟨fun he => by rw [he], fun hbuf => ?_⟩
  obtain ⟨hindex, hlength⟩ := addBlock_frame h
  have hreceived : asm'.received = asm.received := by
    rw [(addBlock_eq_ok h).2.2.2.2]
    obtain ⟨hb, hget⟩ := List.getElem?_eq_some_iff.mp hagain
    rw [← hget, List.set_getElem_self]
  apply fields_injective
  rw [fields, fields, hindex, hlength, hbuf, hreceived, asm'.remaining_eq, asm.remaining_eq,
    hreceived]

end PieceAssembler

/-- A successful delivery changes its own block alone, and nothing when it comes
again, exactly when the bytes it has beyond its block, and all its bytes when it
comes again, are there already. -/
theorem add_block_local_iff {asm asm' : PieceAssembler} {begin : Nat} {data : List UInt8}
    (h : asm.addBlock begin data = .ok asm') :
    ChangesOwnBlock asm asm' begin ↔
      asm.Repeats begin data blockSize ∧
        (asm.received[begin / blockSize]? = some true → asm.Repeats begin data 0) := by
  obtain ⟨halign, hfit, hbuf, -, hreceived⟩ := addBlock_eq_ok h
  have hbytes : asm.Repeats begin data blockSize ↔
      ∀ p, p < begin ∨ blockEnd asm.length begin ≤ p → asm'.buf[p]? = asm.buf[p]? := by
    rw [getElem?_copyInto_eq_iff hfit, ← hbuf]
    refine forall_congr' fun p => ?_
    by_cases hp : p < asm.length
    · have hend : blockEnd asm.length begin ≤ p ↔ begin + blockSize ≤ p := by
        rw [blockEnd]
        omega
      rw [hend]
    · have hnone : asm.buf[p]? = none :=
        List.getElem?_eq_none (by rw [asm.length_buf]; omega)
      have hnone' : asm'.buf[p]? = none :=
        List.getElem?_eq_none (by rw [asm'.length_buf, (addBlock_frame h).2]; omega)
      rw [hnone, hnone']
      exact iff_of_true (fun _ => rfl) (fun _ => rfl)
  have hagain : asm.received[begin / blockSize]? = some true →
      (asm' = asm ↔ asm.Repeats begin data 0) := by
    intro hflag
    rw [addBlock_again h hflag, getElem?_copyInto_eq_iff hfit, ← hbuf]
    constructor
    · intro heq p _
      rw [heq]
    · intro hsame
      apply List.ext_getElem?
      intro p
      exact hsame p (by omega)
  have hflags : ∀ b, b ≠ begin / blockSize → asm'.received[b]? = asm.received[b]? := by
    intro b hb
    rw [hreceived, List.getElem?_set_ne hb.symm]
  constructor
  · intro hown
    exact ⟨hbytes.mpr hown.bytes, fun hflag => (hagain hflag).mp (hown.again hflag)⟩
  · rintro ⟨hover, hrep⟩
    exact ⟨hbytes.mp hover, hflags, fun hflag => (hagain hflag).mpr (hrep hflag)⟩

/-- A block that comes again with other bytes replaces the ones that were there. -/
theorem add_block_overwrites :
    ∃ asm asm', (new 0 1).addBlock 0 [1] = .ok asm ∧ asm.addBlock 0 [2] = .ok asm' ∧
      ¬ ChangesOwnBlock asm asm' 0 := by
  obtain ⟨asm, hasm⟩ : ∃ asm, (new 0 1).addBlock 0 [1] = .ok asm ∧
      asm.buf = [1] ∧ asm.received = [true] ∧ ∃ asm', asm.addBlock 0 [2] = .ok asm' ∧
      asm'.buf = [2] := ⟨_, rfl, rfl, rfl, _, rfl, rfl⟩
  obtain ⟨hnew, hbuf, hreceived, asm', hagain, hbuf'⟩ := hasm
  refine ⟨asm, asm', hnew, hagain, fun h => ?_⟩
  have hsame := h.again (by rw [hreceived]; rfl)
  rw [hsame, hbuf] at hbuf'
  cases hbuf'

/-- The same block is added a second time. -/
theorem add_block_local_again :
    ∃ asm asm', (new 0 1).addBlock 0 [1] = .ok asm ∧ asm.addBlock 0 [1] = .ok asm' ∧
      ChangesOwnBlock asm asm' 0 := by
  obtain ⟨asm, asm', hnew, hagain, hbuf⟩ : ∃ asm asm', (new 0 1).addBlock 0 [1] = .ok asm ∧
      asm.addBlock 0 [1] = .ok asm' ∧ asm.buf = [1] := ⟨_, _, rfl, rfl, rfl⟩
  refine ⟨asm, asm', hnew, hagain, (add_block_local_iff hagain).mpr ⟨?_, fun _ => ?_⟩⟩
  · intro j hj hlt
    have hle : 16384 ≤ j := hj
    have hone : j < 1 := hlt
    omega
  · intro j _ hlt
    obtain rfl : j = 0 := by simpa using hlt
    rw [hbuf]

end Torrentina.Download
