import Torrentina.Core.Overlay
import Torrentina.Download.Assembler
import Mathlib.Data.List.Induction

/-!
# Blocks from any peer

What sequences of blocks do to an assembler. The method works on fields in
memory; as long as no call panics these are the fields of an assembler with its
invariants. Whether a block is accepted depends on the length of the piece, the
offset and the length of the data, and on nothing that came before.
-/

namespace Torrentina.Download

open Torrentina.Core

/-- One call of `add_block`. -/
structure Call where
  begin : UInt32
  data : List UInt8
  deriving DecidableEq

namespace PieceAssembler

/-- The fields of an assembler as memory holds them, with no invariant attached. -/
structure Fields where
  index : Nat
  length : Nat
  buf : List UInt8
  received : List Bool
  remaining : Nat
  deriving DecidableEq

namespace Fields

def new (index length : Nat) : Fields where
  index
  length
  buf := List.replicate length 0
  received := List.replicate (blockCount length) false
  remaining := blockCount length

/-- The fields after a call, and how the call ends. Indexing out of bounds and a
subtraction below zero are panics. -/
def addBlock (asm : Fields) (begin : Nat) (data : List UInt8) : Fields × Except Fault Unit :=
  if begin % blockSize ≠ 0 then
    (asm, .error (.error (.peerProtocol s!"block offset {begin} is not block-aligned")))
  else
    let stop := begin + data.length % 2 ^ 32
    if stop ≥ 2 ^ 32 ∨ stop > asm.length then
      (asm, .error (.error (.peerProtocol
        s!"block [{begin}, {begin}+{data.length}) exceeds piece length {asm.length}")))
    else if asm.buf.length < stop ∨ data.length ≠ stop - begin then
      -- `self.buf[begin..end].copy_from_slice(data)`
      (asm, .error .panic)
    else
      let copied := { asm with buf := copyInto asm.buf begin data }
      match asm.received[begin / blockSize]? with
      | none => (copied, .error .panic)
      | some true => (copied, .ok ())
      | some false =>
        let marked := { copied with received := asm.received.set (begin / blockSize) true }
        if asm.remaining = 0 then (marked, .error .panic)
        else ({ marked with remaining := asm.remaining - 1 }, .ok ())

/-- The fields after a sequence of calls. -/
def afterAll (asm : Fields) (calls : List Call) : Fields :=
  calls.foldl (fun asm call => (asm.addBlock call.begin.toNat call.data).1) asm

/-- The call returns, changes nothing if it returns an error, and leaves the
count of the flags that are still down. -/
structure Behaves (asm : Fields) (call : Call) : Prop where
  returns : (asm.addBlock call.begin.toNat call.data).2 ≠ .error .panic
  unchanged : ∀ e, (asm.addBlock call.begin.toNat call.data).2 = .error e →
    (asm.addBlock call.begin.toNat call.data).1 = asm
  remaining : (asm.addBlock call.begin.toNat call.data).1.remaining =
    (asm.addBlock call.begin.toNat call.data).1.received.count false

end Fields

/-- The fields of an assembler. -/
def fields (asm : PieceAssembler) : Fields :=
  ⟨asm.index, asm.length, asm.buf, asm.received, asm.remaining⟩

/-- The fields determine the assembler. -/
theorem fields_injective {asm asm' : PieceAssembler} (h : asm.fields = asm'.fields) :
    asm = asm' := by
  cases asm
  cases asm'
  simpa [fields] using h

/-- The fields of a fresh assembler. -/
theorem fields_new (index length : Nat) : (new index length).fields = Fields.new index length := rfl

/-- The method on the fields is the function on assemblers, unless it panics. -/
theorem addBlock_cases (asm : PieceAssembler) (begin : Nat) (data : List UInt8) :
    (∃ asm', asm.addBlock begin data = .ok asm' ∧
        asm.fields.addBlock begin data = (asm'.fields, .ok ())) ∨
      (∃ e, asm.addBlock begin data = .error (.error e) ∧
        asm.fields.addBlock begin data = (asm.fields, .error (.error e))) ∨
      asm.addBlock begin data = .error .panic ∧
        (asm.fields.addBlock begin data).2 = .error .panic := by
  by_cases halign : begin % blockSize ≠ 0
  · refine .inr (.inl ⟨_, if_pos halign, if_pos halign⟩)
  by_cases hstop : begin + data.length % 2 ^ 32 ≥ 2 ^ 32 ∨
      begin + data.length % 2 ^ 32 > asm.length
  · exact .inr (.inl ⟨_, (if_neg halign).trans (dif_pos hstop),
      (if_neg halign).trans (if_pos hstop)⟩)
  have haddBlock : asm.addBlock begin data = _ := (if_neg halign).trans (dif_neg hstop)
  have hfields : asm.fields.addBlock begin data = _ := (if_neg halign).trans (if_neg hstop)
  have hbuf : asm.fields.buf.length = asm.length := asm.length_buf
  rw [haddBlock, hfields]
  by_cases hlen : begin + data.length ≠ begin + data.length % 2 ^ 32
  · have hslice : asm.fields.buf.length < begin + data.length % 2 ^ 32 ∨
        data.length ≠ begin + data.length % 2 ^ 32 - begin := by omega
    rw [dif_pos hlen, if_pos hslice]
    exact .inr (.inr ⟨rfl, rfl⟩)
  have hslice : ¬ (asm.fields.buf.length < begin + data.length % 2 ^ 32 ∨
      data.length ≠ begin + data.length % 2 ^ 32 - begin) := by omega
  rw [dif_neg hlen, if_neg hslice]
  split
  · rename_i hr
    have hr' : asm.fields.received[begin / blockSize]? = none := hr
    simp only [hr']
    exact .inr (.inr ⟨trivial, trivial⟩)
  · rename_i hr
    have hr' : asm.fields.received[begin / blockSize]? = some true := hr
    simp only [hr']
    exact .inl ⟨_, rfl, rfl⟩
  · rename_i hr
    have hr' : asm.fields.received[begin / blockSize]? = some false := hr
    have hpos : asm.fields.remaining ≠ 0 := by
      rw [fields, asm.remaining_eq]
      exact (List.count_pos_iff.mpr (List.mem_of_getElem? hr)).ne'
    simp only [hr', if_neg hpos]
    exact .inl ⟨_, rfl, rfl⟩

/-! ## What is accepted -/

/-- The offset is that of a block of the piece, and the data fits. -/
def Accepts (length : Nat) (call : Call) : Prop :=
  call.begin.toNat % blockSize = 0 ∧ call.begin.toNat + call.data.length ≤ length ∧
    call.begin.toNat < length

instance (length : Nat) (call : Call) : Decidable (Accepts length call) :=
  inferInstanceAs (Decidable (_ ∧ _))

/-- An empty block at the end of a piece of whole blocks. -/
def PastEnd (length : Nat) (call : Call) : Prop :=
  call.begin.toNat = length ∧ length % blockSize = 0 ∧ call.data = []

/-- A block begins inside the piece when it has a number. -/
theorem div_lt_blockCount_iff {begin length : Nat} (h : begin % blockSize = 0) :
    begin / blockSize < blockCount length ↔ begin < length := by
  rw [lt_blockCount_iff, Nat.div_mul_cancel (Nat.dvd_of_mod_eq_zero h)]

/-- A block has no flag when it begins at the end or after it. -/
theorem getElem?_received_eq_none_iff {asm : PieceAssembler} {begin : Nat}
    (h : begin % blockSize = 0) : asm.received[begin / blockSize]? = none ↔ asm.length ≤ begin := by
  rw [List.getElem?_eq_none_iff, asm.length_received, ← Nat.not_lt, ← Nat.not_lt,
    div_lt_blockCount_iff h]

/-- The one block that makes an assembler panic. -/
theorem addBlock_eq_panic_iff {asm : PieceAssembler} {call : Call}
    (hasm : asm.length < 2 ^ 32) (hdata : call.data.length < 2 ^ 32) :
    asm.addBlock call.begin.toNat call.data = .error .panic ↔ PastEnd asm.length call := by
  have hmod : call.data.length % 2 ^ 32 = call.data.length := Nat.mod_eq_of_lt hdata
  have hempty : call.data = [] ↔ call.data.length = 0 := List.length_eq_zero_iff.symm
  rw [PastEnd, hempty]
  unfold addBlock
  split
  · rename_i halign
    refine iff_of_false (fun h => by cases h) fun h => halign ?_
    rw [h.1, h.2.1]
  rename_i halign
  have halign := not_not.mp halign
  simp only
  split
  · refine iff_of_false (fun h => by cases h) fun h => ?_
    omega
  split
  · rename_i hlen
    exact absurd (by rw [hmod]) hlen
  split
  · rename_i hr
    have hend := (getElem?_received_eq_none_iff halign).mp hr
    refine iff_of_true rfl ⟨by omega, ?_, by omega⟩
    rwa [show asm.length = call.begin.toNat by omega]
  · rename_i hr
    refine iff_of_false (fun h => by cases h) fun h => ?_
    have hnone := (getElem?_received_eq_none_iff halign).mpr (Nat.le_of_eq h.1.symm)
    rw [hnone] at hr
    cases hr
  · rename_i hr
    refine iff_of_false (fun h => by cases h) fun h => ?_
    have hnone := (getElem?_received_eq_none_iff halign).mpr (Nat.le_of_eq h.1.symm)
    rw [hnone] at hr
    cases hr

/-- A block is accepted whatever came before it, or not at all. -/
theorem addBlock_eq_ok_iff {asm : PieceAssembler} {call : Call} (hasm : asm.length < 2 ^ 32) :
    (∃ asm', asm.addBlock call.begin.toNat call.data = .ok asm') ↔ Accepts asm.length call := by
  constructor
  · rintro ⟨asm', h⟩
    obtain ⟨halign, hfit, -, ⟨old, hold⟩, -⟩ := addBlock_eq_ok h
    refine ⟨halign, hfit, ?_⟩
    rw [← div_lt_blockCount_iff halign, ← asm.length_received]
    exact (List.getElem?_eq_some_iff.mp hold).1
  · rintro ⟨halign, hfit, hlt⟩
    have haddBlock : asm.addBlock call.begin.toNat call.data = _ :=
      (if_neg (not_not.mpr halign)).trans ((dif_neg (by omega)).trans (dif_neg (by omega)))
    rw [haddBlock]
    split
    · rename_i hr
      have hend := (getElem?_received_eq_none_iff halign).mp hr
      omega
    · exact ⟨_, rfl⟩
    · exact ⟨_, rfl⟩

/-! ## No panic but one -/

namespace Fields

/-- One more call comes after the others. -/
theorem afterAll_append (asm : Fields) (calls : List Call) (call : Call) :
    asm.afterAll (calls ++ [call]) =
      ((asm.afterAll calls).addBlock call.begin.toNat call.data).1 := by
  rw [afterAll, List.foldl_append]
  rfl

/-- Fields that no call has panicked on are the fields of an assembler of the piece. -/
theorem exists_afterAll (index length : Nat) (calls : List Call)
    (hcalls : ∀ pre call post (asm : PieceAssembler), calls = pre ++ call :: post →
      asm.length = length → (new index length).afterAll pre = asm.fields →
      asm.addBlock call.begin.toNat call.data ≠ .error .panic) :
    ∃ asm : PieceAssembler, asm.length = length ∧
      (new index length).afterAll calls = asm.fields := by
  induction calls using List.reverseRecOn with
  | nil => exact ⟨PieceAssembler.new index length, rfl, (fields_new index length).symm⟩
  | append_singleton calls call ih =>
    obtain ⟨asm, hlen, hasm⟩ := ih fun pre c post asm h =>
      hcalls pre c (post ++ [call]) asm (by simp [h])
    have hlast := hcalls calls call [] asm rfl hlen hasm
    rw [afterAll_append, hasm]
    rcases addBlock_cases asm call.begin.toNat call.data with
      ⟨asm', hok, heq⟩ | ⟨e, herr, heq⟩ | ⟨hpanic, heq⟩
    · exact ⟨asm', (addBlock_frame hok).2.trans hlen, by rw [heq]⟩
    · exact ⟨asm, hlen, by rw [heq]⟩
    · exact absurd hpanic hlast

/-- A call on the fields of an assembler behaves unless it is the one that panics. -/
theorem behaves_iff {asm : PieceAssembler} {call : Call} (hasm : asm.length < 2 ^ 32)
    (hdata : call.data.length < 2 ^ 32) :
    asm.fields.Behaves call ↔ ¬ PastEnd asm.length call := by
  rw [← addBlock_eq_panic_iff hasm hdata]
  rcases addBlock_cases asm call.begin.toNat call.data with
    ⟨asm', hok, heq⟩ | ⟨e, herr, heq⟩ | ⟨hpanic, heq⟩
  · rw [hok]
    refine iff_of_true ⟨?_, ?_, ?_⟩ nofun
    · rw [heq]
      exact nofun
    · rw [heq]
      exact nofun
    · rw [heq]
      exact asm'.remaining_eq
  · rw [herr]
    refine iff_of_true ⟨?_, ?_, ?_⟩ (fun h => nomatch h)
    · rw [heq]
      exact fun h => nomatch h
    · rw [heq]
      exact fun _ _ => rfl
    · rw [heq]
      exact asm.remaining_eq
  · rw [hpanic]
    exact iff_of_false (fun h => h.returns heq) (not_not.mpr rfl)

end Fields

end PieceAssembler

open PieceAssembler

/-- No sequence of blocks from a peer makes an assembler panic or miscount, unless
one of the blocks is an empty one at the end of a piece of whole blocks. -/
theorem add_block_safe_iff (index length : UInt32) {calls : List Call}
    (hdata : ∀ call ∈ calls, call.data.length ≤ Peer.maxMessageLen - 9) :
    ((Fields.new index.toNat length.toNat).remaining =
        (Fields.new index.toNat length.toNat).received.count false ∧
      ∀ pre call post, calls = pre ++ call :: post →
        ((Fields.new index.toNat length.toNat).afterAll pre).Behaves call) ↔
      ∀ call ∈ calls, ¬ PastEnd length.toNat call := by
  have hlen : length.toNat < 2 ^ 32 := length.toNat_lt
  have hnew : (Fields.new index.toNat length.toNat).remaining =
      (Fields.new index.toNat length.toNat).received.count false :=
    (PieceAssembler.new index.toNat length.toNat).remaining_eq
  rw [and_iff_right hnew]
  have hsmall : ∀ call ∈ calls, call.data.length < 2 ^ 32 := by
    intro call hcall
    exact Nat.lt_of_le_of_lt (hdata call hcall) (by decide)
  constructor
  · intro h call hcall
    obtain ⟨pre, post, rfl⟩ := List.append_of_mem hcall
    have hbefore : ∀ pre' c post' (asm : PieceAssembler), pre = pre' ++ c :: post' →
        asm.length = length.toNat →
        (Fields.new index.toNat length.toNat).afterAll pre' = asm.fields →
        asm.addBlock c.begin.toNat c.data ≠ .error .panic := by
      intro pre' c post' asm he hasm hfields
      have hmem : c ∈ pre ++ call :: post := by simp [he]
      have hbehaves := h pre' c (post' ++ call :: post) (by simp [he])
      rw [hfields, Fields.behaves_iff (hasm ▸ hlen) (hsmall c hmem)] at hbehaves
      rwa [ne_eq, addBlock_eq_panic_iff (hasm ▸ hlen) (hsmall c hmem)]
    obtain ⟨asm, hasm, hpre⟩ := Fields.exists_afterAll index.toNat length.toNat pre hbefore
    have hbehaves := h pre call post rfl
    rw [hpre, Fields.behaves_iff (hasm ▸ hlen) (hsmall call hcall), hasm] at hbehaves
    exact hbehaves
  · rintro h pre call post rfl
    have hbefore : ∀ pre' c post' (asm : PieceAssembler), pre = pre' ++ c :: post' →
        asm.length = length.toNat →
        (Fields.new index.toNat length.toNat).afterAll pre' = asm.fields →
        asm.addBlock c.begin.toNat c.data ≠ .error .panic := by
      intro pre' c post' asm he hasm _
      have hmem : c ∈ pre ++ call :: post := by simp [he]
      rw [ne_eq, addBlock_eq_panic_iff (hasm ▸ hlen) (hsmall c hmem), hasm]
      exact h c hmem
    obtain ⟨asm, hasm, hpre⟩ := Fields.exists_afterAll index.toNat length.toNat pre hbefore
    have hmem : call ∈ pre ++ call :: post := by simp
    rw [hpre, Fields.behaves_iff (hasm ▸ hlen) (hsmall call hmem), hasm]
    exact h call hmem

/-- An empty block at the end of a piece of one whole block. -/
def pastEndCall : Call := ⟨16384, []⟩

/-- It indexes the flags out of bounds. -/
theorem add_block_panics :
    ((Fields.new 0 16384).addBlock pastEndCall.begin.toNat pastEndCall.data).2 =
      .error .panic := by
  have hpanic : (PieceAssembler.new 0 16384).addBlock pastEndCall.begin.toNat pastEndCall.data =
      .error .panic := by
    rw [addBlock_eq_panic_iff (show 16384 < 2 ^ 32 by decide) (by decide)]
    exact ⟨rfl, rfl, rfl⟩
  rcases addBlock_cases (PieceAssembler.new 0 16384) pastEndCall.begin.toNat pastEndCall.data with
    ⟨asm', hok, -⟩ | ⟨e, herr, -⟩ | ⟨-, heq⟩
  · rw [hpanic] at hok
    cases hok
  · rw [hpanic] at herr
    cases herr
  · exact heq

/-- A short block and then the last one. -/
theorem add_block_safe_short :
    ((Fields.new 0 20000).afterAll [⟨0, [1, 2]⟩]).Behaves ⟨16384, []⟩ := by
  have hdata : ∀ call ∈ [(⟨0, [1, 2]⟩ : Call), ⟨16384, []⟩],
      call.data.length ≤ Peer.maxMessageLen - 9 := by decide
  have h := (add_block_safe_iff 0 20000 hdata).mpr (by unfold PastEnd; decide)
  exact h.2 [⟨0, [1, 2]⟩] ⟨16384, []⟩ [] rfl

end Torrentina.Download
