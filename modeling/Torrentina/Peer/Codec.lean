import Torrentina.Core.Framing
import Torrentina.Peer.Message

/-!
# The peer codec accepts exactly the encoder's image

The two tables meet at `Message.body`, the id byte and payload of a message: the
encoder writes a body behind its length, and the payload table accepts a body
exactly when it is the body of the message it returns. Everything else is the
length prefix. The decoder therefore obeys the laws of incremental framing, and
the messages of a stream do not depend on its chunks.
-/

namespace Torrentina.Peer

open Torrentina.Core

/-! ## Wire integers -/

@[simp] theorem length_putU32 (x : UInt32) : (putU32 x).length = 4 := length_toBE 4 _

@[simp] theorem length_putU16 (x : UInt16) : (putU16 x).length = 2 := length_toBE 2 _

/-- The bytes of a `u32` have its value. -/
theorem ofBE_putU32 (x : UInt32) : ofBE (putU32 x) = x.toNat :=
  ofBE_toBE_of_lt x.toNat_lt

/-- The bytes of a `u16` have its value. -/
theorem ofBE_putU16 (x : UInt16) : ofBE (putU16 x) = x.toNat :=
  ofBE_toBE_of_lt x.toNat_lt

/-- A `u32` that was written is read back, and the rest is left. -/
theorem getU32_putU32 (x : UInt32) (r : List UInt8) : getU32 (putU32 x ++ r) = (x, r) := by
  rw [getU32, List.take_left' (length_putU32 x), List.drop_left' (length_putU32 x), ofBE_putU32,
    UInt32.ofNat_toNat]

/-- A `u16` that was written is read back, and the rest is left. -/
theorem getU16_putU16 (x : UInt16) (r : List UInt8) : getU16 (putU16 x ++ r) = (x, r) := by
  rw [getU16, List.take_left' (length_putU16 x), List.drop_left' (length_putU16 x), ofBE_putU16,
    UInt16.ofNat_toNat]

/-- A four-byte read consumes exactly the bytes a four-byte write produces. -/
theorem putU32_getU32 (body : List UInt8) (h : 4 ≤ body.length) :
    putU32 (getU32 body).1 ++ (getU32 body).2 = body := by
  have hl : (body.take 4).length = 4 := by simp only [List.length_take]; omega
  have hlt : ofBE (body.take 4) < 2 ^ 32 := by
    have := ofBE_lt (body.take 4)
    rw [hl] at this
    exact this
  have hb := toBE_ofBE (body.take 4)
  rw [hl] at hb
  rw [getU32, putU32, UInt32.toNat_ofNat_of_lt' hlt, hb, List.take_append_drop]

/-- Two bytes that are read are written back. -/
theorem putU16_getU16 (body : List UInt8) (h : 2 ≤ body.length) :
    putU16 (getU16 body).1 ++ (getU16 body).2 = body := by
  have hl : (body.take 2).length = 2 := by simp only [List.length_take]; omega
  have hlt : ofBE (body.take 2) < 2 ^ 16 := by
    have := ofBE_lt (body.take 2)
    rw [hl] at this
    exact this
  have hb := toBE_ofBE (body.take 2)
  rw [hl] at hb
  rw [getU16, putU16, UInt16.toNat_ofNat_of_lt' hlt, hb, List.take_append_drop]

@[simp] theorem length_getU32 (body : List UInt8) : (getU32 body).2.length = body.length - 4 := by
  simp [getU32]

@[simp] theorem length_getU16 (body : List UInt8) : (getU16 body).2.length = body.length - 2 := by
  simp [getU16]

/-- A payload of four bytes is the number read from it. -/
theorem putU32_of_length {body : List UInt8} (h : body.length = 4) :
    putU32 (getU32 body).1 = body := by
  have hr : (getU32 body).2 = [] := List.length_eq_zero_iff.mp (by rw [length_getU32]; omega)
  have hb := putU32_getU32 body (by omega)
  rwa [hr, List.append_nil] at hb

/-- Two bytes are those of the `u16` they are read as. -/
theorem putU16_of_length {body : List UInt8} (h : body.length = 2) :
    putU16 (getU16 body).1 = body := by
  have hr : (getU16 body).2 = [] := List.length_eq_zero_iff.mp (by rw [length_getU16]; omega)
  have hb := putU16_getU16 body (by omega)
  rwa [hr, List.append_nil] at hb

/-! ## Message bodies -/

/-- The twelve bytes that name a block. -/
def BlockInfo.bytes (b : BlockInfo) : List UInt8 :=
  putU32 b.index ++ putU32 b.begin ++ putU32 b.length

@[simp] theorem BlockInfo.length_bytes (b : BlockInfo) : b.bytes.length = 12 := by
  simp [BlockInfo.bytes]

/-- The id byte and payload of a message; a keep-alive has neither. -/
def Message.body : Message → List UInt8
  | .keepAlive => []
  | .choke => [MessageId.choke]
  | .unchoke => [MessageId.unchoke]
  | .interested => [MessageId.interested]
  | .notInterested => [MessageId.notInterested]
  | .have index => MessageId.have_ :: putU32 index
  | .bitfield bits => MessageId.bitfield :: bits
  | .request b => MessageId.request :: b.bytes
  | .piece block => MessageId.piece :: (putU32 block.index ++ putU32 block.begin ++ block.data)
  | .cancel b => MessageId.cancel :: b.bytes
  | .port p => MessageId.port :: putU16 p

namespace PeerCodec

/-- A request that was written is read back. -/
theorem readBlockInfo_bytes (b : BlockInfo) : readBlockInfo b.bytes = b := by
  have h : b.bytes = putU32 b.index ++ (putU32 b.begin ++ (putU32 b.length ++ [])) := by
    simp [BlockInfo.bytes]
  rw [h, readBlockInfo]
  simp only [getU32_putU32]

/-- Twelve bytes are those of the request they are read as. -/
theorem bytes_readBlockInfo {body : List UInt8} (h : body.length = 12) :
    (readBlockInfo body).bytes = body := by
  obtain ⟨rest, hrest⟩ : ∃ rest, rest = (getU32 body).2 := ⟨_, rfl⟩
  obtain ⟨rest', hrest'⟩ : ∃ rest', rest' = (getU32 rest).2 := ⟨_, rfl⟩
  have hlen : rest.length = 8 := by
    rw [hrest, length_getU32, h]
  have hlen' : rest'.length = 4 := by
    rw [hrest', length_getU32, hlen]
  calc (readBlockInfo body).bytes
      = putU32 (getU32 body).1 ++ (putU32 (getU32 rest).1 ++ putU32 (getU32 rest').1) := by
        rw [hrest', hrest, BlockInfo.bytes, List.append_assoc]
        rfl
    _ = putU32 (getU32 body).1 ++ (putU32 (getU32 rest).1 ++ rest') := by
        rw [putU32_of_length hlen']
    _ = putU32 (getU32 body).1 ++ rest := by
        rw [hrest', putU32_getU32 rest (by omega)]
    _ = body := by
        rw [hrest, putU32_getU32 body (by omega)]

/-- A passed length check continues with the message. -/
private theorem expectLen_bind {body : List UInt8} {n : Nat} {name : String} {m : Message}
    (h : body.length = n) : (expectLen body n name >>= fun _ => pure m) = .ok m := by
  rw [expectLen, if_pos h]
  rfl

private theorem expectLen_bind_ok {body : List UInt8} {n : Nat} {name : String} {m m' : Message}
    (h : (expectLen body n name >>= fun _ => pure m) = .ok m') : body.length = n ∧ m = m' := by
  by_cases hl : body.length = n
  · rw [expectLen_bind hl] at h
    exact ⟨hl, Except.ok.inj h⟩
  · rw [expectLen, if_neg hl] at h
    cases h

private theorem expectEmpty_ok {body : List UInt8} {name : String} {m m' : Message}
    (h : expectEmpty body m name = .ok m') : body = [] ∧ m = m' := by
  rw [expectEmpty] at h
  split at h
  · rename_i he
    exact ⟨List.isEmpty_iff.mp he, Except.ok.inj h⟩
  · cases h

private theorem decodeBody_piece {body : List UInt8} (h : 8 ≤ body.length) :
    decodeBody MessageId.piece body = .ok (.piece ⟨(getU32 body).1, (getU32 (getU32 body).2).1,
      (getU32 (getU32 body).2).2⟩) := by
  change (expectMinLen body 8 "piece" >>= fun _ => pure _) = _
  rw [expectMinLen, if_pos h]
  rfl

/-- The payload table reads every encodable body back. -/
theorem decodeBody_body {m : Message} {msgId : UInt8} {body : List UInt8}
    (h : m.body = msgId :: body) : decodeBody msgId body = .ok m := by
  cases m with
  | keepAlive => simp [Message.body] at h
  | choke | unchoke | interested | notInterested | bitfield bits =>
    obtain ⟨rfl, rfl⟩ := List.cons.inj h
    rfl
  | «have» index =>
    obtain ⟨rfl, rfl⟩ := List.cons.inj h
    have hg : (getU32 (putU32 index)).1 = index := by
      simpa using congrArg Prod.fst (getU32_putU32 index [])
    change (expectLen (putU32 index) 4 "have" >>= fun _ =>
      pure (Message.have (getU32 (putU32 index)).1)) = _
    rw [expectLen_bind (length_putU32 index), hg]
  | request b =>
    obtain ⟨rfl, rfl⟩ := List.cons.inj h
    change (expectLen b.bytes 12 "request" >>= fun _ =>
      pure (Message.request (readBlockInfo b.bytes))) = _
    rw [expectLen_bind b.length_bytes, readBlockInfo_bytes]
  | piece block =>
    obtain ⟨rfl, rfl⟩ := List.cons.inj h
    have hl : 8 ≤ (putU32 block.index ++ (putU32 block.begin ++ block.data)).length := by
      simp only [List.length_append, length_putU32]
      omega
    rw [List.append_assoc]
    exact (decodeBody_piece hl).trans (by simp only [getU32_putU32])
  | cancel b =>
    obtain ⟨rfl, rfl⟩ := List.cons.inj h
    change (expectLen b.bytes 12 "cancel" >>= fun _ =>
      pure (Message.cancel (readBlockInfo b.bytes))) = _
    rw [expectLen_bind b.length_bytes, readBlockInfo_bytes]
  | port p =>
    obtain ⟨rfl, rfl⟩ := List.cons.inj h
    have hg : (getU16 (putU16 p)).1 = p := by
      simpa using congrArg Prod.fst (getU16_putU16 p [])
    change (expectLen (putU16 p) 2 "port" >>= fun _ =>
      pure (Message.port (getU16 (putU16 p)).1)) = _
    rw [expectLen_bind (length_putU16 p), hg]

/-- The payload table accepts nothing but the body of the message it returns. -/
theorem body_of_decodeBody {m : Message} {msgId : UInt8} {body : List UInt8}
    (h : decodeBody msgId body = .ok m) : m.body = msgId :: body := by
  rw [decodeBody] at h
  by_cases h0 : msgId = MessageId.choke
  · rw [if_pos h0] at h
    obtain ⟨rfl, rfl⟩ := expectEmpty_ok h
    rw [h0, Message.body]
  rw [if_neg h0] at h
  by_cases h1 : msgId = MessageId.unchoke
  · rw [if_pos h1] at h
    obtain ⟨rfl, rfl⟩ := expectEmpty_ok h
    rw [h1, Message.body]
  rw [if_neg h1] at h
  by_cases h2 : msgId = MessageId.interested
  · rw [if_pos h2] at h
    obtain ⟨rfl, rfl⟩ := expectEmpty_ok h
    rw [h2, Message.body]
  rw [if_neg h2] at h
  by_cases h3 : msgId = MessageId.notInterested
  · rw [if_pos h3] at h
    obtain ⟨rfl, rfl⟩ := expectEmpty_ok h
    rw [h3, Message.body]
  rw [if_neg h3] at h
  by_cases h4 : msgId = MessageId.have_
  · rw [if_pos h4] at h
    obtain ⟨hl, rfl⟩ := expectLen_bind_ok h
    rw [h4, Message.body, putU32_of_length hl]
  rw [if_neg h4] at h
  by_cases h5 : msgId = MessageId.bitfield
  · rw [if_pos h5] at h
    obtain rfl := Except.ok.inj h
    rw [h5, Message.body]
  rw [if_neg h5] at h
  by_cases h6 : msgId = MessageId.request
  · rw [if_pos h6] at h
    obtain ⟨hl, rfl⟩ := expectLen_bind_ok h
    rw [h6, Message.body, bytes_readBlockInfo hl]
  rw [if_neg h6] at h
  by_cases h7 : msgId = MessageId.piece
  · rw [if_pos h7] at h
    have hl : 8 ≤ body.length := by
      by_contra hl
      rw [expectMinLen, if_neg hl] at h
      cases h
    have e₁ := putU32_getU32 body (by omega)
    have e₂ := putU32_getU32 (getU32 body).2 (by rw [length_getU32]; omega)
    rw [expectMinLen, if_pos hl] at h
    obtain rfl : Message.piece ⟨(getU32 body).1, (getU32 (getU32 body).2).1,
      (getU32 (getU32 body).2).2⟩ = m := Except.ok.inj h
    rw [h7, Message.body, List.append_assoc, e₂, e₁]
  rw [if_neg h7] at h
  by_cases h8 : msgId = MessageId.cancel
  · rw [if_pos h8] at h
    obtain ⟨hl, rfl⟩ := expectLen_bind_ok h
    rw [h8, Message.body, bytes_readBlockInfo hl]
  rw [if_neg h8] at h
  by_cases h9 : msgId = MessageId.port
  · rw [if_pos h9] at h
    obtain ⟨hl, rfl⟩ := expectLen_bind_ok h
    rw [h9, Message.body, putU16_of_length hl]
  rw [if_neg h9] at h
  cases h

/-- The payload table inverts `Message.body`. -/
theorem decodeBody_eq_ok_iff {m : Message} {msgId : UInt8} {body : List UInt8} :
    decodeBody msgId body = .ok m ↔ m.body = msgId :: body :=
  ⟨body_of_decodeBody, decodeBody_body⟩

/-! ## Frames -/

/-- A message whose length field does not wrap is written as its length and its body. -/
theorem encode_eq {m : Message} (h : m.payload.length < 2 ^ 32 - 9) :
    encode m = toBE 4 m.body.length ++ m.body := by
  cases m with
  | keepAlive | choke | unchoke | interested | notInterested => rfl
  | «have» index =>
    simp only [encode, Message.body, List.length_cons, length_putU32, List.append_assoc]
    rfl
  | bitfield bits =>
    have hn : (1 + UInt32.ofNat bits.length).toNat = bits.length + 1 := by
      simp only [Message.payload] at h
      rw [UInt32.toNat_add, UInt32.toNat_ofNat', UInt32.toNat_one]
      omega
    simp only [encode, Message.body, List.length_cons, putU32, hn, List.append_assoc]
    rfl
  | request b | cancel b =>
    simp only [encode, putBlockInfo, Message.body, List.length_cons, BlockInfo.bytes,
      List.append_assoc]
    rfl
  | piece block =>
    have hn : (9 + UInt32.ofNat block.data.length).toNat = 4 + (4 + block.data.length) + 1 := by
      simp only [Message.payload] at h
      have h9 : (9 : UInt32).toNat = 9 := rfl
      rw [UInt32.toNat_add, UInt32.toNat_ofNat', h9]
      omega
    simp only [encode, Message.body, List.length_cons, List.length_append, length_putU32,
      List.append_assoc]
    rw [putU32, hn]
    rfl
  | port p =>
    simp only [encode, Message.body, List.length_cons, length_putU16, List.append_assoc]
    rfl

/-- The first four bytes of a frame declare the length of its body. -/
theorem declaredLen_frame {n : Nat} (h : n < 2 ^ 32) (r : List UInt8) :
    declaredLen (toBE 4 n ++ r) = n := by
  rw [declaredLen, List.take_left' (length_toBE 4 n), ofBE_toBE_of_lt h]

/-- The declared length does not depend on what follows. -/
theorem declaredLen_append {src : List UInt8} (h : 4 ≤ src.length) (t : List UInt8) :
    declaredLen (src ++ t) = declaredLen src := by
  rw [declaredLen, List.take_append_of_le_length h, declaredLen]

/-- The buffers that hold no complete frame yet. -/
def Incomplete (src : List UInt8) : Prop :=
  src.length < 4 ∨
    1 ≤ declaredLen src ∧ declaredLen src ≤ maxMessageLen ∧ src.length < 4 + declaredLen src

/-- An incomplete frame is waited for. -/
theorem decode_incomplete {src : List UInt8} (h : Incomplete src) :
    decode src = (.ok none, src) := by
  rw [decode]
  rcases h with h | ⟨h1, hm, hl⟩
  · rw [if_pos h]
  · by_cases h4 : src.length < 4
    · rw [if_pos h4]
    · rw [if_neg h4, if_neg (by omega), if_neg (by omega), if_pos hl]

/-- A frame of length zero is a keep-alive. -/
theorem decode_keepAlive {src : List UInt8} (h4 : 4 ≤ src.length) (h0 : declaredLen src = 0) :
    decode src = (.ok (some .keepAlive), src.drop 4) := by
  rw [decode, if_neg (by omega), if_pos h0]

/-- A declared length above the maximum is an error. -/
theorem decode_oversized {src : List UInt8} (h4 : 4 ≤ src.length)
    (hm : maxMessageLen < declaredLen src) :
    decode src = (.error (.peerProtocol
      s!"declared message length {declaredLen src} exceeds maximum {maxMessageLen}"), src) := by
  rw [decode, if_neg (by omega), if_neg (by omega), if_pos hm]

/-- A complete frame is decoded and taken off the buffer. -/
theorem decode_frame {src : List UInt8} (h4 : 4 ≤ src.length) (h0 : declaredLen src ≠ 0)
    (hm : declaredLen src ≤ maxMessageLen) (hl : 4 + declaredLen src ≤ src.length) :
    decode src = ((decodeBody (((src.drop 4).take (declaredLen src)).headD 0)
        ((src.drop 4).take (declaredLen src)).tail).map some,
      (src.drop 4).drop (declaredLen src)) := by
  rw [decode, if_neg (by omega), if_neg h0, if_neg (by omega), if_neg (by omega)]

/-- Decoding a frame returns its message and leaves what follows it. -/
theorem decode_body_append {m : Message} (hm : m.body.length ≤ maxMessageLen) (r : List UInt8) :
    decode (toBE 4 m.body.length ++ m.body ++ r) = (.ok (some m), r) := by
  have hlt : m.body.length < 2 ^ 32 := hm.trans_lt (by decide)
  rw [List.append_assoc]
  have hd := declaredLen_frame hlt (m.body ++ r)
  have hdrop : (toBE 4 m.body.length ++ (m.body ++ r)).drop 4 = m.body ++ r :=
    List.drop_left' (length_toBE 4 _)
  cases hb : m.body with
  | nil =>
    have hk : m = .keepAlive := by cases m <;> simp [Message.body] at hb ⊢
    rw [hb] at hd hdrop
    rw [decode_keepAlive (by simp) hd, hdrop, hk]
    rfl
  | cons msgId body =>
    rw [hb] at hd hdrop hm
    rw [decode_frame (by simp) (by rw [hd]; simp) (by rw [hd]; exact hm) (by rw [hd]; simp),
      hd, hdrop, List.take_left' rfl, List.drop_left' rfl]
    simp only [List.headD_cons, List.tail_cons, decodeBody_body hb]
    rfl

/-- A decoded message was a frame at the front of the buffer. -/
theorem eq_of_decode {src r : List UInt8} {m : Message} (h : decode src = (.ok (some m), r)) :
    src = toBE 4 m.body.length ++ m.body ++ r ∧ m.body.length ≤ maxMessageLen := by
  by_cases hi : Incomplete src
  · rw [decode_incomplete hi] at h
    simp at h
  simp only [Incomplete, not_or, not_and, not_lt] at hi
  obtain ⟨h4, hi⟩ := hi
  have hpre : toBE 4 (declaredLen src) = src.take 4 := by
    have := toBE_ofBE (src.take 4)
    rwa [List.length_take, Nat.min_eq_left h4] at this
  by_cases h0 : declaredLen src = 0
  · rw [decode_keepAlive h4 h0] at h
    obtain ⟨he, rfl⟩ := Prod.mk.inj h
    obtain rfl : Message.keepAlive = m := Option.some.inj (Except.ok.inj he)
    rw [h0] at hpre
    refine ⟨?_, Nat.zero_le _⟩
    rw [Message.body, List.length_nil, hpre, List.append_nil, List.take_append_drop]
  by_cases hm : maxMessageLen < declaredLen src
  · rw [decode_oversized h4 hm] at h
    simp at h
  have hl := hi (by omega) (by omega)
  rw [decode_frame h4 h0 (by omega) hl] at h
  obtain ⟨he, rfl⟩ := Prod.mk.inj h
  have hlen : ((src.drop 4).take (declaredLen src)).length = declaredLen src := by
    rw [List.length_take, List.length_drop]
    omega
  cases hb : (src.drop 4).take (declaredLen src) with
  | nil =>
    rw [hb] at hlen
    exact absurd hlen.symm h0
  | cons msgId body =>
    rw [hb] at he hlen
    cases hd : decodeBody msgId body with
    | error e =>
      rw [List.headD_cons, List.tail_cons, hd] at he
      cases he
    | ok m' =>
      rw [List.headD_cons, List.tail_cons, hd] at he
      obtain rfl : m' = m := Option.some.inj (Except.ok.inj he)
      rw [decodeBody_eq_ok_iff.mp hd, hlen, hpre, ← hb, List.append_assoc, List.take_append_drop,
        List.take_append_drop]
      exact ⟨rfl, by omega⟩

/-- A message is decoded exactly when the buffer begins with its frame. -/
theorem decode_eq_some_iff {src r : List UInt8} {m : Message} :
    decode src = (.ok (some m), r) ↔
      src = toBE 4 m.body.length ++ m.body ++ r ∧ m.body.length ≤ maxMessageLen :=
  ⟨eq_of_decode, fun ⟨hs, hm⟩ => hs ▸ decode_body_append hm r⟩

/-- The decoder asks for more bytes exactly on the buffers that hold no complete frame. -/
theorem decode_eq_none_iff {src : List UInt8} : (decode src).1 = .ok none ↔ Incomplete src := by
  constructor
  · intro h
    by_contra hi
    simp only [Incomplete, not_or, not_and, not_lt] at hi
    obtain ⟨h4, hi⟩ := hi
    by_cases h0 : declaredLen src = 0
    · simp [decode_keepAlive h4 h0] at h
    by_cases hm : maxMessageLen < declaredLen src
    · simp [decode_oversized h4 hm] at h
    rw [decode_frame h4 h0 (by omega) (hi (by omega) (by omega))] at h
    cases hd : decodeBody (((src.drop 4).take (declaredLen src)).headD 0)
        ((src.drop 4).take (declaredLen src)).tail with
    | error e =>
      rw [hd] at h
      cases h
    | ok m =>
      rw [hd] at h
      cases h
  · intro h
    rw [decode_incomplete h]

/-- A body within the message limit leaves the length field far from wrapping. -/
theorem payload_lt_of_body {m : Message} (h : m.body.length ≤ maxMessageLen) :
    m.payload.length < 2 ^ 32 - 9 := by
  have hle : m.payload.length ≤ m.body.length := by
    cases m <;> simp [Message.body, Message.payload]
    omega
  exact (hle.trans h).trans_lt (by decide)

/-- For a message whose length field does not wrap, the declared length is the body's. -/
theorem declaredLen_encode {m : Message} (h : m.payload.length < 2 ^ 32 - 9) :
    declaredLen (encode m) = m.body.length := by
  have hlt : m.body.length < 2 ^ 32 := by
    cases m <;> simp [Message.body, Message.payload] at h ⊢ <;> omega
  rw [encode_eq h, declaredLen_frame hlt]

/-- The decoder accepts exactly the encoder's image, waits exactly on incomplete
frames without touching them, and rejects everything else. -/
theorem decode_accepts_encoder_image (src : List UInt8) :
    (∀ (m : Message) (r : List UInt8), m.payload.length < 2 ^ 32 - 9 →
      (decode src = (.ok (some m), r) ↔
        src = encode m ++ r ∧ declaredLen (encode m) ≤ maxMessageLen)) ∧
    ((decode src).1 = .ok none ↔ src.length < 4 ∨
      1 ≤ declaredLen src ∧ declaredLen src ≤ maxMessageLen ∧
        src.length < 4 + declaredLen src) ∧
    ((decode src).1 = .ok none → (decode src).2 = src) ∧
    ((¬ ∃ (m : Message) (r : List UInt8), m.payload.length < 2 ^ 32 - 9 ∧
        src = encode m ++ r ∧ declaredLen (encode m) ≤ maxMessageLen) →
      ¬ (src.length < 4 ∨ 1 ≤ declaredLen src ∧ declaredLen src ≤ maxMessageLen ∧
        src.length < 4 + declaredLen src) →
      ∃ e, (decode src).1 = .error e) := by
  have himage : ∀ (m : Message) (r : List UInt8), m.payload.length < 2 ^ 32 - 9 →
      (decode src = (.ok (some m), r) ↔
        src = encode m ++ r ∧ declaredLen (encode m) ≤ maxMessageLen) := by
    intro m r hp
    rw [decode_eq_some_iff, declaredLen_encode hp, encode_eq hp]
  refine ⟨himage, decode_eq_none_iff, fun h => ?_, fun hs hn => ?_⟩
  · rw [decode_incomplete (decode_eq_none_iff.mp h)]
  · cases hd : (decode src).1 with
    | error e => exact ⟨e, rfl⟩
    | ok o =>
      cases o with
      | none => exact absurd (decode_eq_none_iff.mp hd) hn
      | some m =>
        have hdec : decode src = (.ok (some m), (decode src).2) := Prod.ext hd rfl
        have hp := payload_lt_of_body (decode_eq_some_iff.mp hdec).2
        exact absurd ⟨m, _, hp, (himage m _ hp).mp hdec⟩ hs

/-- A `have` frame with a stray byte behind it, and the same frame cut short. -/
theorem decode_accepts_have_frame :
    decode (encode (.have 7) ++ [0]) = (.ok (some (.have 7)), [0]) ∧
      (decode [0, 0, 0, 5, 4]).1 = .ok none :=
  ⟨((decode_accepts_encoder_image _).1 (.have 7) [0] (by decide)).mpr ⟨rfl, by decide⟩,
    (decode_accepts_encoder_image [0, 0, 0, 5, 4]).2.1.mpr (by decide)⟩

/-! ## Framing -/

/-- The peer codec obeys the laws of incremental framing. -/
def peerFraming : Framing UInt8 Message Error where
  decode := decode
  none_keeps s h := by rw [decode_incomplete (decode_eq_none_iff.mp h)]
  some_shorter s m h := by
    have hs := (decode_eq_some_iff.mp (Prod.ext h rfl : decode s = (.ok (some m), (decode s).2))).1
    have hl := congrArg List.length hs
    simp only [List.length_append, length_toBE] at hl
    omega
  some_append s t m h := by
    obtain ⟨hs, hm⟩ :=
      decode_eq_some_iff.mp (Prod.ext h rfl : decode s = (.ok (some m), (decode s).2))
    apply decode_eq_some_iff.mpr
    exact ⟨by rw [← List.append_assoc, ← hs], hm⟩
  error_append s t e h := by
    have hi : ¬ Incomplete s := fun hi => by simp [decode_incomplete hi] at h
    simp only [Incomplete, not_or, not_and, not_lt] at hi
    obtain ⟨h4, hi⟩ := hi
    have h4' : 4 ≤ (s ++ t).length := by rw [List.length_append]; omega
    have hd := declaredLen_append h4 t
    by_cases h0 : declaredLen s = 0
    · simp [decode_keepAlive h4 h0] at h
    by_cases hm : maxMessageLen < declaredLen s
    · rw [decode_oversized h4 hm] at h
      rw [decode_oversized h4' (by rw [hd]; exact hm), hd]
      exact h
    have hl := hi (by omega) (by omega)
    rw [decode_frame h4 h0 (by omega) hl] at h
    rw [decode_frame h4' (by omega) (by omega) (by rw [hd, List.length_append]; omega), hd,
      List.drop_append_of_le_length h4,
      List.take_append_of_le_length (by rw [List.length_drop]; omega)]
    exact h

/-- Draining a stream gives the same messages and the same outcome however it is
cut into chunks, and a stream of encoded messages gives back the messages. -/
theorem chunking_independent (s : List UInt8) (chunks : List (List UInt8))
    (hs : chunks.flatten = s) :
    peerFraming.feed [] chunks = peerFraming.drain s ∧
    ∀ ms : List Message, (∀ m ∈ ms, m.body.length ≤ maxMessageLen) → s = ms.flatMap encode →
      peerFraming.feed [] chunks = (ms, .ok []) := by
  have hempty : (peerFraming.decode []).1 = .ok none := rfl
  have hfeed : peerFraming.feed [] chunks = peerFraming.drain s := by
    rw [peerFraming.feed_eq_drain (peerFraming.drain_none hempty), List.nil_append, hs]
  refine ⟨hfeed, fun ms hms henc => ?_⟩
  rw [hfeed, henc]
  apply peerFraming.drain_flatMap encode hempty
  intro m hm r
  rw [encode_eq (payload_lt_of_body (hms m hm))]
  exact decode_body_append (hms m hm) r

/-- Two messages cut inside a length prefix and inside a body. -/
theorem chunking_independent_two_messages :
    peerFraming.feed [] [[0, 0], [0, 1, 1, 0, 0, 0, 5, 4, 0], [0, 0, 9]] =
      ([.unchoke, .have 9], .ok []) :=
  (chunking_independent _ [[0, 0], [0, 1, 1, 0, 0, 0, 5, 4, 0], [0, 0, 9]] rfl).2
    [.unchoke, .have 9] (by decide) (by decide)

end PeerCodec

end Torrentina.Peer
