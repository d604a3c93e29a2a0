import Torrentina.Core.Stream
import Torrentina.Peer.Codec

/-!
# What a connection makes of its bytes

The peer at the other end sends any bytes, cut in any way. They are read as the
longest row of frames they begin with. What stays in the buffer is less than one
frame, and the connection fails only at bytes that no frame begins with.
-/

namespace Torrentina.Peer.PeerCodec

open Torrentina.Core

/-- The frames the decoder splits off are the encodings of messages of at most
`MAX_MESSAGE_LEN` bytes. -/
theorem decode_eq_some_encode_iff (src : List UInt8) (m : Message) (r : List UInt8) :
    peerFraming.decode src = (.ok (some m), r) ↔
      src = encode m ++ r ∧ m.body.length ≤ maxMessageLen := by
  refine decode_eq_some_iff.trans (and_congr_left fun hm => ?_)
  rw [encode_eq (payload_lt_of_body hm)]

/-- What is not yet a frame is shorter than the longest frame. -/
theorem Incomplete.length_lt {src : List UInt8} (h : Incomplete src) :
    src.length < 4 + maxMessageLen := by
  rcases h with h | ⟨-, hle, hlt⟩
  · omega
  · omega

/-- Whatever bytes arrive, in whatever chunks, the messages received are the only row of
frames after which the decoder waits or fails. While it waits, less than one frame is in
the buffer; and it fails with the error of the first bytes that do not decode. -/
theorem stream_parses (chunks : List (List UInt8)) (ms : List Message) :
    (∀ rest, peerFraming.feed [] chunks = (ms, .ok rest) ↔
      chunks.flatten = ms.flatMap encode ++ rest ∧ (∀ m ∈ ms, m.body.length ≤ maxMessageLen) ∧
        Incomplete rest ∧ rest.length < 4 + maxMessageLen) ∧
    ∀ e, peerFraming.feed [] chunks = (ms, .error e) ↔
      ∃ rest, chunks.flatten = ms.flatMap encode ++ rest ∧
        (∀ m ∈ ms, m.body.length ≤ maxMessageLen) ∧ (decode rest).1 = .error e := by
  have hempty : (peerFraming.decode []).1 = .ok none := rfl
  have hfeed : peerFraming.feed [] chunks = peerFraming.drain chunks.flatten := by
    rw [peerFraming.feed_eq_drain (peerFraming.drain_none hempty), List.nil_append]
  rw [hfeed]
  refine ⟨fun rest => ?_, fun e => ?_⟩
  · rw [Framing.drain_eq_iff decode_eq_some_encode_iff]
    constructor
    · rintro ⟨rest', hs, hall, hdrain⟩
      obtain ⟨hnone, rfl⟩ := Framing.drain_eq_ok_nil_iff.mp hdrain
      have hi := decode_eq_none_iff.mp hnone
      exact ⟨hs, hall, hi, hi.length_lt⟩
    · rintro ⟨hs, hall, hi, -⟩
      exact ⟨rest, hs, hall,
        Framing.drain_eq_ok_nil_iff.mpr ⟨decode_eq_none_iff.mpr hi, rfl⟩⟩
  · rw [Framing.drain_eq_iff decode_eq_some_encode_iff]
    simp only [Framing.drain_eq_error_nil_iff]
    rfl

end Torrentina.Peer.PeerCodec
