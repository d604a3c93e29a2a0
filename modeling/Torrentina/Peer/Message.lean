import Torrentina.Core.BigEndian
import Torrentina.Error

/-!
# Peer wire messages and their length-prefixed framing

Every message is a big-endian `u32` length, an id byte and a payload; the
keep-alive is a bare length of zero. The encoder and the decoder are two
separate tables, as in the source. The buffer a decoder call leaves behind is
returned with its result.
-/

namespace Torrentina.Peer

open Torrentina.Core

/-- A block of a piece, as named by `request` and `cancel`. -/
structure BlockInfo where
  index : UInt32
  begin : UInt32
  length : UInt32
  deriving DecidableEq, Repr

/-- A delivered block of piece data. -/
structure Block where
  index : UInt32
  begin : UInt32
  data : List UInt8
  deriving DecidableEq, Repr

/-- A single peer wire protocol message. -/
inductive Message
  | keepAlive
  | choke
  | unchoke
  | interested
  | notInterested
  | have (index : UInt32)
  | bitfield (bits : List UInt8)
  | request (b : BlockInfo)
  | piece (block : Block)
  | cancel (b : BlockInfo)
  | port (port : UInt16)
  deriving DecidableEq, Repr

/-! ## Message ids -/

namespace MessageId

def choke : UInt8 := 0
def unchoke : UInt8 := 1
def interested : UInt8 := 2
def notInterested : UInt8 := 3
def have_ : UInt8 := 4
def bitfield : UInt8 := 5
def request : UInt8 := 6
def piece : UInt8 := 7
def cancel : UInt8 := 8
def port : UInt8 := 9

end MessageId

/-- Upper bound on a single message's declared length: 1 MiB. -/
def maxMessageLen : Nat := 2 ^ 20

/-! ## Byte buffer primitives -/

/-- `BufMut::put_u32`. -/
def putU32 (x : UInt32) : List UInt8 := toBE 4 x.toNat

/-- `BufMut::put_u16`. -/
def putU16 (x : UInt16) : List UInt8 := toBE 2 x.toNat

/-- `Buf::get_u32`: the number read and the buffer after it. Every caller has
checked that four bytes remain. -/
def getU32 (body : List UInt8) : UInt32 × List UInt8 :=
  (UInt32.ofNat (ofBE (body.take 4)), body.drop 4)

/-- `Buf::get_u16`, under the same contract. -/
def getU16 (body : List UInt8) : UInt16 × List UInt8 :=
  (UInt16.ofNat (ofBE (body.take 2)), body.drop 2)

namespace PeerCodec

/-! ## Decoder -/

/-- A payload-free message must have an empty payload. -/
def expectEmpty (body : List UInt8) (msg : Message) (name : String) : Except Error Message :=
  if body.isEmpty then .ok msg
  else .error (.peerProtocol s!"{name} message must have no payload, got {body.length} bytes")

def expectLen (body : List UInt8) (expected : Nat) (name : String) : Except Error Unit :=
  if body.length = expected then .ok ()
  else .error (.peerProtocol
    s!"{name} message payload must be {expected} bytes, got {body.length}")

def expectMinLen (body : List UInt8) (min : Nat) (name : String) : Except Error Unit :=
  if body.length ≥ min then .ok ()
  else .error (.peerProtocol
    s!"{name} message payload must be at least {min} bytes, got {body.length}")

/-- Read a 12-byte `index/begin/length` triple. -/
def readBlockInfo (body : List UInt8) : BlockInfo :=
  let (index, body) := getU32 body
  let (begin, body) := getU32 body
  let (length, _) := getU32 body
  { index, begin, length }

/-- The payload table of `decode`: what an id byte and its payload mean. -/
def decodeBody (msgId : UInt8) (body : List UInt8) : Except Error Message :=
  if msgId = MessageId.choke then expectEmpty body .choke "Choke"
  else if msgId = MessageId.unchoke then expectEmpty body .unchoke "Unchoke"
  else if msgId = MessageId.interested then expectEmpty body .interested "Interested"
  else if msgId = MessageId.notInterested then expectEmpty body .notInterested "NotInterested"
  else if msgId = MessageId.have_ then do
    expectLen body 4 "have"
    return .have (getU32 body).1
  else if msgId = MessageId.bitfield then .ok (.bitfield body)
  else if msgId = MessageId.request then do
    expectLen body 12 "request"
    return .request (readBlockInfo body)
  else if msgId = MessageId.piece then do
    expectMinLen body 8 "piece"
    let (index, body) := getU32 body
    let (begin, body) := getU32 body
    return .piece { index, begin, data := body }
  else if msgId = MessageId.cancel then do
    expectLen body 12 "cancel"
    return .cancel (readBlockInfo body)
  else if msgId = MessageId.port then do
    expectLen body 2 "port"
    return .port (getU16 body).1
  else .error (.peerProtocol s!"unknown message id {msgId.toNat}")

/-- The length a buffer's four-byte prefix declares. -/
def declaredLen (src : List UInt8) : Nat := ofBE (src.take 4)

/-- `Decoder::decode`: the result, and the buffer after the call. -/
def decode (src : List UInt8) : Except Error (Option Message) × List UInt8 :=
  if src.length < 4 then (.ok none, src)
  else
    let len := declaredLen src
    if len = 0 then (.ok (some .keepAlive), src.drop 4)
    else if len > maxMessageLen then
      (.error (.peerProtocol
        s!"declared message length {len} exceeds maximum {maxMessageLen}"), src)
    else if src.length < 4 + len then (.ok none, src)
    else
      -- The prefix and the body leave the buffer before the payload is checked.
      let body := (src.drop 4).take len
      ((decodeBody (body.headD 0) body.tail).map some, (src.drop 4).drop len)

/-! ## Encoder -/

/-- A zero-payload message: length `1`, just the id byte. -/
def putSimple (msgId : UInt8) : List UInt8 := putU32 1 ++ [msgId]

/-- A `request` or `cancel`: length `13`, id, then the 12-byte triple. -/
def putBlockInfo (msgId : UInt8) (b : BlockInfo) : List UInt8 :=
  putU32 13 ++ [msgId] ++ putU32 b.index ++ putU32 b.begin ++ putU32 b.length

/-- `Encoder::encode`: the bytes it appends. The length fields are `u32` sums. -/
def encode : Message → List UInt8
  | .keepAlive => putU32 0
  | .choke => putSimple MessageId.choke
  | .unchoke => putSimple MessageId.unchoke
  | .interested => putSimple MessageId.interested
  | .notInterested => putSimple MessageId.notInterested
  | .have index => putU32 5 ++ [MessageId.have_] ++ putU32 index
  | .bitfield bits => putU32 (1 + UInt32.ofNat bits.length) ++ [MessageId.bitfield] ++ bits
  | .request b => putBlockInfo MessageId.request b
  | .cancel b => putBlockInfo MessageId.cancel b
  | .piece block =>
    putU32 (9 + UInt32.ofNat block.data.length) ++ [MessageId.piece] ++ putU32 block.index ++
      putU32 block.begin ++ block.data
  | .port port => putU32 3 ++ [MessageId.port] ++ putU16 port

end PeerCodec

/-- The bytes of unbounded length a message carries. -/
def Message.payload : Message → List UInt8
  | .bitfield bits => bits
  | .piece block => block.data
  | _ => []

end Torrentina.Peer
