import Torrentina.Tracker.Types

/-!
# The packets of the UDP tracker protocol

Building the two requests and reading the two replies. A reply is checked for
its length, then for the transaction id, then for the action. Read as the reply
to a request it does not answer, a datagram fails one of the last two checks.
-/

namespace Torrentina.Tracker

open Torrentina.Core

/-- Magic constant every connect request starts with. -/
def protocolId : Nat := 0x041727101980

def actionConnect : UInt32 := 0
def actionAnnounce : UInt32 := 1
def actionError : UInt32 := 3

def connectResponseLen : Nat := 16
def announceResponseHeaderLen : Nat := 20

/-- `u32::from_be_bytes` of the four bytes at `offset`. -/
def readU32 (buf : List UInt8) (offset : Nat) : UInt32 :=
  UInt32.ofNat (ofBE ((buf.drop offset).take 4))

/-- `u64::from_be_bytes` of the eight bytes at `offset`. -/
def readU64 (buf : List UInt8) (offset : Nat) : UInt64 :=
  UInt64.ofNat (ofBE ((buf.drop offset).take 8))

/-- Build the 16-byte connect request. -/
def buildConnectRequest (transactionId : UInt32) : List UInt8 :=
  toBE 8 protocolId ++ toBE 4 actionConnect.toNat ++ toBE 4 transactionId.toNat

/-- Validate a connect reply and extract the connection id. -/
def parseConnectResponse (buf : List UInt8) (expectedTxn : UInt32) : Except Error UInt64 :=
  if buf.length < connectResponseLen then
    .error (.udpProtocol s!"connect response too short: {buf.length} bytes")
  else
    let action := readU32 buf 0
    let txn := readU32 buf 4
    if txn ≠ expectedTxn then .error (.udpProtocol "connect transaction id mismatch")
    else if action ≠ actionConnect then
      .error (.udpProtocol s!"expected connect action, got {action}")
    else .ok (readU64 buf 8)

/-- Build the 98-byte announce request. The IP address is 0, the source address,
and `num_want` is -1 where the tracker may choose. -/
def buildAnnounceRequest (connectionId : UInt64) (transactionId key : UInt32)
    (params : AnnounceParams) : List UInt8 :=
  let numWant := (params.numwant.map UInt32.toNat).getD (2 ^ 32 - 1)
  toBE 8 connectionId.toNat ++ toBE 4 actionAnnounce.toNat ++ toBE 4 transactionId.toNat ++
    params.infoHash.toList ++ params.peerId.toList ++ toBE 8 params.downloaded.toNat ++
    toBE 8 params.left.toNat ++ toBE 8 params.uploaded.toNat ++
    toBE 4 params.event.asUdpCode ++ toBE 4 0 ++ toBE 4 key.toNat ++ toBE 4 numWant ++
    toBE 2 params.port.toNat

/-- Validate an announce reply and parse it. -/
def parseAnnounceResponse (buf : List UInt8) (expectedTxn : UInt32) :
    Except Error AnnounceResponse :=
  if buf.length < 8 then
    .error (.udpProtocol s!"announce response too short: {buf.length} bytes")
  else
    let action := readU32 buf 0
    let txn := readU32 buf 4
    if txn ≠ expectedTxn then .error (.udpProtocol "announce transaction id mismatch")
    else if action = actionError then .error (.trackerFailure (fromUtf8Lossy (buf.drop 8)))
    else if action ≠ actionAnnounce then
      .error (.udpProtocol s!"expected announce action, got {action}")
    else if buf.length < announceResponseHeaderLen then
      .error (.udpProtocol "announce response missing header fields")
    else do
      let interval := (readU32 buf 8).toUInt64
      let leechers := readU32 buf 12
      let seeders := readU32 buf 16
      let peers ← parseCompactPeersV4 (buf.drop announceResponseHeaderLen)
      return { interval, peers, seeders := some seeders, leechers := some leechers }

/-! ## Replies that answer their request -/

/-- A correct reply to a request: it echoes the transaction id and is either an
error packet or a reply with the request's action and at least its fixed header. -/
def correctReply (request reply : List UInt8) : Bool :=
  let action := readU32 request 8
  readU32 reply 4 == readU32 request 12 &&
    (readU32 reply 0 == actionError && 8 ≤ reply.length ||
      action == actionConnect && readU32 reply 0 == actionConnect &&
        connectResponseLen ≤ reply.length ||
      action == actionAnnounce && readU32 reply 0 == actionAnnounce &&
        announceResponseHeaderLen ≤ reply.length)

/-- The results of a datagram read as the reply to a request it does not answer. -/
inductive Misread {α : Type} : Except Error α → Prop
  | connectTxn : Misread (.error (.udpProtocol "connect transaction id mismatch"))
  | connectAction (action : UInt32) :
    Misread (.error (.udpProtocol s!"expected connect action, got {action}"))
  | announceTxn : Misread (.error (.udpProtocol "announce transaction id mismatch"))
  | announceAction (action : UInt32) :
    Misread (.error (.udpProtocol s!"expected announce action, got {action}"))

/-- The first nine characters tell these texts from every other one. -/
theorem Misread.opening {α : Type} {msg : String}
    (h : Misread (.error (.udpProtocol msg) : Except Error α)) :
    msg.toList.take 9 ∈ ["connect t".toList, "expected ".toList, "announce ".toList] := by
  generalize hr : (.error (.udpProtocol msg) : Except Error α) = r at h
  have text {msg' : String} (he : (.error (.udpProtocol msg) : Except Error α) =
      .error (.udpProtocol msg')) : msg = msg' :=
    Error.udpProtocol.inj (Except.error.inj he)
  cases h with
  | connectTxn =>
    rw [text hr]
    decide
  | connectAction action =>
    rw [text hr, String.toList_append, List.take_append_of_le_length (by decide)]
    decide
  | announceTxn =>
    rw [text hr]
    decide
  | announceAction action =>
    rw [text hr, String.toList_append, List.take_append_of_le_length (by decide)]
    decide

/-- Only the error is looked at. -/
theorem Misread.cast {α β : Type} {e : Error} (h : Misread (.error e : Except Error α)) :
    Misread (.error e : Except Error β) := by
  generalize hr : (.error e : Except Error α) = r at h
  cases h with
  | connectTxn =>
    obtain rfl := Except.error.inj hr
    exact .connectTxn
  | connectAction action =>
    obtain rfl := Except.error.inj hr
    exact .connectAction action
  | announceTxn =>
    obtain rfl := Except.error.inj hr
    exact .announceTxn
  | announceAction action =>
    obtain rfl := Except.error.inj hr
    exact .announceAction action

/-! ## Headers -/

/-- A number is read back at its position. -/
theorem readU32_append {front : List UInt8} {k : Nat} (h : front.length = k)
    (n : UInt32) (rest : List UInt8) :
    readU32 (front ++ (toBE 4 n.toNat ++ rest)) k = n := by
  rw [readU32, ← h, List.drop_left, List.take_left' (length_toBE 4 n.toNat),
    ofBE_toBE_of_lt (by simpa using n.toNat_lt), UInt32.ofNat_toNat]

/-- A number inside the part that was kept is read the same. -/
theorem readU32_take {buf : List UInt8} {n k : Nat} (h : k + 4 ≤ n) :
    readU32 (buf.take n) k = readU32 buf k := by
  rw [readU32, readU32, List.drop_take, List.take_take, Nat.min_eq_left (by omega)]

/-- The action and the transaction id of a connect request. -/
theorem connectRequest_header (txn : UInt32) :
    readU32 (buildConnectRequest txn) 8 = actionConnect ∧
      readU32 (buildConnectRequest txn) 12 = txn := by
  constructor
  · have h := readU32_append (length_toBE 8 protocolId) actionConnect (toBE 4 txn.toNat)
    rwa [← List.append_assoc] at h
  · have hlen : (toBE 8 protocolId ++ toBE 4 actionConnect.toNat).length = 12 := by simp
    have h := readU32_append hlen txn []
    rwa [List.append_nil] at h

/-- The action and the transaction id of an announce request. -/
theorem announceRequest_header (connectionId : UInt64) (txn key : UInt32)
    (params : AnnounceParams) :
    readU32 (buildAnnounceRequest connectionId txn key params) 8 = actionAnnounce ∧
      readU32 (buildAnnounceRequest connectionId txn key params) 12 = txn := by
  simp only [buildAnnounceRequest, List.append_assoc]
  constructor
  · exact readU32_append (length_toBE 8 connectionId.toNat) actionAnnounce _
  · have hlen : (toBE 8 connectionId.toNat ++ toBE 4 actionAnnounce.toNat).length = 12 := by simp
    have h := readU32_append hlen txn
    simpa only [List.append_assoc] using h _

/-- What a correct reply to a connect request starts with. -/
theorem correctReply_connect {txn : UInt32} {reply : List UInt8}
    (h : correctReply (buildConnectRequest txn) reply = true) :
    readU32 reply 4 = txn ∧
      (readU32 reply 0 = actionError ∧ 8 ≤ reply.length ∨
        readU32 reply 0 = actionConnect ∧ connectResponseLen ≤ reply.length) := by
  obtain ⟨haction, htxn⟩ := connectRequest_header txn
  have hne : (actionConnect == actionAnnounce) = false := by decide
  simpa [correctReply, haction, htxn, hne] using h

/-- What a correct reply to an announce request starts with. -/
theorem correctReply_announce {connectionId : UInt64} {txn key : UInt32}
    {params : AnnounceParams} {reply : List UInt8}
    (h : correctReply (buildAnnounceRequest connectionId txn key params) reply = true) :
    readU32 reply 4 = txn ∧
      (readU32 reply 0 = actionError ∧ 8 ≤ reply.length ∨
        readU32 reply 0 = actionAnnounce ∧ announceResponseHeaderLen ≤ reply.length) := by
  obtain ⟨haction, htxn⟩ := announceRequest_header connectionId txn key params
  have hne : (actionAnnounce == actionConnect) = false := by decide
  simpa [correctReply, haction, htxn, hne] using h

/-! ## Reading a correct reply -/

/-- A long refusal of a connect is reported as the wrong action. -/
theorem parseConnectResponse_error {txn : UInt32} {reply : List UInt8}
    (htxn : readU32 reply 4 = txn) (ha : readU32 reply 0 = actionError)
    (hlen : connectResponseLen ≤ reply.length) :
    parseConnectResponse reply txn =
      .error (.udpProtocol s!"expected connect action, got {actionError}") := by
  have hne : actionError ≠ actionConnect := by decide
  simp only [parseConnectResponse, if_neg (Nat.not_lt.mpr hlen), htxn, ha, ne_eq,
    not_true_eq_false, if_false, hne, not_false_eq_true, if_true]

/-- A reply to a connect has the connection id. -/
theorem parseConnectResponse_connect {txn : UInt32} {reply : List UInt8}
    (htxn : readU32 reply 4 = txn) (ha : readU32 reply 0 = actionConnect)
    (hlen : connectResponseLen ≤ reply.length) :
    parseConnectResponse reply txn = .ok (readU64 reply 8) := by
  simp only [parseConnectResponse, if_neg (Nat.not_lt.mpr hlen), htxn, ha, ne_eq,
    not_true_eq_false, if_false]

/-- An error packet is read as a wrong action, where it is long enough to be read. -/
theorem misread_parseConnectResponse_iff {txn : UInt32} {reply : List UInt8}
    (h : correctReply (buildConnectRequest txn) reply = true) :
    Misread (parseConnectResponse reply txn) ↔
      readU32 reply 0 = actionError ∧ connectResponseLen ≤ reply.length := by
  obtain ⟨htxn, ⟨ha, -⟩ | ⟨ha, hlen⟩⟩ := correctReply_connect h
  · by_cases hlen : connectResponseLen ≤ reply.length
    · rw [parseConnectResponse_error htxn ha hlen]
      exact ⟨fun _ => ⟨ha, hlen⟩, fun _ => .connectAction actionError⟩
    · rw [parseConnectResponse, if_pos (Nat.not_le.mp hlen)]
      refine ⟨fun hm => ?_, fun hp => absurd hp.2 hlen⟩
      have ho := hm.opening
      rw [String.toList_append, String.toList_append, List.append_assoc,
        List.take_append_of_le_length (by decide)] at ho
      exact absurd ho (by decide)
  · rw [parseConnectResponse_connect htxn ha hlen, ha]
    exact ⟨fun hm => (nomatch hm), fun hp => absurd hp.1 (by decide)⟩

/-- A refusal of an announce has the tracker's text. -/
theorem parseAnnounceResponse_error {txn : UInt32} {reply : List UInt8}
    (htxn : readU32 reply 4 = txn) (ha : readU32 reply 0 = actionError)
    (hlen : 8 ≤ reply.length) :
    parseAnnounceResponse reply txn = .error (.trackerFailure (fromUtf8Lossy (reply.drop 8))) := by
  simp only [parseAnnounceResponse, if_neg (Nat.not_lt.mpr hlen), htxn, ha, ne_eq,
    not_true_eq_false, if_false, if_true]

/-- A reply to an announce has its numbers and its peers. -/
theorem parseAnnounceResponse_announce {txn : UInt32} {reply : List UInt8}
    (htxn : readU32 reply 4 = txn) (ha : readU32 reply 0 = actionAnnounce)
    (hlen : announceResponseHeaderLen ≤ reply.length) :
    parseAnnounceResponse reply txn =
      (parseCompactPeersV4 (reply.drop announceResponseHeaderLen)).map fun peers =>
        { interval := (readU32 reply 8).toUInt64, peers, seeders := some (readU32 reply 16),
          leechers := some (readU32 reply 12) } := by
  have h8 : ¬ reply.length < 8 := by
    have : announceResponseHeaderLen = 20 := rfl
    omega
  have hne : actionAnnounce ≠ actionError := by decide
  simp only [parseAnnounceResponse, if_neg h8, htxn, ha, ne_eq, not_true_eq_false, if_false,
    hne, if_neg (Nat.not_lt.mpr hlen)]
  cases parseCompactPeersV4 (reply.drop announceResponseHeaderLen) <;> rfl

/-- A correct reply to the announce request is never read as another packet. -/
theorem not_misread_parseAnnounceResponse {connectionId : UInt64} {txn key : UInt32}
    {params : AnnounceParams} {reply : List UInt8}
    (h : correctReply (buildAnnounceRequest connectionId txn key params) reply = true) :
    ¬ Misread (parseAnnounceResponse reply txn) := by
  obtain ⟨htxn, ⟨ha, hlen⟩ | ⟨ha, hlen⟩⟩ := correctReply_announce h
  · rw [parseAnnounceResponse_error htxn ha hlen]
    exact fun hm => nomatch hm
  · rw [parseAnnounceResponse_announce htxn ha hlen, parseCompactPeersV4]
    split
    · exact fun hm => nomatch hm
    · exact fun hm => nomatch hm

/-- A reply to the connect request read as the announce reply fails the check of the
transaction id, or where the two ids agree, of the action. -/
theorem misread_parseAnnounceResponse_iff {connectTxn : UInt32} {reply : List UInt8}
    (h : correctReply (buildConnectRequest connectTxn) reply = true) (txn : UInt32) :
    Misread (parseAnnounceResponse reply txn) ↔
      ¬ (connectTxn = txn ∧ readU32 reply 0 = actionError) := by
  obtain ⟨htxn, hkind⟩ := correctReply_connect h
  have hlen : 8 ≤ reply.length := by
    rcases hkind with ⟨-, hlen⟩ | ⟨-, hlen⟩
    · exact hlen
    · exact Nat.le_trans (by decide) hlen
  by_cases he : connectTxn = txn
  · rcases hkind with ⟨ha, -⟩ | ⟨ha, -⟩
    · rw [parseAnnounceResponse_error (htxn.trans he) ha hlen]
      exact ⟨fun hm => (nomatch hm), fun hn => absurd ⟨he, ha⟩ hn⟩
    · have hm : parseAnnounceResponse reply txn =
          .error (.udpProtocol s!"expected announce action, got {actionConnect}") := by
        have h03 : actionConnect ≠ actionError := by decide
        have h01 : actionConnect ≠ actionAnnounce := by decide
        simp only [parseAnnounceResponse, if_neg (Nat.not_lt.mpr hlen), htxn, he, ha, ne_eq,
          not_true_eq_false, if_false, h03, h01, not_false_eq_true, if_true]
      rw [hm, ha]
      exact ⟨fun _ hp => absurd hp.2 (by decide), fun _ => .announceAction actionConnect⟩
  · have hm : parseAnnounceResponse reply txn =
        .error (.udpProtocol "announce transaction id mismatch") := by
      simp only [parseAnnounceResponse, if_neg (Nat.not_lt.mpr hlen), htxn, ne_eq, he,
        not_false_eq_true, if_true]
    rw [hm]
    exact ⟨fun _ hp => he hp.1, fun _ => .announceTxn⟩

end Torrentina.Tracker
