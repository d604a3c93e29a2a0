import Torrentina.Core.Layout
import Torrentina.Tracker.Family

/-!
# The tracker at the other end

A tracker of the UDP protocol gives out connection ids, registers the announces
that come under one of them, and refuses what it likes with an error packet. It
reads a datagram by the widths of its fields. What it reads in an announce
request is what the caller passed to `announce`, each field whole.
-/

namespace Torrentina.Tracker

open Torrentina.Core

/-- What an announce request says besides the ids of the exchange. -/
structure Announcement where
  infoHash : List UInt8
  peerId : List UInt8
  downloaded : UInt64
  left : UInt64
  uploaded : UInt64
  event : UInt32
  ipAddress : UInt32
  key : UInt32
  numWant : UInt32
  port : UInt16
  deriving DecidableEq

/-- A datagram as the tracker reads it. -/
inductive Request
  | connect (txn : UInt32)
  | announce (connectionId : UInt64) (txn : UInt32) (announcement : Announcement)

/-- The transaction id, which every reply echoes. -/
def Request.txn : Request → UInt32
  | connect txn | announce _ txn _ => txn

/-- The fields of a connect request. -/
def connectWidths : List Nat := [8, 4, 4]

/-- The fields of an announce request. -/
def announceWidths : List Nat := [8, 4, 4, 20, 20, 8, 8, 8, 4, 4, 4, 4, 2]

/-- The field as a `u32`. -/
def fieldU32 (field : List UInt8) : UInt32 := UInt32.ofNat (ofBE field)

/-- The field as a `u64`. -/
def fieldU64 (field : List UInt8) : UInt64 := UInt64.ofNat (ofBE field)

/-- Read a connect request. -/
def readConnect (datagram : List UInt8) : Option Request :=
  match fields connectWidths datagram with
  | [magic, action, txn] =>
    if connectWidths.sum ≤ datagram.length ∧ ofBE magic = protocolId ∧
        fieldU32 action = actionConnect then
      some (.connect (fieldU32 txn))
    else none
  | _ => none

/-- Read an announce request. -/
def readAnnounce (datagram : List UInt8) : Option Request :=
  match fields announceWidths datagram with
  | [connectionId, action, txn, infoHash, peerId, downloaded, left, uploaded, event, ipAddress,
      key, numWant, port] =>
    if announceWidths.sum ≤ datagram.length ∧ fieldU32 action = actionAnnounce then
      some (.announce (fieldU64 connectionId) (fieldU32 txn)
        { infoHash, peerId
          downloaded := fieldU64 downloaded
          left := fieldU64 left
          uploaded := fieldU64 uploaded
          event := fieldU32 event
          ipAddress := fieldU32 ipAddress
          key := fieldU32 key
          numWant := fieldU32 numWant
          port := UInt16.ofNat (ofBE port) })
    else none
  | _ => none

/-- Read a datagram. -/
def readRequest (datagram : List UInt8) : Option Request :=
  readConnect datagram <|> readAnnounce datagram

/-- The announce of those parameters: the source address, and any number of peers where
the caller names none. -/
def AnnounceParams.announcement (params : AnnounceParams) (key : UInt32) : Announcement where
  infoHash := params.infoHash.toList
  peerId := params.peerId.toList
  downloaded := params.downloaded
  left := params.left
  uploaded := params.uploaded
  event := UInt32.ofNat params.event.asUdpCode
  ipAddress := 0
  key := key
  numWant := params.numwant.getD (UInt32.ofNat (2 ^ 32 - 1))
  port := params.port

/-- What the tracker knows of the torrent when it answers an announce. -/
structure View where
  interval : UInt32
  seeders : UInt32
  leechers : UInt32
  peers : PeerList

/-- The response that tells it, as far as the receive buffer holds it. -/
def View.response (view : View) : AnnounceResponse :=
  Tracker.response view.interval view.seeders view.leechers
    (compactPeersV4 view.peers.receivedBlob)

/-- What the tracker sends: a connection id, the reply to an announce it registered, or an
error packet. -/
inductive Reply
  | granted (txn : UInt32) (connectionId : UInt64)
  | registered (txn : UInt32) (view : View)
  | refused (txn : UInt32) (text : List UInt8)

/-- The datagram of a reply. -/
def Reply.bytes : Reply → List UInt8
  | granted txn connectionId =>
    toBE 4 actionConnect.toNat ++ (toBE 4 txn.toNat ++ toBE 8 connectionId.toNat)
  | registered txn view =>
    udpReply txn view.interval view.seeders view.leechers view.peers.blob
  | refused txn text => toBE 4 actionError.toNat ++ (toBE 4 txn.toNat ++ text)

/-! ## The requests as the tracker reads them -/

theorem fieldU32_toBE (n : UInt32) : fieldU32 (toBE 4 n.toNat) = n := by
  rw [fieldU32, ofBE_toBE_of_lt (by simpa using n.toNat_lt), UInt32.ofNat_toNat]

theorem fieldU64_toBE (n : UInt64) : fieldU64 (toBE 8 n.toNat) = n := by
  rw [fieldU64, ofBE_toBE_of_lt (by simpa using n.toNat_lt), UInt64.ofNat_toNat]

theorem readRequest_connect (txn : UInt32) :
    readRequest (buildConnectRequest txn) = some (.connect txn) := by
  have hrow : buildConnectRequest txn =
      [toBE 8 protocolId, toBE 4 actionConnect.toNat, toBE 4 txn.toNat].flatten ++ [] := by
    simp [buildConnectRequest]
  have hfields : fields connectWidths (buildConnectRequest txn) =
      [toBE 8 protocolId, toBE 4 actionConnect.toNat, toBE 4 txn.toNat] := by
    rw [hrow]
    exact fields_flatten (by simp [connectWidths]) []
  have hlen : (buildConnectRequest txn).length = 16 := by simp [buildConnectRequest]
  have hmagic : ofBE (toBE 8 protocolId) = protocolId := ofBE_toBE_of_lt (by decide)
  rw [readRequest, readConnect, hfields]
  simp only [hlen, hmagic, fieldU32_toBE, connectWidths, List.sum_cons, List.sum_nil, true_and]
  rfl

/-- The tracker reads in an announce request what the caller announces. -/
theorem readRequest_announce (connectionId : UInt64) (txn key : UInt32)
    (params : AnnounceParams) :
    readRequest (buildAnnounceRequest connectionId txn key params) =
      some (.announce connectionId txn (params.announcement key)) := by
  have hrow : buildAnnounceRequest connectionId txn key params =
      [toBE 8 connectionId.toNat, toBE 4 actionAnnounce.toNat, toBE 4 txn.toNat].flatten ++
        ([params.infoHash.toList, params.peerId.toList, toBE 8 params.downloaded.toNat,
          toBE 8 params.left.toNat, toBE 8 params.uploaded.toNat,
          toBE 4 params.event.asUdpCode, toBE 4 0, toBE 4 key.toNat,
          toBE 4 ((params.numwant.map UInt32.toNat).getD (2 ^ 32 - 1)),
          toBE 2 params.port.toNat].flatten ++ []) := by
    simp [buildAnnounceRequest]
  have hlen : (buildAnnounceRequest connectionId txn key params).length = 98 := by
    simp [buildAnnounceRequest]
  -- the action tells it from a connect request
  have hconnect : readConnect (buildAnnounceRequest connectionId txn key params) = none := by
    have hfields := congrArg (fields connectWidths) hrow
    rw [fields_flatten (by simp [connectWidths])] at hfields
    have hne : actionAnnounce ≠ actionConnect := by decide
    rw [readConnect, hfields]
    simp only [fieldU32_toBE, hne, and_false, if_false]
  have hfields := congrArg (fields announceWidths) hrow
  rw [← List.append_assoc, ← List.flatten_append,
    fields_flatten (by simp [announceWidths])] at hfields
  have hevent : fieldU32 (toBE 4 params.event.asUdpCode) =
      UInt32.ofNat params.event.asUdpCode := by
    cases params.event <;> rfl
  have hnumWant : fieldU32 (toBE 4 ((params.numwant.map UInt32.toNat).getD (2 ^ 32 - 1))) =
      params.numwant.getD (UInt32.ofNat (2 ^ 32 - 1)) := by
    cases params.numwant with
    | none => rfl
    | some n => exact fieldU32_toBE n
  have hport : UInt16.ofNat (ofBE (toBE 2 params.port.toNat)) = params.port := by
    rw [ofBE_toBE_of_lt (by simpa using params.port.toNat_lt), UInt16.ofNat_toNat]
  rw [readRequest, hconnect, readAnnounce, hfields]
  simp only [List.cons_append, List.nil_append, hlen, fieldU32_toBE, fieldU64_toBE, hevent,
    hnumWant, hport, announceWidths, List.sum_cons, List.sum_nil]
  rfl

/-! ## The replies as the caller reads them -/

namespace Reply

def action : Reply → UInt32
  | granted _ _ => actionConnect
  | registered _ _ => actionAnnounce
  | refused _ _ => actionError

def txn : Reply → UInt32
  | granted txn _ | registered txn _ | refused txn _ => txn

/-- The first two words say what a reply is and which request it answers. -/
theorem header (reply : Reply) :
    readU32 (Udp.received reply.bytes) 0 = reply.action ∧
      readU32 (Udp.received reply.bytes) 4 = reply.txn := by
  rw [Udp.Call.readU32_received _ (by decide), Udp.Call.readU32_received _ (by decide)]
  cases reply with
  | granted txn connectionId =>
    exact ⟨@readU32_append [] 0 rfl actionConnect _, readU32_append (length_toBE 4 _) txn _⟩
  | registered txn view =>
    obtain ⟨haction, htxn, -⟩ := udpReply_fields txn view.interval view.seeders view.leechers
      view.peers.blob
    exact ⟨haction, htxn⟩
  | refused txn text =>
    exact ⟨@readU32_append [] 0 rfl actionError _, readU32_append (length_toBE 4 _) txn _⟩

end Reply

/-- The connect step ends with the id of a connect reply, or with an error of its own. -/
theorem parseConnectResponse_cases (buf : List UInt8) (txn : UInt32) :
    readU32 buf 0 = actionConnect ∧ parseConnectResponse buf txn = .ok (readU64 buf 8) ∨
      ∃ msg, parseConnectResponse buf txn = .error (.udpProtocol msg) := by
  simp only [parseConnectResponse]
  split
  · exact .inr ⟨_, rfl⟩
  · split
    · exact .inr ⟨_, rfl⟩
    · split
      · exact .inr ⟨_, rfl⟩
      · rename_i haction
        exact .inl ⟨not_not.mp haction, rfl⟩

/-- The announce step ends with an error of its own, unless it is an error packet or an
announce reply to its request that arrived. -/
theorem parseAnnounceResponse_cases (buf : List UInt8) (txn : UInt32) :
    readU32 buf 4 = txn ∧ (readU32 buf 0 = actionError ∨ readU32 buf 0 = actionAnnounce) ∨
      ∃ msg, parseAnnounceResponse buf txn = .error (.udpProtocol msg) := by
  simp only [parseAnnounceResponse]
  split
  · exact .inr ⟨_, rfl⟩
  · split
    · exact .inr ⟨_, rfl⟩
    · rename_i htxn
      split
      · rename_i haction
        exact .inl ⟨not_not.mp htxn, .inl haction⟩
      · split
        · exact .inr ⟨_, rfl⟩
        · rename_i haction
          exact .inl ⟨not_not.mp htxn, .inr (not_not.mp haction)⟩

/-- What the connect step makes of a reply: it only goes on with a connection id that was
given out. -/
theorem Reply.parseConnectResponse (reply : Reply) (txn : UInt32) :
    (∃ t id, reply = .granted t id ∧
      Tracker.parseConnectResponse (Udp.received reply.bytes) txn = .ok id) ∨
    ∃ msg, Tracker.parseConnectResponse (Udp.received reply.bytes) txn =
      .error (.udpProtocol msg) := by
  rcases parseConnectResponse_cases (Udp.received reply.bytes) txn with ⟨haction, hok⟩ | hmsg
  · left
    rw [reply.header.1] at haction
    cases reply with
    | granted t id =>
      refine ⟨t, id, rfl, ?_⟩
      have hbuf : Udp.received (granted t id).bytes =
          (toBE 4 actionConnect.toNat ++ toBE 4 t.toNat) ++ toBE 8 id.toNat := by
        rw [Udp.Call.received_of_le (by simp [bytes, Udp.recvBufLen]), bytes, List.append_assoc]
      have hid : readU64 (Udp.received (granted t id).bytes) 8 = id := by
        rw [hbuf, readU64, List.drop_left' (by simp), List.take_of_length_le (by simp)]
        exact fieldU64_toBE id
      rw [hok, hid]
    | registered t view => cases haction
    | refused t text => cases haction
  · exact .inr hmsg

/-- What the announce step makes of a reply. -/
theorem Reply.parseAnnounceResponse (reply : Reply) (txn : UInt32) :
    (∃ view, reply = .registered txn view ∧
      Tracker.parseAnnounceResponse (Udp.received reply.bytes) txn = .ok view.response) ∨
    (∃ text, reply = .refused txn text ∧
      Tracker.parseAnnounceResponse (Udp.received reply.bytes) txn =
        .error (.trackerFailure (fromUtf8Lossy (text.take (Udp.recvBufLen - 8))))) ∨
    ∃ msg, Tracker.parseAnnounceResponse (Udp.received reply.bytes) txn =
      .error (.udpProtocol msg) := by
  rcases parseAnnounceResponse_cases (Udp.received reply.bytes) txn
    with ⟨htxn, haction⟩ | hmsg
  · rw [reply.header.2] at htxn
    rw [reply.header.1] at haction
    subst htxn
    cases reply with
    | granted t connectionId => rcases haction with h | h <;> cases h
    | registered t view =>
      refine .inl ⟨view, rfl, ?_⟩
      change Tracker.parseAnnounceResponse (Udp.received (udpReply t view.interval view.seeders
        view.leechers view.peers.blob)) t = _
      rw [received_udpReply, parseAnnounceResponse_udpReply]
      change (parseCompactPeersV4 view.peers.receivedBlob).map _ = _
      rw [view.peers.parseCompactPeersV4_receivedBlob]
      rfl
    | refused t text =>
      refine .inr (.inl ⟨text, rfl, ?_⟩)
      have hbuf : Udp.received (refused t text).bytes =
          (toBE 4 actionError.toNat ++ toBE 4 t.toNat) ++ text.take (Udp.recvBufLen - 8) := by
        rw [bytes, Udp.received, ← List.append_assoc, List.take_append,
          List.take_of_length_le (by simp [Udp.recvBufLen])]
        simp
      have hdrop : (Udp.received (refused t text).bytes).drop 8 =
          text.take (Udp.recvBufLen - 8) := by
        rw [hbuf, List.drop_left' (by simp)]
      rw [parseAnnounceResponse_error (refused t text).header.2 (refused t text).header.1, hdrop]
      rw [hbuf]
      simp only [List.length_append, length_toBE]
      omega
  · exact .inr (.inr hmsg)

end Torrentina.Tracker
