import Torrentina.Tracker.PeerLists
import Torrentina.Tracker.Udp

/-!
# The address family of a UDP tracker

A tracker lists peers of its own address family, and the announce binds a
socket of that family to reach it. The reply is read as IPv4 entries whatever
the family, and only as far as the receive buffer holds it.
-/

namespace Torrentina.Tracker

open Torrentina.Core

/-! ## Lists of one family -/

/-- A list of peers of one address family. -/
inductive PeerList
  | v4 (peers : Peers 32)
  | v6 (peers : Peers 128)

namespace PeerList

/-- The entries of an announce reply with that list. -/
def blob : PeerList → List UInt8
  | .v4 peers => compactV4 peers
  | .v6 peers => compactV6 peers

def addrs : PeerList → List SocketAddr
  | .v4 peers => addrsV4 peers
  | .v6 peers => addrsV6 peers

/-- The list is of the family of that address. -/
def OfFamily : PeerList → SocketAddr → Prop
  | .v4 _, .v4 _ _ => True
  | .v6 _, .v6 _ _ => True
  | _, _ => False

/-- The entries that fit the receive buffer behind the header. -/
def maxPeersV4 : Nat := (Udp.recvBufLen - announceResponseHeaderLen) / compactPeerV4Len

/-- IPv4 peers the receive buffer has room for, or no peers at all. -/
def Legible : PeerList → Prop
  | .v4 peers => peers.length ≤ maxPeersV4
  | .v6 peers => peers = []

/-- What the receive buffer holds of the entries. -/
def receivedBlob (list : PeerList) : List UInt8 :=
  list.blob.take (Udp.recvBufLen - announceResponseHeaderLen)

theorem length_blob (list : PeerList) : compactPeerV4Len ∣ list.blob.length := by
  cases list with
  | v4 peers =>
    rw [blob, length_compactV4]
    exact Nat.dvd_mul_right _ _
  | v6 peers =>
    rw [blob, length_compactV6]
    exact Dvd.dvd.mul_right (by decide) _

/-- Entries of either family are taken for IPv4 entries. -/
theorem parseCompactPeersV4_receivedBlob (list : PeerList) :
    parseCompactPeersV4 list.receivedBlob = .ok (compactPeersV4 list.receivedBlob) := by
  obtain ⟨n, hn⟩ := list.length_blob
  have hmod : list.receivedBlob.length % compactPeerV4Len = 0 := by
    rw [receivedBlob, List.length_take, hn]
    simp only [Udp.recvBufLen, announceResponseHeaderLen, compactPeerV4Len]
    omega
  rw [parseCompactPeersV4, hmod, if_neg (not_not.mpr rfl)]

/-- No IPv6 address is read from an entry. -/
theorem compactPeersV4_eq_addrsV6_iff {bytes : List UInt8} {peers : Peers 128}
    (h : peers = [] → bytes = []) : compactPeersV4 bytes = addrsV6 peers ↔ peers = [] := by
  constructor
  · intro he
    cases peers with
    | nil => rfl
    | cons p ps =>
      rw [compactPeersV4.eq_def] at he
      split at he
      · cases he
      · cases he
  · intro hp
    rw [h hp, hp]
    rfl

/-- A list is read back just when it is legible. -/
theorem compactPeersV4_receivedBlob_iff (list : PeerList) :
    compactPeersV4 list.receivedBlob = list.addrs ↔ list.Legible := by
  cases list with
  | v4 peers =>
    have hlen : (compactV4 peers).length = compactPeerV4Len * peers.length :=
      length_compactV4 peers
    constructor
    · intro he
      have := congrArg List.length he
      rw [length_compactPeersV4, receivedBlob, List.length_take, blob, hlen, addrs, addrsV4,
        List.length_map] at this
      simp only [Legible, maxPeersV4, Udp.recvBufLen, announceResponseHeaderLen,
        compactPeerV4Len] at this ⊢
      omega
    · intro hfits
      have hall : receivedBlob (.v4 peers) = compactV4 peers := by
        apply List.take_of_length_le
        rw [blob, hlen]
        simp only [Legible, maxPeersV4, Udp.recvBufLen, announceResponseHeaderLen,
          compactPeerV4Len] at hfits ⊢
        omega
      rw [hall, compactPeersV4_compactV4, addrs]
  | v6 peers =>
    refine compactPeersV4_eq_addrsV6_iff fun hp => ?_
    rw [hp]
    rfl

end PeerList

/-! ## Replies in the receive buffer -/

theorem udpReply_eq_append (txn interval seeders leechers : UInt32) (blob : List UInt8) :
    udpReply txn interval seeders leechers blob =
      udpReply txn interval seeders leechers [] ++ blob := by
  simp only [udpReply, List.append_assoc, List.nil_append]

theorem received_udpReply (txn interval seeders leechers : UInt32) (blob : List UInt8) :
    Udp.received (udpReply txn interval seeders leechers blob) =
      udpReply txn interval seeders leechers
        (blob.take (Udp.recvBufLen - announceResponseHeaderLen)) := by
  have hlen := length_udpReply txn interval seeders leechers []
  rw [List.length_nil, Nat.add_zero] at hlen
  rw [udpReply_eq_append _ _ _ _ blob, udpReply_eq_append _ _ _ _ (blob.take _), Udp.received,
    List.take_append, hlen, List.take_of_length_le (by rw [hlen]; decide)]

namespace Udp.Call

/-! ## Runs of a call -/

/-- The call is about to take the announce reply of the tracker it resolved, with a list
of peers of the tracker's family. -/
def Listed (c : Call) (s : State) (e : NetEvent) (list : PeerList) : Prop :=
  ∃ server request attempt a net interval seeders leechers,
    c.resolve = .ok server ∧ list.OfFamily server ∧ e = .deliver ∧
      s.phase = .exchanging .announce request attempt ∧ s.net.deliver = some (a, net) ∧
      a.reply = udpReply c.announceTxn interval seeders leechers list.blob

/-- A step that takes such a reply returns exactly its list. -/
def ReadsList (c : Call) (t : Transition State NetEvent) : Prop :=
  ∀ list, c.Listed t.pre t.event list →
    ∃ resp, t.post.phase = .returned (.ok resp) ∧ resp.peers = list.addrs

/-- A list about to be taken is legible. -/
def ListsLegible (c : Call) (s : State) (e : NetEvent) : Prop :=
  ∀ list, c.Listed s e list → list.Legible

variable {c : Call} {s s' : State} {e : NetEvent}

/-- What the call returns is what the receive buffer holds, read as IPv4 entries. -/
theorem Listed.returns {list : PeerList} (hl : c.Listed s e list) (h : c.step s e = some s') :
    ∃ interval seeders leechers, s'.phase =
      .returned (.ok (response interval seeders leechers (compactPeersV4 list.receivedBlob))) := by
  obtain ⟨server, request, attempt, a, net, interval, seeders, leechers, -, -, rfl, hphase, hd,
    hreply⟩ := hl
  obtain rfl := Option.some.inj ((step_deliver hphase hd).symm.trans h)
  refine ⟨interval, seeders, leechers, ?_⟩
  change Phase.returned (parseAnnounceResponse (received a.reply) c.announceTxn) = _
  rw [hreply, received_udpReply, parseAnnounceResponse_udpReply]
  change Phase.returned ((parseCompactPeersV4 list.receivedBlob).map _) = _
  rw [list.parseCompactPeersV4_receivedBlob]
  rfl

theorem readsList_iff (h : c.step s e = some s') :
    c.ReadsList ⟨s, e, s'⟩ ↔ c.ListsLegible s e := by
  constructor
  · intro hr list hl
    obtain ⟨resp, hresp, hpeers⟩ := hr list hl
    obtain ⟨interval, seeders, leechers, hphase⟩ := hl.returns h
    obtain rfl := Except.ok.inj (Phase.returned.inj (hphase.symm.trans hresp))
    exact list.compactPeersV4_receivedBlob_iff.mp hpeers
  · intro hlegible list hl
    obtain ⟨interval, seeders, leechers, hphase⟩ := hl.returns h
    exact ⟨_, hphase, list.compactPeersV4_receivedBlob_iff.mpr (hlegible list hl)⟩

end Udp.Call

namespace Udp

/-- In a run, every list of the tracker's family is read as sent just when every such
list is legible. -/
theorem announce_reads_list_iff (c : Call) (run : List (Transition State NetEvent)) (s : State)
    (h : c.system.History run s) :
    (∀ t ∈ run, c.ReadsList t) ↔ ∀ t ∈ run, c.ListsLegible t.pre t.event := by
  constructor
  · intro hr t ht
    obtain ⟨-, -, hstep⟩ := System.HistoryWhere.mem h ht
    exact (Call.readsList_iff hstep).mp (hr t ht)
  · intro hl t ht
    obtain ⟨-, -, hstep⟩ := System.HistoryWhere.mem h ht
    exact (Call.readsList_iff hstep).mpr (hl t ht)

theorem announce_reads_list_iff_prompt :
    ∃ s, sampleCall.system.exec sampleCall.system.init promptEvents = some s ∧
      s.phase = .returned (.ok (response 1800 5 3 (addrsV4 [(0x01020304, 6881)]))) ∧
      ((∀ t ∈ sampleCall.system.recorded sampleCall.system.init promptEvents,
          sampleCall.ReadsList t) ↔
        ∀ t ∈ sampleCall.system.recorded sampleCall.system.init promptEvents,
          sampleCall.ListsLegible t.pre t.event) :=
  ⟨_, rfl, rfl, announce_reads_list_iff sampleCall _ _ (System.History.ofExec promptEvents rfl)⟩

/-- A call to a tracker at a fixed IPv6 address. -/
def ipv6Call : Call := { sampleCall with lookupHost := fun _ _ => .ok [.v6 1 80] }

/-- The peer 2001:db8::1 at port 6881. -/
def ipv6List : PeerList := .v6 [(0x20010DB8000000000000000000000001, 6881)]

/-- Each request is answered in its first attempt, and the list is on its way. -/
def ipv6Events : List NetEvent :=
  [.start, .receive 0 sampleConnectReply, .deliver,
    .receive 0 (udpReply 2 1800 5 3 ipv6List.blob)]

/-- The tracker lists one IPv6 peer and the call returns three IPv4 addresses. -/
theorem announce_fabricates_addresses :
    ∃ run s, ipv6Call.system.History run s ∧
      s.phase = .returned
        (.ok (response 1800 5 3 [.v4 0x20010DB8 0, .v4 0 0, .v4 1 6881])) ∧
      ¬ ∀ t ∈ run, ipv6Call.ReadsList t := by
  have hexec : ∃ s s' a net,
      ipv6Call.system.exec ipv6Call.system.init ipv6Events = some s ∧
      s.phase = .exchanging .announce (ipv6Call.announceRequest 7) 0 ∧
      s.net.deliver = some (a, net) ∧ a.reply = udpReply 2 1800 5 3 ipv6List.blob ∧
      ipv6Call.system.step s .deliver = some s' ∧
      s'.phase = .returned
        (.ok (response 1800 5 3 [.v4 0x20010DB8 0, .v4 0 0, .v4 1 6881])) :=
    ⟨_, _, _, _, rfl, rfl, rfl, rfl, rfl, rfl⟩
  obtain ⟨s, s', a, net, hs, hphase, hd, hreply, hstep, hret⟩ := hexec
  refine ⟨_, s', .snoc (System.History.ofExec _ hs) trivial hstep, hret, fun hr => ?_⟩
  obtain ⟨resp, hresp, hpeers⟩ := hr _ (List.mem_append_right _ List.mem_cons_self) ipv6List
    ⟨.v6 1 80, _, 0, a, net, 1800, 5, 3, rfl, trivial, rfl, hphase, hd, hreply⟩
  obtain rfl := Except.ok.inj (Phase.returned.inj (hret.symm.trans hresp))
  revert hpeers
  decide

end Udp

end Torrentina.Tracker
