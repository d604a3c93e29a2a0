import Torrentina.Tracker.Response

/-!
# The three encodings of a peer list

What a tracker sends for one list of peers: a dictionary with a compact blob, a
dictionary with a list of dictionaries, and a datagram. Read by their parsers
they are one response.
-/

namespace Torrentina.Tracker

open Torrentina.Core

/-! ## What a tracker sends -/

/-- A count as a bencode integer. -/
def countValue (n : UInt32) : Value := .int (Int64.ofNat n.toNat)

/-- The dictionary of one peer. -/
def peerDict (peer : BitVec 32 × UInt16) : Value :=
  .dict [(ipKey, .bytes (ipv4Text peer.1)), (portKey, .int (Int64.ofNat peer.2.toNat))]

/-- The two forms of the peers in a dictionary. -/
inductive PeersForm
  | compact
  | dictionaries

def PeersForm.value : PeersForm → Peers 32 → Value
  | .compact, peers => .bytes (compactV4 peers)
  | .dictionaries, peers => .list (peers.map peerDict)

/-- The entries of a response with its counts, its peers, and a blob of IPv6 peers if it has one. -/
def httpDict (interval seeders leechers : UInt32) (peers : Value) (peers6 : Option (List UInt8)) :
    Dict :=
  [(completeKey, countValue seeders), (incompleteKey, countValue leechers),
    (intervalKey, countValue interval), (peersKey, peers)] ++
    peers6.toList.map fun b => (peers6Key, .bytes b)

/-- The body of that response. -/
def httpReply (interval seeders leechers : UInt32) (peers : Value)
    (peers6 : Option (List UInt8)) : List UInt8 :=
  (Value.dict (httpDict interval seeders leechers peers peers6)).encode

/-- The announce reply with that transaction id: its header and a blob of peers. -/
def udpReply (txn interval seeders leechers : UInt32) (peers : List UInt8) : List UInt8 :=
  toBE 4 actionAnnounce.toNat ++ (toBE 4 txn.toNat ++ (toBE 4 interval.toNat ++
    (toBE 4 leechers.toNat ++ (toBE 4 seeders.toNat ++ peers))))

/-- The response with those counts and addresses. -/
def response (interval seeders leechers : UInt32) (peers : List SocketAddr) : AnnounceResponse where
  interval := interval.toUInt64
  peers := peers
  seeders := some seeders
  leechers := some leechers

/-! ## Reading it -/

private theorem toInt_ofNat_toNat (n : UInt32) : (Int64.ofNat n.toNat).toInt = n.toNat :=
  Int64.toInt_ofNat_of_lt (Nat.lt_trans n.toNat_lt (by decide))

private theorem count_u64 (n : UInt32) :
    (max (Int64.ofNat n.toNat) 0).toUInt64 = n.toUInt64 := by
  apply UInt64.toNat_inj.mp
  rw [toNat_clampNeg, toInt_ofNat_toNat, Int.toNat_natCast, UInt32.toNat_toUInt64]

private theorem port_u16 (port : UInt16) :
    (Int64.ofNat port.toNat).toUInt64.toUInt16 = port := by
  rw [Int64.toUInt64_ofNat']
  apply UInt16.toNat_inj.mp
  have := port.toNat_lt
  rw [UInt64.toNat_toUInt16, UInt64.toNat_ofNat']
  omega

section

variable (fromBytes : List UInt8 → Except String Value)
variable (parseIpv6 : String → Option (BitVec 128))

/-- A peer written as a dictionary is read back. -/
theorem parsePeerDict_peerDict (peer : BitVec 32 × UInt16) :
    parsePeerDict parseIpv6 (peerDict peer) = some (.v4 peer.1 peer.2) := by
  have hip : List.lookup ipKey [(ipKey, Value.bytes (ipv4Text peer.1)),
      (portKey, .int (Int64.ofNat peer.2.toNat))] = some (.bytes (ipv4Text peer.1)) := rfl
  have hport : List.lookup portKey [(ipKey, Value.bytes (ipv4Text peer.1)),
      (portKey, .int (Int64.ofNat peer.2.toNat))] = some (.int (Int64.ofNat peer.2.toNat)) := rfl
  simp only [peerDict, parsePeerDict, hip, hport, parseIpAddr_ipv4Text, Option.map_some, port_u16,
    SocketAddr.new]

/-- Peers written as dictionaries are read back. -/
theorem parsePeerDicts_peerDict (peers : Peers 32) :
    parsePeerDicts parseIpv6 (peers.map peerDict) = .ok (addrsV4 peers) := by
  have h : parsePeerDict parseIpv6 ∘ peerDict = some ∘ fun p => .v4 p.1 p.2 := by
    funext p
    rw [Function.comp_apply, parsePeerDict_peerDict, Function.comp_apply]
  rw [parsePeerDicts, List.filterMap_map, h, List.filterMap_eq_map]
  rfl

variable {interval seeders leechers : UInt32} {peers : Value} {peers6 : Option (List UInt8)}

/-- The keys of a response are in their order. -/
theorem httpDict_canonical (h : peers.Canonical) :
    (Value.dict (httpDict interval seeders leechers peers peers6)).Canonical := by
  apply Value.Canonical.dict
  · cases peers6 with
    | none =>
      change [completeKey, incompleteKey, intervalKey, peersKey].Pairwise (· < ·)
      decide
    | some b =>
      change [completeKey, incompleteKey, intervalKey, peersKey, peers6Key].Pairwise (· < ·)
      decide
  · intro e he
    rcases List.mem_append.mp he with hm | hm
    · simp only [List.mem_cons, List.not_mem_nil, or_false] at hm
      rcases hm with rfl | rfl | rfl | rfl
      · exact .int _
      · exact .int _
      · exact .int _
      · exact h
    · obtain ⟨b, -, rfl⟩ := List.mem_map.mp hm
      exact .bytes b

/-- The response has its peers under their key. -/
theorem lookup_peers :
    (httpDict interval seeders leechers peers peers6).lookup peersKey = some peers := by
  cases peers6 <;> rfl

/-- The response has its IPv6 peers under their key. -/
theorem lookup_peers6 :
    (httpDict interval seeders leechers peers peers6).lookup peers6Key =
      peers6.map .bytes := by
  cases peers6 <;> rfl

/-- A response is its numbers, its peers and its IPv6 peers. -/
theorem parseResponseDict_httpDict :
    parseResponseDict parseIpv6 (httpDict interval seeders leechers peers peers6) = do
      let v4 ← parsePeers parseIpv6 (httpDict interval seeders leechers peers peers6)
      let v6 ← parsePeers6 (httpDict interval seeders leechers peers peers6)
      return response interval seeders leechers (v4 ++ v6) := by
  have hfail : (httpDict interval seeders leechers peers peers6).lookup failureReasonKey =
      none := by
    cases peers6 <;> rfl
  have hinterval : dictInt (httpDict interval seeders leechers peers peers6) intervalKey =
      some (Int64.ofNat interval.toNat) := by
    cases peers6 <;> rfl
  have hseeders : dictInt (httpDict interval seeders leechers peers peers6) completeKey =
      some (Int64.ofNat seeders.toNat) := by
    cases peers6 <;> rfl
  have hleechers : dictInt (httpDict interval seeders leechers peers peers6) incompleteKey =
      some (Int64.ofNat leechers.toNat) := by
    cases peers6 <;> rfl
  simp only [parseResponseDict, hfail, hinterval, hseeders, hleechers, Option.getD_some,
    Option.map_some, count_u64, UInt32.toUInt32_toUInt64]
  rfl

/-- What a decoder of canonical encodings makes of a response. -/
theorem parseHttpResponse_httpReply (hfrom : ∀ v : Value, v.Canonical → fromBytes v.encode = .ok v)
    (h : peers.Canonical) :
    parseHttpResponse fromBytes parseIpv6 (httpReply interval seeders leechers peers peers6) = do
      let v4 ← parsePeers parseIpv6 (httpDict interval seeders leechers peers peers6)
      let v6 ← parsePeers6 (httpDict interval seeders leechers peers peers6)
      return response interval seeders leechers (v4 ++ v6) := by
  rw [httpReply, parseHttpResponse_dict fromBytes parseIpv6 (hfrom _ (httpDict_canonical h)),
    parseResponseDict_httpDict]

/-- A byte string of peers is read as a compact list. -/
theorem parsePeers_bytes (blob : List UInt8) :
    parsePeers parseIpv6 (httpDict interval seeders leechers (.bytes blob) peers6) =
      parseCompactPeersV4 blob := by
  rw [parsePeers, lookup_peers]

/-- In either form, a list of peers is read as its addresses. -/
theorem parsePeers_form (form : PeersForm) (list : Peers 32) :
    parsePeers parseIpv6 (httpDict interval seeders leechers (form.value list) peers6) =
      .ok (addrsV4 list) := by
  cases form with
  | compact => rw [PeersForm.value, parsePeers_bytes, parseCompactPeersV4_compactV4]
  | dictionaries =>
    rw [parsePeers, lookup_peers]
    exact parsePeerDicts_peerDict parseIpv6 list

/-- Without the key there are no IPv6 peers. -/
theorem parsePeers6_none :
    parsePeers6 (httpDict interval seeders leechers peers none) = .ok [] := by
  rw [parsePeers6, lookup_peers6]
  rfl

/-- The byte string of IPv6 peers is read as a compact list. -/
theorem parsePeers6_some (blob : List UInt8) :
    parsePeers6 (httpDict interval seeders leechers peers (some blob)) =
      parseCompactPeersV6 blob := by
  rw [parsePeers6, lookup_peers6]
  rfl

/-- A peer is written in canonical form. -/
theorem peerDict_canonical (peer : BitVec 32 × UInt16) : (peerDict peer).Canonical := by
  apply Value.Canonical.dict
  · change [ipKey, portKey].Pairwise (· < ·)
    decide
  · intro e he
    simp only [List.mem_cons, List.not_mem_nil, or_false] at he
    rcases he with rfl | rfl
    · exact .bytes _
    · exact .int _

/-- Either form of the list is canonical. -/
theorem form_canonical (form : PeersForm) (list : Peers 32) : (form.value list).Canonical := by
  cases form with
  | compact => exact .bytes _
  | dictionaries =>
    apply Value.Canonical.list
    intro v hv
    obtain ⟨p, -, rfl⟩ := List.mem_map.mp hv
    exact peerDict_canonical p

end

private theorem readU32_first (n : UInt32) (rest : List UInt8) :
    readU32 (toBE 4 n.toNat ++ rest) 0 = n :=
  @readU32_append [] 0 rfl n rest

private theorem readU32_next (n : Nat) (rest : List UInt8) (k : Nat) :
    readU32 (toBE 4 n ++ rest) (4 + k) = readU32 rest k := by
  rw [readU32, readU32, ← List.drop_drop, List.drop_left' (length_toBE 4 n)]

/-- The fields of the datagram, which has the leechers before the seeders. -/
theorem udpReply_fields (txn interval seeders leechers : UInt32) (blob : List UInt8) :
    readU32 (udpReply txn interval seeders leechers blob) 0 = actionAnnounce ∧
      readU32 (udpReply txn interval seeders leechers blob) 4 = txn ∧
      readU32 (udpReply txn interval seeders leechers blob) 8 = interval ∧
      readU32 (udpReply txn interval seeders leechers blob) 12 = leechers ∧
      readU32 (udpReply txn interval seeders leechers blob) 16 = seeders := by
  rw [udpReply]
  refine ⟨?_, ?_, ?_, ?_, ?_⟩
  · rw [readU32_first]
  · rw [readU32_next _ _ 0, readU32_first]
  · rw [readU32_next _ _ 4, readU32_next _ _ 0, readU32_first]
  · rw [readU32_next _ _ 8, readU32_next _ _ 4, readU32_next _ _ 0, readU32_first]
  · rw [readU32_next _ _ 12, readU32_next _ _ 8, readU32_next _ _ 4, readU32_next _ _ 0,
      readU32_first]

/-- The length of a UDP reply. -/
theorem length_udpReply (txn interval seeders leechers : UInt32) (blob : List UInt8) :
    (udpReply txn interval seeders leechers blob).length =
      announceResponseHeaderLen + blob.length := by
  simp only [udpReply, List.length_append, length_toBE, announceResponseHeaderLen]
  omega

/-- After the header of a UDP reply comes its list. -/
theorem drop_udpReply (txn interval seeders leechers : UInt32) (blob : List UInt8) :
    (udpReply txn interval seeders leechers blob).drop announceResponseHeaderLen = blob := by
  simp only [udpReply, ← List.append_assoc]
  exact List.drop_left' (by simp [announceResponseHeaderLen])

/-- A UDP reply is read as its numbers and its list. -/
theorem parseAnnounceResponse_udpReply (txn interval seeders leechers : UInt32)
    (blob : List UInt8) :
    parseAnnounceResponse (udpReply txn interval seeders leechers blob) txn =
      (parseCompactPeersV4 blob).map (response interval seeders leechers) := by
  obtain ⟨haction, htxn, hinterval, hleechers, hseeders⟩ :=
    udpReply_fields txn interval seeders leechers blob
  rw [parseAnnounceResponse_announce htxn haction (by rw [length_udpReply]; omega), hinterval,
    hleechers, hseeders, drop_udpReply]
  rfl

/-! ## The encodings agree -/

/-- One list of IPv4 peers is one response, in either form of a dictionary and as a
datagram; IPv6 peers are appended to it; and a compact blob is rejected exactly where it
is no whole number of entries. -/
theorem peer_lists_agree (fromBytes : List UInt8 → Except String Value)
    (parseIpv6 : String → Option (BitVec 128))
    (hfrom : ∀ v : Value, v.Canonical → fromBytes v.encode = .ok v)
    (txn interval seeders leechers : UInt32) :
    (∀ (form : PeersForm) (peers : Peers 32),
      parseHttpResponse fromBytes parseIpv6
          (httpReply interval seeders leechers (form.value peers) none) =
        .ok (response interval seeders leechers (addrsV4 peers)) ∧
      parseAnnounceResponse (udpReply txn interval seeders leechers (compactV4 peers)) txn =
        .ok (response interval seeders leechers (addrsV4 peers)) ∧
      ∀ peers6 : Peers 128,
        parseHttpResponse fromBytes parseIpv6
            (httpReply interval seeders leechers (form.value peers) (some (compactV6 peers6))) =
          .ok (response interval seeders leechers (addrsV4 peers ++ addrsV6 peers6))) ∧
    (∀ blob : List UInt8,
      ((∃ e, parseHttpResponse fromBytes parseIpv6
          (httpReply interval seeders leechers (.bytes blob) none) = .error e) ↔
        ¬ compactPeerV4Len ∣ blob.length) ∧
      ((∃ e, parseAnnounceResponse (udpReply txn interval seeders leechers blob) txn =
          .error e) ↔ ¬ compactPeerV4Len ∣ blob.length) ∧
      ∀ (form : PeersForm) (peers : Peers 32),
        (∃ e, parseHttpResponse fromBytes parseIpv6
          (httpReply interval seeders leechers (form.value peers) (some blob)) = .error e) ↔
            ¬ compactPeerV6Len ∣ blob.length) := by
  constructor
  · intro form peers
    have hform := form_canonical form peers
    refine ⟨?_, ?_, ?_⟩
    · rw [parseHttpResponse_httpReply fromBytes parseIpv6 hfrom hform, parsePeers_form,
        parsePeers6_none]
      exact congrArg (Except.ok ∘ response interval seeders leechers) (List.append_nil _)
    · rw [parseAnnounceResponse_udpReply, parseCompactPeersV4_compactV4]
      rfl
    · intro peers6
      rw [parseHttpResponse_httpReply fromBytes parseIpv6 hfrom hform, parsePeers_form,
        parsePeers6_some, parseCompactPeersV6_compactV6]
      rfl
  · intro blob
    refine ⟨?_, ?_, ?_⟩
    · rw [parseHttpResponse_httpReply fromBytes parseIpv6 hfrom (.bytes blob), parsePeers_bytes,
        parsePeers6_none]
      exact (bind_isError_iff fun _ => ⟨_, rfl⟩).trans (parseCompactPeersV4_isError_iff blob)
    · rw [parseAnnounceResponse_udpReply, ← parseCompactPeersV4_isError_iff]
      cases parseCompactPeersV4 blob <;> simp [Except.map]
    · intro form peers
      rw [parseHttpResponse_httpReply fromBytes parseIpv6 hfrom (form_canonical form peers),
        parsePeers_form, parsePeers6_some]
      exact (bind_isError_iff fun _ => ⟨_, rfl⟩).trans (parseCompactPeersV6_isError_iff blob)

/-- Two peers from a decoder of canonical encodings. -/
theorem peer_lists_agree_decode :
    parseHttpResponse decode (fun _ => none)
        (httpReply 1800 5 3 (.list ([(0x01020304, 6881), (0x0A000001, 6882)].map peerDict))
          none) =
      .ok (response 1800 5 3 [.v4 0x01020304 6881, .v4 0x0A000001 6882]) :=
  ((peer_lists_agree decode (fun _ => none) (fun v _ => decode_encode v) 7 1800 5 3).1
    .dictionaries [(0x01020304, 6881), (0x0A000001, 6882)]).1

end Torrentina.Tracker
