import Torrentina.Tracker.Response

/-!
# Integers of a response

Which of a tracker's integers reach the response unchanged. Negatives are
clamped to zero, but what is too large for its field is cut to the field's low
bits, and so is every port.
-/

namespace Torrentina.Tracker

open Torrentina.Core

/-! ## Filters of which one keeps less -/

section

variable {α β : Type} {f g : α → Option β}

private theorem length_filterMap_le (h : ∀ a, g a = none ∨ g a = f a) (l : List α) :
    (l.filterMap g).length ≤ (l.filterMap f).length := by
  induction l with
  | nil => exact Nat.le_refl _
  | cons a l ih =>
    rw [List.filterMap_cons, List.filterMap_cons]
    rcases h a with ha | ha
    · rw [ha]
      cases f a with
      | none => exact ih
      | some b => exact Nat.le_succ_of_le ih
    · rw [ha]
      cases f a with
      | none => exact ih
      | some b => exact Nat.succ_le_succ ih

/-- They keep the same exactly where they agree. -/
theorem filterMap_eq_iff (h : ∀ a, g a = none ∨ g a = f a) (l : List α) :
    l.filterMap f = l.filterMap g ↔ ∀ a ∈ l, g a = f a := by
  constructor
  · intro he
    induction l with
    | nil => simp
    | cons a l ih =>
      rw [List.filterMap_cons, List.filterMap_cons] at he
      have hle := length_filterMap_le h l
      have ha : g a = f a := by
        rcases h a with hn | ha
        · cases hf : f a with
          | none => exact hn
          | some b =>
            -- the longer list cannot be the shorter one
            rw [hn, hf] at he
            have hlen : (l.filterMap f).length + 1 = (l.filterMap g).length :=
              congrArg List.length he
            omega
        · exact ha
      rw [ha] at he
      refine List.forall_mem_cons.mpr ⟨ha, ih ?_⟩
      cases hf : f a with
      | none => rwa [hf] at he
      | some b =>
        rw [hf] at he
        exact (List.cons.inj he).2
  · intro he
    exact List.filterMap_congr fun a ha => (he a ha).symm

end

section

variable (parseIpv6 : String → Option (BitVec 128))

/-! ## What an entry says -/

/-- The address an entry names, if it is one. -/
def entryIp : Value → Option IpAddr
  | .dict d =>
    match d.lookup ipKey with
    | some (.bytes b) => parseIpAddr parseIpv6 (fromUtf8Lossy b)
    | _ => none
  | _ => none

/-- The integer an entry has for its port. -/
def entryPort : Value → Option Int64
  | .dict d => dictInt d portKey
  | _ => none

/-- A port is an integer from 0 to 65535. -/
def IsPort (p : Int64) : Prop := 0 ≤ p.toInt ∧ p.toInt < 2 ^ 16

instance (p : Int64) : Decidable (IsPort p) := inferInstanceAs (Decidable (_ ∧ _))

/-- The socket address an entry stands for: none where its integer is no port. -/
def entryAddr (entry : Value) : Option SocketAddr :=
  (entryIp parseIpv6 entry).bind fun ip =>
    (entryPort entry).bind fun p =>
      if IsPort p then some (SocketAddr.new ip (UInt16.ofNat p.toInt.toNat)) else none

/-! ## What is read -/

/-- The value of an integer in a field for the numbers up to `top`. -/
def clampTo (top : Nat) (n : Int64) : Nat := min n.toInt.toNat top

/-- The integers of a decoded response are in the parsed one, none of them truncated:
every address has its entry's port, and every count is the tracker's integer, clamped
to its field. -/
structure Untruncated (dict : Dict) (resp : AnnounceResponse) : Prop where
  peers : ∀ l, dict.lookup peersKey = some (.list l) →
    ∃ v6, parsePeers6 dict = .ok v6 ∧ resp.peers = l.filterMap (entryAddr parseIpv6) ++ v6
  seeders : ∀ s, resp.seeders = some s →
    ∃ n, dictInt dict completeKey = some n ∧ s.toNat = clampTo (2 ^ 32 - 1) n
  leechers : ∀ s, resp.leechers = some s →
    ∃ n, dictInt dict incompleteKey = some n ∧ s.toNat = clampTo (2 ^ 32 - 1) n
  interval : ∀ n, dictInt dict intervalKey = some n →
    resp.interval.toNat = clampTo (2 ^ 64 - 1) n

/-- The low 32 bits of the integer are its clamped value. -/
def FitsU32 (n : Int64) : Prop := n.toInt < 2 ^ 32 ∨ n.toInt % 2 ^ 32 = 2 ^ 32 - 1

/-- Every entry that names an address has a port for its port, and the counts fit. -/
structure InRange (dict : Dict) : Prop where
  ports : ∀ l, dict.lookup peersKey = some (.list l) → ∀ entry ∈ l, ∀ ip p,
    entryIp parseIpv6 entry = some ip → entryPort entry = some p → IsPort p
  seeders : ∀ n, dictInt dict completeKey = some n → FitsU32 n
  leechers : ∀ n, dictInt dict incompleteKey = some n → FitsU32 n

/-! ## Ports -/

/-- A peer is read when its address and port are. -/
theorem parsePeerDict_eq (entry : Value) :
    parsePeerDict parseIpv6 entry = (entryIp parseIpv6 entry).bind fun ip =>
      (entryPort entry).map fun p => SocketAddr.new ip p.toUInt64.toUInt16 := by
  cases entry with
  | int n => rfl
  | bytes b => rfl
  | list items => rfl
  | dict d =>
    simp only [parsePeerDict, entryIp, entryPort, dictInt]
    generalize d.lookup ipKey = ip, d.lookup portKey = port
    rcases ip with _ | (_ | b | _ | _)
    · rfl
    · rfl
    · simp only
      cases parseIpAddr parseIpv6 (fromUtf8Lossy b) <;> rcases port with _ | (_ | _ | _ | _) <;> rfl
    · rfl
    · rfl

/-- A port is kept exactly when it fits. -/
theorem isPort_iff (p : Int64) : IsPort p ↔ (p.toUInt64.toUInt16.toNat : Int) = p.toInt := by
  rw [toInt_toUInt16, IsPort]
  omega

/-- A port is read as itself. -/
theorem entryAddr_of_isPort {entry : Value} (h : ∀ p, entryPort entry = some p → IsPort p) :
    entryAddr parseIpv6 entry = parsePeerDict parseIpv6 entry := by
  rw [parsePeerDict_eq, entryAddr]
  congr 1
  funext ip
  cases hp : entryPort entry with
  | none => rfl
  | some p =>
    have hport : UInt16.ofNat p.toInt.toNat = p.toUInt64.toUInt16 := by
      apply UInt16.toNat_inj.mp
      have := (isPort_iff p).mp (h p hp)
      have := p.toUInt64.toUInt16.toNat_lt
      rw [UInt16.toNat_ofNat']
      omega
    rw [Option.bind_some, if_pos (h p hp), hport]
    rfl

/-- An entry stands for an address only where one is read from it, and that one. -/
theorem entryAddr_eq_none_or (entry : Value) :
    entryAddr parseIpv6 entry = none ∨
      entryAddr parseIpv6 entry = parsePeerDict parseIpv6 entry := by
  cases hp : entryPort entry with
  | none =>
    refine .inl ?_
    rw [entryAddr, hp]
    cases entryIp parseIpv6 entry <;> rfl
  | some p =>
    by_cases h : IsPort p
    · refine .inr (entryAddr_of_isPort parseIpv6 fun q hq => ?_)
      obtain rfl := Option.some.inj (hp.symm.trans hq)
      exact h
    · refine .inl ?_
      rw [entryAddr, hp]
      cases entryIp parseIpv6 entry with
      | none => rfl
      | some ip => rw [Option.bind_some, Option.bind_some, if_neg h]

/-- A peer is read exactly when its port fits. -/
theorem entryAddr_eq_iff (entry : Value) :
    entryAddr parseIpv6 entry = parsePeerDict parseIpv6 entry ↔
      ∀ ip p, entryIp parseIpv6 entry = some ip → entryPort entry = some p → IsPort p := by
  constructor
  · intro h ip p hip hp
    by_contra hn
    rw [parsePeerDict_eq, entryAddr, hip, hp, Option.bind_some, Option.bind_some, if_neg hn] at h
    cases h
  · intro h
    cases hip : entryIp parseIpv6 entry with
    | none => rw [parsePeerDict_eq, entryAddr, hip]; rfl
    | some ip => exact entryAddr_of_isPort parseIpv6 fun p hp => h ip p hip hp

/-! ## Counts -/

/-- A count is kept in 32 bits exactly when it fits. -/
theorem clampTo_eq_iff (n : Int64) :
    (max n 0).toUInt64.toUInt32.toNat = clampTo (2 ^ 32 - 1) n ↔ FitsU32 n := by
  rw [toNat_clampNeg_u32, clampTo, FitsU32]
  omega

/-- A count is always kept in 64 bits. -/
theorem clampTo_u64 (n : Int64) : (max n 0).toUInt64.toNat = clampTo (2 ^ 64 - 1) n := by
  have := n.toInt_lt
  rw [toNat_clampNeg, clampTo]
  omega

/-- One count of the response against the field it is read from. -/
theorem count_iff {dict : Dict} {key : List UInt8} {count : Option UInt32}
    (h : count = (dictInt dict key).map fun v => (max v 0).toUInt64.toUInt32) :
    (∀ s, count = some s →
      ∃ n, dictInt dict key = some n ∧ s.toNat = clampTo (2 ^ 32 - 1) n) ↔
      ∀ n, dictInt dict key = some n → FitsU32 n := by
  cases hn : dictInt dict key with
  | none => simp [h, hn]
  | some n => simpa [h, hn] using clampTo_eq_iff n

/-! ## A response and its integers -/

/-- What a parsed response consists of. -/
theorem parseResponseDict_eq_ok {dict : Dict} {resp : AnnounceResponse}
    (h : parseResponseDict parseIpv6 dict = .ok resp) :
    ∃ peers v6, parsePeers parseIpv6 dict = .ok peers ∧ parsePeers6 dict = .ok v6 ∧
      resp.peers = peers ++ v6 ∧
      resp.interval = (max ((dictInt dict intervalKey).getD 0) 0).toUInt64 ∧
      resp.seeders = (dictInt dict completeKey).map (fun v => (max v 0).toUInt64.toUInt32) ∧
      resp.leechers =
        (dictInt dict incompleteKey).map fun v => (max v 0).toUInt64.toUInt32 := by
  rw [parseResponseDict] at h
  split at h
  · cases h
  · obtain ⟨peers, hpeers, h⟩ := bind_eq_ok_iff.mp h
    obtain ⟨v6, hv6, h⟩ := bind_eq_ok_iff.mp h
    obtain rfl := Except.ok.inj h
    exact ⟨peers, v6, hpeers, hv6, rfl, rfl, rfl, rfl⟩

/-- A response holds the tracker's integers exactly where its ports are ports and its
counts fit their fields. -/
theorem untruncated_iff (fromBytes : List UInt8 → Except String Value) {body : List UInt8}
    {dict : Dict} {resp : AnnounceResponse} (hd : fromBytes body = .ok (.dict dict))
    (hr : parseHttpResponse fromBytes parseIpv6 body = .ok resp) :
    Untruncated parseIpv6 dict resp ↔ InRange parseIpv6 dict := by
  rw [parseHttpResponse_dict fromBytes parseIpv6 hd] at hr
  obtain ⟨peers, v6, hpeers, hv6, hp, hi, hs, hl⟩ := parseResponseDict_eq_ok parseIpv6 hr
  have hentries : ∀ l, dict.lookup peersKey = some (.list l) →
      ((∃ v6, parsePeers6 dict = .ok v6 ∧
          resp.peers = l.filterMap (entryAddr parseIpv6) ++ v6) ↔
        ∀ entry ∈ l, ∀ ip p,
          entryIp parseIpv6 entry = some ip → entryPort entry = some p → IsPort p) := by
    intro l hlist
    have hread : peers = l.filterMap (parsePeerDict parseIpv6) := by
      rw [parsePeers, hlist] at hpeers
      exact (Except.ok.inj hpeers).symm
    have hkeep := filterMap_eq_iff (entryAddr_eq_none_or parseIpv6) l
    simp only [hv6, hp, hread, Except.ok.injEq, exists_eq_left', List.append_left_inj, hkeep,
      entryAddr_eq_iff]
  constructor
  · intro hu
    exact {
      ports := fun l hlist => (hentries l hlist).mp (hu.peers l hlist)
      seeders := (count_iff hs).mp hu.seeders
      leechers := (count_iff hl).mp hu.leechers }
  · intro hin
    exact {
      peers := fun l hlist => (hentries l hlist).mpr (hin.ports l hlist)
      seeders := (count_iff hs).mpr hin.seeders
      leechers := (count_iff hl).mpr hin.leechers
      interval := by
        intro n hn
        rw [hi, hn, Option.getD_some, clampTo_u64] }

end


/-! ## A response with one count and one entry -/

def sampleDict (complete port : Int64) : Dict :=
  [(completeKey, .int complete),
    (peersKey, .list [.dict [(ipKey, .bytes (ipv4Text 0x01020304)), (portKey, .int port)]])]

def sampleResponse (complete port : Int64) : AnnounceResponse where
  interval := 0
  peers := [.v4 0x01020304 port.toUInt64.toUInt16]
  seeders := some (max complete 0).toUInt64.toUInt32
  leechers := none

/-- What is made of the sample response. -/
theorem parseHttpResponse_sample (complete port : Int64) :
    parseHttpResponse decode (fun _ => none) (Value.dict (sampleDict complete port)).encode =
      .ok (sampleResponse complete port) := by
  rw [parseHttpResponse_dict decode _ (decode_encode _)]
  have hentry : parsePeerDict (fun _ => none)
      (.dict [(ipKey, .bytes (ipv4Text 0x01020304)), (portKey, .int port)]) =
        some (.v4 0x01020304 port.toUInt64.toUInt16) := by
    have hip : entryIp (fun _ => none)
        (.dict [(ipKey, .bytes (ipv4Text 0x01020304)), (portKey, .int port)]) =
          some (.v4 0x01020304) := parseIpAddr_ipv4Text (fun _ => none) 0x01020304
    rw [parsePeerDict_eq, hip]
    rfl
  have hpeers : parsePeers (fun _ => none) (sampleDict complete port) =
      .ok [.v4 0x01020304 port.toUInt64.toUInt16] := by
    change parsePeerDicts (fun _ => none) [_] = _
    rw [parsePeerDicts, List.filterMap_cons, hentry]
    rfl
  rw [parseResponseDict, hpeers]
  rfl

/-- Port 6881 and five seeders. -/
theorem untruncated_iff_sample :
    Untruncated (fun _ => none) (sampleDict 5 6881) (sampleResponse 5 6881) ↔
      InRange (fun _ => none) (sampleDict 5 6881) :=
  untruncated_iff (fun _ => none) decode (decode_encode _) (parseHttpResponse_sample 5 6881)

/-- Port 72417 is read as 6881, and 4294967301 seeders as five. -/
theorem integers_truncated :
    ∃ body dict resp, decode body = .ok (.dict dict) ∧
      parseHttpResponse decode (fun _ => none) body = .ok resp ∧
      dictInt dict completeKey = some 4294967301 ∧ resp.seeders = some 5 ∧
      dict.lookup peersKey =
        some (.list [.dict [(ipKey, .bytes (ipv4Text 0x01020304)), (portKey, .int 72417)]]) ∧
      resp.peers = [.v4 0x01020304 6881] ∧ ¬ Untruncated (fun _ => none) dict resp := by
  refine ⟨_, sampleDict 4294967301 72417, _, decode_encode _, parseHttpResponse_sample _ _, rfl,
    rfl, rfl, rfl, fun hu => ?_⟩
  obtain ⟨n, hn, hs⟩ := hu.seeders 5 rfl
  obtain rfl := Option.some.inj hn
  revert hs
  decide

end Torrentina.Tracker
