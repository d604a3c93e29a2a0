import Torrentina.Core.Ipv4Text
import Torrentina.Tracker.Bencode
import Torrentina.Tracker.Compact
import Torrentina.Tracker.Packets

/-!
# The reply of an HTTP tracker

Reading a bencoded response body. Its peers come as a compact blob or as a list
of dictionaries, and the IPv6 ones, if any, as a blob of their own. The decoder
is a parameter, as is the textual form of IPv6 addresses.
-/

namespace Torrentina.Tracker

open Torrentina.Core

/-! ## Keys -/

/-- A key of ASCII characters. -/
def key (name : List Char) : List UInt8 := name.map Char.toUInt8

def ipKey : List UInt8 := key ['i', 'p']
def portKey : List UInt8 := key ['p', 'o', 'r', 't']
def intervalKey : List UInt8 := key ['i', 'n', 't', 'e', 'r', 'v', 'a', 'l']
def completeKey : List UInt8 := key ['c', 'o', 'm', 'p', 'l', 'e', 't', 'e']
def incompleteKey : List UInt8 := key ['i', 'n', 'c', 'o', 'm', 'p', 'l', 'e', 't', 'e']
def peersKey : List UInt8 := key ['p', 'e', 'e', 'r', 's']
def peers6Key : List UInt8 := key ['p', 'e', 'e', 'r', 's', '6']
def failureReasonKey : List UInt8 :=
  key ['f', 'a', 'i', 'l', 'u', 'r', 'e', ' ', 'r', 'e', 'a', 's', 'o', 'n']

/-- The entries of a dictionary, where `HashMap::get` is `List.lookup`. -/
abbrev Dict : Type := List (List UInt8 × Value)

section

variable (fromBytes : List UInt8 → Except String Value)
variable (parseIpv6 : String → Option (BitVec 128))

/-! ## Reading a response -/

/-- `str::parse::<IpAddr>`. -/
def parseIpAddr (s : String) : Option IpAddr :=
  match parseIpv4 (utf8Bytes s) with
  | some ip => some (.v4 ip)
  | none => (parseIpv6 s).map .v6

/-- What the loop of `parse_peer_dicts` makes of one entry. -/
def parsePeerDict : Value → Option SocketAddr
  | .dict d =>
    match d.lookup ipKey with
    | some (.bytes b) =>
      match d.lookup portKey with
      | some (.int p) =>
        (parseIpAddr parseIpv6 (fromUtf8Lossy b)).map fun addr =>
          SocketAddr.new addr p.toUInt64.toUInt16
      | _ => none
    | _ => none
  | _ => none

/-- Parse the dictionary-model peer list, skipping what is no address. -/
def parsePeerDicts (list : List Value) : Except Error (List SocketAddr) :=
  .ok (list.filterMap (parsePeerDict parseIpv6))

/-- Look up an integer field. -/
def dictInt (dict : Dict) (key : List UInt8) : Option Int64 :=
  match dict.lookup key with
  | some (.int v) => some v
  | _ => none

/-- The addresses under `peers`. -/
def parsePeers (dict : Dict) : Except Error (List SocketAddr) :=
  match dict.lookup peersKey with
  | some (.bytes b) => parseCompactPeersV4 b
  | some (.list l) => parsePeerDicts parseIpv6 l
  | _ => .ok []

/-- The addresses under `peers6`. -/
def parsePeers6 (dict : Dict) : Except Error (List SocketAddr) :=
  match dict.lookup peers6Key with
  | some (.bytes b) => parseCompactPeersV6 b
  | _ => .ok []

/-- The response in a decoded dictionary. -/
def parseResponseDict (dict : Dict) : Except Error AnnounceResponse :=
  match dict.lookup failureReasonKey with
  | some (.bytes reason) => .error (.trackerFailure (fromUtf8Lossy reason))
  | _ => do
    let interval := (max ((dictInt dict intervalKey).getD 0) 0).toUInt64
    let seeders := (dictInt dict completeKey).map fun v => (max v 0).toUInt64.toUInt32
    let leechers := (dictInt dict incompleteKey).map fun v => (max v 0).toUInt64.toUInt32
    let peers ← parsePeers parseIpv6 dict
    let peers6 ← parsePeers6 dict
    return { interval, peers := peers ++ peers6, seeders, leechers }

/-- Parse a bencoded response body. -/
def parseHttpResponse (body : List UInt8) : Except Error AnnounceResponse :=
  match fromBytes body with
  | .error e => .error (.bencodeDecode e)
  | .ok (.dict dict) => parseResponseDict parseIpv6 dict
  | .ok _ => .error (.trackerFailure "response was not a bencode dictionary")

theorem parseHttpResponse_dict {body : List UInt8} {dict : Dict}
    (h : fromBytes body = .ok (.dict dict)) :
    parseHttpResponse fromBytes parseIpv6 body = parseResponseDict parseIpv6 dict := by
  rw [parseHttpResponse, h]

/-! ## Addresses in text -/

theorem parseIpAddr_ipv4Text (ip : BitVec 32) :
    parseIpAddr parseIpv6 (fromUtf8Lossy (ipv4Text ip)) = some (.v4 ip) := by
  rw [parseIpAddr, utf8Bytes_fromUtf8Lossy fun _ hb => ipv4Text_ascii hb, parseIpv4_ipv4Text]

end

/-! ## Narrowed integers -/

/-- Negatives clamp to zero and every other `i64` is a `u64`. -/
theorem toNat_clampNeg (n : Int64) : (max n 0).toUInt64.toNat = n.toInt.toNat := by
  change (if n ≤ 0 then 0 else n).toUInt64.toNat = n.toInt.toNat
  split
  · rename_i h
    rw [Int64.le_iff_toInt_le, Int64.toInt_zero] at h
    rw [Int.toNat_of_nonpos h]
    rfl
  · rename_i h
    rw [Int64.le_iff_toInt_le, Int64.toInt_zero, not_le] at h
    rw [Int64.toNat_toUInt64_of_le (Int64.le_iff_toInt_le.mpr h.le)]
    rfl

theorem toNat_clampNeg_u32 (n : Int64) :
    (max n 0).toUInt64.toUInt32.toNat = n.toInt.toNat % 2 ^ 32 := by
  rw [UInt64.toNat_toUInt32, toNat_clampNeg]

/-- The sixteen low bits, whatever is above them. -/
theorem toInt_toUInt16 (n : Int64) : (n.toUInt64.toUInt16.toNat : Int) = n.toInt % 2 ^ 16 := by
  have hbits : n.toInt = (n.toUInt64.toNat : Int) ∨
      n.toInt = (n.toUInt64.toNat : Int) - 2 ^ 64 := by
    have hi : n.toInt = if 2 * n.toUInt64.toNat < 2 ^ 64 then (n.toUInt64.toNat : Int)
        else n.toUInt64.toNat - (2 ^ 64 : Nat) := BitVec.toInt_eq_toNat_cond n.toBitVec
    split at hi
    · exact .inl hi
    · exact .inr hi
  rw [UInt64.toNat_toUInt16]
  omega

end Torrentina.Tracker
