import Torrentina.Core.Query
import Torrentina.Tracker.Response

/-!
# HTTP(S) tracker transport

The URL of an announce, a text being the list of its bytes. The two binary fields
are percent-encoded byte by byte, so they may hold the separators of a URL and
bring none of them into it. A tracker that takes the URL apart finds the same
parameters, behind whatever query the URL had before.
-/

namespace Torrentina.Tracker

open Torrentina.Core

def byteHash : UInt8 := '#'.toUInt8

/-- The value used in HTTP query strings, empty for "no event". -/
def Event.asHttpStr : Event → List UInt8
  | .started => key ['s', 't', 'a', 'r', 't', 'e', 'd']
  | .stopped => key ['s', 't', 'o', 'p', 'p', 'e', 'd']
  | .completed => key ['c', 'o', 'm', 'p', 'l', 'e', 't', 'e', 'd']
  | .none => []

/-- The URI "unreserved" set: every other byte is percent-encoded. -/
def unreserved : AsciiSet :=
  (((nonAlphanumeric.remove '-'.toUInt8).remove '.'.toUInt8).remove '_'.toUInt8).remove '~'.toUInt8

section

variable (percentEncode : AsciiSet → List UInt8 → List UInt8)

/-- Percent-encode raw bytes per the tracker convention. -/
def encode (bytes : List UInt8) : List UInt8 := percentEncode unreserved bytes

/-- Build the full announce URL, appending our query to any the tracker URL already carries. -/
def buildUrl (base : List UInt8) (params : AnnounceParams) : List UInt8 :=
  let q := key ['i', 'n', 'f', 'o', '_', 'h', 'a', 's', 'h', '=']
  let q := q ++ encode percentEncode params.infoHash.toList
  let q := q ++ key ['&', 'p', 'e', 'e', 'r', '_', 'i', 'd', '=']
  let q := q ++ encode percentEncode params.peerId.toList
  let q := q ++ (key ['&', 'p', 'o', 'r', 't', '='] ++ decimal params.port.toNat ++
    key ['&', 'u', 'p', 'l', 'o', 'a', 'd', 'e', 'd', '='] ++ decimal params.uploaded.toNat ++
    key ['&', 'd', 'o', 'w', 'n', 'l', 'o', 'a', 'd', 'e', 'd', '='] ++
    decimal params.downloaded.toNat ++
    key ['&', 'l', 'e', 'f', 't', '='] ++ decimal params.left.toNat ++
    key ['&', 'c', 'o', 'm', 'p', 'a', 'c', 't', '='] ++ decimal (if params.compact then 1 else 0))
  let event := params.event.asHttpStr
  let q := if event.isEmpty then q else q ++ key ['&', 'e', 'v', 'e', 'n', 't', '='] ++ event
  let q := match params.numwant with
    | some n => q ++ (key ['&', 'n', 'u', 'm', 'w', 'a', 'n', 't', '='] ++ decimal n.toNat)
    | none => q
  let separator := if byteQuestion ∈ base then byteAmpersand else byteQuestion
  base ++ separator :: q

end

/-! ## The parameters of an announce -/

def infoHashParam : List UInt8 := key ['i', 'n', 'f', 'o', '_', 'h', 'a', 's', 'h']
def peerIdParam : List UInt8 := key ['p', 'e', 'e', 'r', '_', 'i', 'd']
def uploadedParam : List UInt8 := key ['u', 'p', 'l', 'o', 'a', 'd', 'e', 'd']
def downloadedParam : List UInt8 := key ['d', 'o', 'w', 'n', 'l', 'o', 'a', 'd', 'e', 'd']
def leftParam : List UInt8 := key ['l', 'e', 'f', 't']
def compactParam : List UInt8 := key ['c', 'o', 'm', 'p', 'a', 'c', 't']
def eventParam : List UInt8 := key ['e', 'v', 'e', 'n', 't']
def numwantParam : List UInt8 := key ['n', 'u', 'm', 'w', 'a', 'n', 't']

/-- What every announce sends: the two binary fields as they are and the numbers in decimal. -/
def alwaysSent (params : AnnounceParams) : List (List UInt8 × List UInt8) :=
  [(infoHashParam, params.infoHash.toList), (peerIdParam, params.peerId.toList),
    (portKey, decimal params.port.toNat), (uploadedParam, decimal params.uploaded.toNat),
    (downloadedParam, decimal params.downloaded.toNat), (leftParam, decimal params.left.toNat),
    (compactParam, decimal (if params.compact then 1 else 0))]

/-- What a tracker is to read of an announce: also the event and the wanted number of
peers, when there is one. -/
def announceQuery (params : AnnounceParams) : List (List UInt8 × List UInt8) :=
  alwaysSent params ++
  (if params.event = .none then [] else [(eventParam, params.event.asHttpStr)]) ++
  match params.numwant with
  | some n => [(numwantParam, decimal n.toNat)]
  | none => []

/-! ## What we write -/

/-- A digit needs no escape. -/
theorem unreserved_of_isDigit {b : UInt8} (h : IsDigit b) :
    unreserved b = false ∧ b.toNat < 0x80 := by
  obtain ⟨hlo, hhi⟩ := h
  have hn : nonAlphanumeric b = false := by simp [nonAlphanumeric, hlo, hhi]
  refine ⟨?_, by omega⟩
  simp [unreserved, AsciiSet.remove, hn]

/-- A number is not changed by the encoding. -/
theorem percentEncode_decimal (n : Nat) :
    Core.percentEncode unreserved (decimal n) = decimal n :=
  percentEncode_of_forall fun _ hb => unreserved_of_isDigit (isDigit_of_mem_decimal hb)

/-- The name of an event is not changed by the encoding. -/
theorem percentEncode_asHttpStr (e : Event) :
    Core.percentEncode unreserved e.asHttpStr = e.asHttpStr := by
  cases e <;> decide

/-- Only no event has an empty name. -/
theorem asHttpStr_isEmpty_iff (e : Event) : e.asHttpStr.isEmpty = true ↔ e = .none := by
  cases e <;> decide

/-- The event is pushed behind a query exactly when there is one. -/
theorem writeQuery_event {ps : List (List UInt8 × List UInt8)} (hne : ps ≠ []) (e : Event) :
    writeQuery unreserved (ps ++ if e = .none then [] else [(eventParam, e.asHttpStr)]) =
      if e.asHttpStr.isEmpty then writeQuery unreserved ps
      else writeQuery unreserved ps ++ key ['&', 'e', 'v', 'e', 'n', 't', '='] ++ e.asHttpStr := by
  by_cases he : e = .none
  · rw [if_pos he, if_pos ((asHttpStr_isEmpty_iff e).mpr he), List.append_nil]
  · rw [if_neg he, if_neg fun h => he ((asHttpStr_isEmpty_iff e).mp h), writeQuery_concat hne,
      writeSegment, percentEncode_asHttpStr, List.append_assoc]
    rfl

/-- The wanted number of peers is pushed behind a query exactly when there is one. -/
theorem writeQuery_numwant {ps : List (List UInt8 × List UInt8)} (hne : ps ≠ [])
    (numwant : Option UInt32) :
    writeQuery unreserved (ps ++ match numwant with
      | some n => [(numwantParam, decimal n.toNat)]
      | none => []) = match numwant with
      | some n => writeQuery unreserved ps ++
        (key ['&', 'n', 'u', 'm', 'w', 'a', 'n', 't', '='] ++ decimal n.toNat)
      | none => writeQuery unreserved ps := by
  cases numwant with
  | none => rw [List.append_nil]
  | some n =>
    rw [writeQuery_concat hne, writeSegment, percentEncode_decimal]
    rfl

/-- The parameters that are always sent, as they are written. -/
theorem writeQuery_alwaysSent (params : AnnounceParams) :
    writeQuery unreserved (alwaysSent params) =
      key ['i', 'n', 'f', 'o', '_', 'h', 'a', 's', 'h', '='] ++
      Core.percentEncode unreserved params.infoHash.toList ++
      key ['&', 'p', 'e', 'e', 'r', '_', 'i', 'd', '='] ++
      Core.percentEncode unreserved params.peerId.toList ++
      (key ['&', 'p', 'o', 'r', 't', '='] ++ decimal params.port.toNat ++
      key ['&', 'u', 'p', 'l', 'o', 'a', 'd', 'e', 'd', '='] ++ decimal params.uploaded.toNat ++
      key ['&', 'd', 'o', 'w', 'n', 'l', 'o', 'a', 'd', 'e', 'd', '='] ++
      decimal params.downloaded.toNat ++
      key ['&', 'l', 'e', 'f', 't', '='] ++ decimal params.left.toNat ++
      key ['&', 'c', 'o', 'm', 'p', 'a', 'c', 't', '='] ++
      decimal (if params.compact then 1 else 0)) := by
  rw [alwaysSent]
  simp only [writeQuery, writeSegment, percentEncode_decimal, List.append_assoc]
  rfl

/-- The query that is written is the one of the announce's parameters. -/
theorem buildUrl_eq (base : List UInt8) (params : AnnounceParams) :
    buildUrl Core.percentEncode base params =
      addQuery base (writeQuery unreserved (announceQuery params)) := by
  have hne : alwaysSent params ≠ [] := List.cons_ne_nil _ _
  have hevent := List.append_ne_nil_of_left_ne_nil hne
    (if params.event = .none then [] else [(eventParam, params.event.asHttpStr)])
  rw [announceQuery, writeQuery_numwant hevent, writeQuery_event hne, writeQuery_alwaysSent]
  rfl

/-! ## The round trip -/

/-- The names of the parameters. -/
def paramNames : List (List UInt8) :=
  [infoHashParam, peerIdParam, portKey, uploadedParam, downloadedParam, leftParam, compactParam,
    eventParam, numwantParam]

/-- Every parameter has one of the names. -/
theorem mem_paramNames {params : AnnounceParams} {p : List UInt8 × List UInt8}
    (h : p ∈ announceQuery params) : p.1 ∈ paramNames := by
  rw [announceQuery, List.mem_append, List.mem_append] at h
  rcases h with (h | h) | h
  · have hm : p.1 ∈ paramNames.take 7 := List.mem_map_of_mem (f := Prod.fst) h
    exact List.mem_of_mem_take hm
  · split at h
    · cases h
    · obtain rfl := List.mem_singleton.mp h
      simp [paramNames]
  · split at h
    · obtain rfl := List.mem_singleton.mp h
      simp [paramNames]
    · cases h

/-- The bytes that separate the parts of a URL. -/
def separators : List UInt8 := [byteQuestion, byteAmpersand, byteEquals, byteHash]

/-- The encoding leaves no separator in a value. -/
theorem keepsOut_separators : ∀ c ∈ separators, unreserved.KeepsOut c := by decide +kernel

/-- No name has a separator. -/
theorem notMem_paramNames : ∀ name ∈ paramNames, ∀ c ∈ separators, c ∉ name := by
  decide +kernel

/-- No parameter has a separator in its name. -/
theorem notMem_announceQuery {c : UInt8} (hc : c ∈ separators) (params : AnnounceParams) :
    ∀ p ∈ announceQuery params, c ∉ p.1 :=
  fun _ hp => notMem_paramNames _ (mem_paramNames hp) c hc

/-- A tracker that takes the URL apart at `?`, `&` and `=` finds the segments of the
base as they were and behind them the parameters of the announce; the URL has no
fragment, and what is before the query stays. No separator is in an encoded field. -/
theorem buildUrl_roundTrip (percentEncode : AsciiSet → List UInt8 → List UInt8)
    (hencode : ∀ set bytes, percentEncode set bytes = Core.percentEncode set bytes)
    (base : List UInt8) (params : AnnounceParams) (hbase : byteHash ∉ base) :
    (∃ own, querySegments (urlQuery (buildUrl percentEncode base params)) =
        querySegments (urlQuery base) ++ own ∧ own.map readSegment = announceQuery params) ∧
    (splitFirst byteQuestion (buildUrl percentEncode base params)).1 =
      (splitFirst byteQuestion base).1 ∧
    byteHash ∉ buildUrl percentEncode base params ∧
    (∀ bytes, ∀ c ∈ separators, c ∉ encode percentEncode bytes) := by
  obtain rfl : percentEncode = Core.percentEncode := funext fun set => funext (hencode set)
  have hamp : unreserved.KeepsOut byteAmpersand := by decide
  have hpercent : unreserved bytePercent = true := by decide
  have hhash : unreserved.KeepsOut byteHash := by decide
  rw [buildUrl_eq]
  refine ⟨⟨(announceQuery params).map (writeSegment unreserved), ?_, ?_⟩,
    splitFirst_addQuery_fst base _, ?_, ?_⟩
  · rw [querySegments_addQuery,
      querySegments_writeQuery hamp (notMem_announceQuery (by decide) params)]
  · exact map_readSegment_writeSegment hpercent (notMem_announceQuery (by decide) params)
  · have hown := notMem_writeQuery hhash (by decide) (by decide)
      (notMem_announceQuery (by decide) params)
    rw [addQuery, List.mem_append, List.mem_cons]
    rintro (h | h | h)
    · exact hbase h
    · -- neither `&` nor `?` is a `#`
      split at h <;> (revert h; decide)
    · exact hown h
  · intro bytes c hc
    exact notMem_percentEncode (keepsOut_separators c hc) bytes

/-- A base with a query that ends in `&`, and an info hash made of separators. -/
theorem buildUrl_roundTrip_passkey :
    ∃ own, querySegments (urlQuery (buildUrl Core.percentEncode (key ['t', '?', 'k', '=', '1', '&'])
        ⟨Vector.replicate 20 byteAmpersand, Vector.replicate 20 0xff, 6881, 0, 0, 1024, .started,
          true, some 50⟩)) = [key ['k', '=', '1']] ++ own ∧
      own.map readSegment = announceQuery ⟨Vector.replicate 20 byteAmpersand,
        Vector.replicate 20 0xff, 6881, 0, 0, 1024, .started, true, some 50⟩ := by
  have hsegments : querySegments (urlQuery (key ['t', '?', 'k', '=', '1', '&'])) =
      [key ['k', '=', '1']] := by decide
  have h := (buildUrl_roundTrip Core.percentEncode (fun _ _ => rfl)
    (key ['t', '?', 'k', '=', '1', '&']) ⟨Vector.replicate 20 byteAmpersand,
      Vector.replicate 20 0xff, 6881, 0, 0, 1024, .started, true, some 50⟩ (by decide)).1
  rwa [hsegments] at h

end Torrentina.Tracker
