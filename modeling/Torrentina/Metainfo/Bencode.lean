import Torrentina.Core.Decimal
import Torrentina.Error
import Mathlib.Algebra.Group.Nat.Defs

/-!
# The raw bencode walk

A minimal, index-based walk over a metainfo buffer that finds the byte span of
the top-level `info` value without decoding it. Indexing past the buffer is a
panic in the source and a `Fault.panic` here. A skipped value carries the proof
that the walk moved forward and stayed inside the buffer, which is also why the
container loop terminates.
-/

namespace Torrentina.Metainfo

open Torrentina.Core

/-- The largest `usize`. -/
def usizeMax : Nat := 2 ^ 64 - 1

/-- The largest `isize`, the bound on the length of every slice. -/
def isizeMax : Nat := 2 ^ 63 - 1

/-! ## Bytes of the grammar -/

def byteI : UInt8 := 'i'.toUInt8
def byteL : UInt8 := 'l'.toUInt8
def byteD : UInt8 := 'd'.toUInt8
def byteE : UInt8 := 'e'.toUInt8
def byteColon : UInt8 := ':'.toUInt8
def bytePlus : UInt8 := '+'.toUInt8

/-- The key `info` as bytes. -/
def infoKey : List UInt8 := ['i'.toUInt8, 'n'.toUInt8, 'f'.toUInt8, 'o'.toUInt8]

/-! ## Primitives -/

/-- A returned `Error::MalformedTorrent`. -/
def malformed (msg : String) : Fault := .error (.malformedTorrent msg)

/-- `&buf[i..j]`, which panics when the range is not inside the buffer. -/
def slice (buf : List UInt8) (i j : Nat) : Except Fault (List UInt8) :=
  if i ≤ j ∧ j ≤ buf.length then .ok ((buf.drop i).take (j - i)) else .error .panic

/-- `str::parse::<usize>` on bytes: an optional `+`, then digits, with overflow
rejected. Bytes that are not UTF-8 are no digits, so they fail the same way. -/
def parseUsize (s : List UInt8) : Option Nat :=
  let digits := match s with
    | b :: rest => if b = bytePlus then rest else b :: rest
    | [] => []
  (parseDecimal digits).bind fun n => if n ≤ usizeMax then some n else none

/-- The two lowercase digits of `{:02x}`. -/
def hexByte (b : UInt8) : String :=
  String.ofList [Nat.digitChar (b.toNat / 16), Nat.digitChar (b.toNat % 16)]

/-! ## The walk -/

/-- Parse `<len>:<bytes>` at `i`: the bytes and the index just past them. -/
def readByteString (buf : List UInt8) (i : Nat) : Except Fault (List UInt8 × Nat) := do
  let tail ← slice buf i buf.length
  let off ← okOr (tail.findIdx? (· == byteColon)) (malformed "byte string missing ':' delimiter")
  let colon := i + off
  let digits ← slice buf i colon
  let len ← okOr (parseUsize digits) (malformed "invalid byte-string length")
  let start := colon + 1
  if start + len ≤ usizeMax ∧ start + len ≤ buf.length then do
    let bytes ← slice buf start (start + len)
    return (bytes, start + len)
  else .error (malformed "byte string runs past end of buffer")

/-- An index the walk may move to from `i`. -/
abbrev After (buf : List UInt8) (i : Nat) : Type := {j : Nat // i < j ∧ j ≤ buf.length}

theorem slice_ok {buf : List UInt8} {i j : Nat} (hij : i ≤ j) (hj : j ≤ buf.length) :
    slice buf i j = .ok ((buf.drop i).take (j - i)) := by
  rw [slice, if_pos ⟨hij, hj⟩]

theorem slice_eq_ok {buf bytes : List UInt8} {i j : Nat} (h : slice buf i j = .ok bytes) :
    i ≤ j ∧ j ≤ buf.length ∧ bytes = (buf.drop i).take (j - i) := by
  rw [slice] at h
  split at h
  · rename_i hij
    exact ⟨hij.1, hij.2, (Except.ok.inj h).symm⟩
  · cases h

/-- What a successful read found: a colon, a length before it and that many bytes after it. -/
theorem readByteString_eq_ok_iff {buf bytes : List UInt8} {i j : Nat} :
    readByteString buf i = .ok (bytes, j) ↔ i ≤ buf.length ∧
      ∃ off len, (buf.drop i).findIdx? (· == byteColon) = some off ∧
        parseUsize ((buf.drop i).take off) = some len ∧ j = i + off + 1 + len ∧ j ≤ usizeMax ∧
        j ≤ buf.length ∧ bytes = (buf.drop (i + off + 1)).take len := by
  simp only [readByteString, bind_eq_ok_iff, okOr_eq_ok_iff]
  constructor
  · rintro ⟨tail, ht, off, hoff, digits, hd, len, hlen, h⟩
    obtain ⟨hi, -, rfl⟩ := slice_eq_ok ht
    obtain ⟨-, -, rfl⟩ := slice_eq_ok hd
    rw [List.take_of_length_le (by simp)] at hoff
    rw [Nat.add_sub_cancel_left] at hlen
    split at h
    · rename_i hb
      obtain ⟨bytes', hs, he⟩ := bind_eq_ok_iff.mp h
      obtain ⟨-, -, rfl⟩ := slice_eq_ok hs
      obtain ⟨rfl, rfl⟩ := Prod.mk.inj (Except.ok.inj he)
      rw [Nat.add_sub_cancel_left]
      exact ⟨hi, off, len, hoff, hlen, rfl, hb.1, hb.2, rfl⟩
    · cases h
  · rintro ⟨hi, off, len, hoff, hlen, rfl, hu, hj, rfl⟩
    refine ⟨_, slice_ok hi (Nat.le_refl _), off, ?_, _, slice_ok (by omega) (by omega), len, ?_, ?_⟩
    · rwa [List.take_of_length_le (by simp)]
    · rwa [Nat.add_sub_cancel_left]
    · rw [if_pos ⟨hu, hj⟩, slice_ok (by omega) hj, Nat.add_sub_cancel_left]
      rfl

/-- A byte string that was read ends inside the buffer, past its start. -/
theorem readByteString_after {buf bytes : List UInt8} {i j : Nat}
    (h : readByteString buf i = .ok (bytes, j)) : i < j ∧ j ≤ buf.length := by
  obtain ⟨-, off, len, -, -, rfl, -, hj, -⟩ := readByteString_eq_ok_iff.mp h
  exact ⟨by omega, hj⟩

private theorem findIdx?_drop_lt {buf : List UInt8} {i off : Nat} {p : UInt8 → Bool}
    (h : (buf.drop i).findIdx? p = some off) : i + off < buf.length := by
  have hl := (List.findIdx?_eq_some_iff_getElem.mp h).1
  rw [List.length_drop] at hl
  omega

mutual

/-- The body of `skip_value`: the index just past the value beginning at `i`. -/
def skipValueAfter (buf : List UInt8) (i : Nat) : Except Fault (After buf i) :=
  match hk : buf[i]? with
  | none => .error <| malformed "unexpected end of buffer"
  | some kind =>
    have hi : i < buf.length := (List.getElem?_eq_some_iff.mp hk).1
    if kind = byteI then
      match hf : (buf.drop i).findIdx? (· == byteE) with
      | some off => .ok ⟨i + off + 1, by have := findIdx?_drop_lt hf; omega⟩
      | none => .error <| malformed "unterminated integer"
    else if kind = byteL ∨ kind = byteD then
      (skipItemsAfter buf (i + 1)).map fun j => ⟨j.val, by have := j.property; omega⟩
    else if IsDigit kind then
      match hr : readByteString buf i with
      | .ok (_, j) => .ok ⟨j, readByteString_after hr⟩
      | .error e => .error e
    else .error <| malformed s!"unexpected bencode byte 0x{hexByte kind} at offset {i}"
termination_by (buf.length - i, 0)

/-- The container loop of `skip_value`, entered at `j`: skip values until the matching `e`. -/
def skipItemsAfter (buf : List UInt8) (j : Nat) : Except Fault (After buf j) :=
  match hb : buf[j]? with
  | none => .error <| malformed "unterminated container"
  | some b =>
    have hj : j < buf.length := (List.getElem?_eq_some_iff.mp hb).1
    if b = byteE then .ok ⟨j + 1, by omega⟩
    else
      match skipValueAfter buf j with
      | .ok k =>
        have := k.property
        (skipItemsAfter buf k.val).map fun l => ⟨l.val, by have := l.property; omega⟩
      | .error e => .error e
termination_by (buf.length - j, 1)

end

/-- `skip_value`: the index just past the bencode value beginning at `i`. -/
def skipValue (buf : List UInt8) (i : Nat) : Except Fault Nat :=
  (skipValueAfter buf i).map Subtype.val

/-- The index the container loop returns when entered at `j`. -/
def skipItems (buf : List UInt8) (j : Nat) : Except Fault Nat :=
  (skipItemsAfter buf j).map Subtype.val

theorem skipValue_after {buf : List UInt8} {i j : Nat} (h : skipValue buf i = .ok j) :
    i < j ∧ j ≤ buf.length := by
  rw [skipValue] at h
  cases hs : skipValueAfter buf i with
  | error e =>
    rw [hs] at h
    cases h
  | ok k =>
    rw [hs] at h
    obtain rfl : k.val = j := Except.ok.inj h
    exact k.property

/-- One call of `skip_value`, by the kind of the value. -/
theorem skipValue_eq (buf : List UInt8) (i : Nat) : skipValue buf i = (do
    let kind ← okOr buf[i]? (malformed "unexpected end of buffer")
    if kind = byteI then
      let off ← okOr ((buf.drop i).findIdx? (· == byteE)) (malformed "unterminated integer")
      return i + off + 1
    else if kind = byteL ∨ kind = byteD then skipItems buf (i + 1)
    else if IsDigit kind then
      let (_, j) ← readByteString buf i
      return j
    else .error <| malformed s!"unexpected bencode byte 0x{hexByte kind} at offset {i}") := by
  rw [skipValue, skipValueAfter]
  split
  · rename_i hk
    rw [hk]
    rfl
  rename_i kind hk
  rw [bind_of_eq_ok (okOr_eq_ok_iff.mpr hk)]
  split
  · split <;> rename_i hf
    · rw [bind_of_eq_ok (okOr_eq_ok_iff.mpr hf)]
      rfl
    · rw [bind_of_eq_error (okOr_eq_error_iff.mpr ⟨hf, rfl⟩)]
      rfl
  split
  · rw [skipItems]
    cases skipItemsAfter buf (i + 1) <;> rfl
  split
  · split <;> rename_i hr
    · rw [bind_of_eq_ok hr]
      rfl
    · rw [bind_of_eq_error hr]
      rfl
  · rfl

/-- One turn of the container loop. -/
theorem skipItems_eq (buf : List UInt8) (j : Nat) : skipItems buf j = (do
    let b ← okOr buf[j]? (malformed "unterminated container")
    if b = byteE then return j + 1
    else
      let k ← skipValue buf j
      skipItems buf k) := by
  rw [skipItems, skipItemsAfter]
  split
  · rename_i hb
    rw [hb]
    rfl
  rename_i b hb
  rw [bind_of_eq_ok (okOr_eq_ok_iff.mpr hb)]
  split
  · rfl
  rw [skipValue]
  cases skipValueAfter buf j with
  | error e => rfl
  | ok k =>
    change Except.map Subtype.val (Except.map _ (skipItemsAfter buf k.val)) = skipItems buf k.val
    rw [skipItems]
    cases skipItemsAfter buf k.val <;> rfl

/-- The key loop of `extract_raw_info`, entered at `i`. -/
def extractFrom (buf : List UInt8) (i : Nat) : Except Fault (List UInt8) :=
  match hb : buf[i]? with
  | none => .error <| malformed "unterminated top-level dictionary"
  | some b =>
    if b = byteE then .error <| malformed "metainfo has no `info` dictionary"
    else
      match hk : readByteString buf i with
      | .error e => .error e
      | .ok (key, afterKey) =>
        match hv : skipValue buf afterKey with
        | .error e => .error e
        | .ok valEnd =>
          have := (List.getElem?_eq_some_iff.mp hb).1
          have := readByteString_after hk
          have := skipValue_after hv
          if key = infoKey then slice buf afterKey valEnd else extractFrom buf valEnd
termination_by buf.length - i

/-- One turn of the key loop. -/
theorem extractFrom_eq (buf : List UInt8) (i : Nat) : extractFrom buf i = (do
    let b ← okOr buf[i]? (malformed "unterminated top-level dictionary")
    if b = byteE then .error <| malformed "metainfo has no `info` dictionary"
    else
      let (key, afterKey) ← readByteString buf i
      let valEnd ← skipValue buf afterKey
      if key = infoKey then slice buf afterKey valEnd else extractFrom buf valEnd) := by
  rw [extractFrom]
  split
  · rename_i hb
    rw [hb]
    rfl
  rename_i b hb
  rw [bind_of_eq_ok (okOr_eq_ok_iff.mpr hb)]
  split
  · rfl
  split
  · rename_i hk
    rw [bind_of_eq_error hk]
  · rename_i key afterKey hk
    rw [bind_of_eq_ok hk]
    change _ = skipValue buf afterKey >>= _
    split <;> rename_i hv
    · rw [bind_of_eq_error hv]
    · rw [bind_of_eq_ok hv]

/-- `extract_raw_info`: the raw bytes of the top-level `info` value. -/
def extractRawInfo (buf : List UInt8) : Except Fault (List UInt8) :=
  if buf.head? ≠ some byteD then .error <| malformed "metainfo is not a bencode dictionary"
  else extractFrom buf 1

/-- `raw_info_hash`, with the hash function as a parameter. -/
def rawInfoHash {δ : Type} (sha1 : List UInt8 → δ) (buf : List UInt8) : Except Fault δ :=
  (extractRawInfo buf).map sha1

end Torrentina.Metainfo
