import Torrentina.Core.Fuel
import Torrentina.Metainfo.Bencode

/-!
# The walk makes progress

`skip_value` and the loops around it as the source writes them: the index moves
to whatever the last call returned, and nothing in the text says that it moves
forward. Every call and every turn of a loop costs one unit of fuel. Two units
for each byte that is left are enough for any buffer, no slice is out of bounds
on the way, and the functions that are known to terminate compute the same.
-/

namespace Torrentina.Metainfo

open Torrentina.Core

/-! ## The walk as written -/

mutual

/-- `skip_value`. -/
def skipValueFuel : (fuel : Nat) → (buf : List UInt8) → (i : Nat) → Except (Stop Fault) Nat
  | 0, _, _ => .error .outOfFuel
  | fuel + 1, buf, i => do
    let kind ← unfuelled (okOr buf[i]? (malformed "unexpected end of buffer"))
    if kind = byteI then
      let tail ← unfuelled (slice buf i buf.length)
      let off ← unfuelled (okOr (tail.findIdx? (· == byteE)) (malformed "unterminated integer"))
      return i + off + 1
    else if kind = byteL ∨ kind = byteD then skipItemsFuel fuel buf (i + 1)
    else if IsDigit kind then
      let (_, j) ← unfuelled (readByteString buf i)
      return j
    else .error <| .failed <|
      malformed s!"unexpected bencode byte 0x{hexByte kind} at offset {i}"

/-- The container loop of `skip_value`, entered at `j`. -/
def skipItemsFuel : (fuel : Nat) → (buf : List UInt8) → (j : Nat) → Except (Stop Fault) Nat
  | 0, _, _ => .error .outOfFuel
  | fuel + 1, buf, j => do
    let b ← unfuelled (okOr buf[j]? (malformed "unterminated container"))
    if b = byteE then return j + 1
    else
      let k ← skipValueFuel fuel buf j
      skipItemsFuel fuel buf k

end

/-- The key loop of `extract_raw_info`, entered at `i`. -/
def extractFromFuel : (fuel : Nat) → (buf : List UInt8) → (i : Nat) →
    Except (Stop Fault) (List UInt8)
  | 0, _, _ => .error .outOfFuel
  | fuel + 1, buf, i => do
    let b ← unfuelled (okOr buf[i]? (malformed "unterminated top-level dictionary"))
    if b = byteE then .error <| .failed <| malformed "metainfo has no `info` dictionary"
    else
      let (key, afterKey) ← unfuelled (readByteString buf i)
      let valEnd ← skipValueFuel fuel buf afterKey
      if key = infoKey then unfuelled (slice buf afterKey valEnd)
      else extractFromFuel fuel buf valEnd

/-- `extract_raw_info`. -/
def extractRawInfoFuel (fuel : Nat) (buf : List UInt8) : Except (Stop Fault) (List UInt8) :=
  if buf.head? ≠ some byteD then
    .error <| .failed <| malformed "metainfo is not a bencode dictionary"
  else extractFromFuel fuel buf 1

/-! ## Bounds of the primitives -/

/-- A missing value is an error, not a panic. -/
theorem okOr_ne_panic {α : Type} (o : Option α) (msg : String) {e : Fault}
    (h : okOr o (malformed msg) = .error e) : e ≠ .panic := by
  obtain ⟨-, rfl⟩ := okOr_eq_error_iff.mp h
  intro hp
  cases hp

/-- What is found in the rest of the buffer is found inside the buffer. -/
theorem findIdx?_slice_lt {buf : List UInt8} {i off : Nat} {p : UInt8 → Bool}
    (h : ((buf.drop i).take (buf.length - i)).findIdx? p = some off) : i + off < buf.length := by
  have hl := (List.findIdx?_eq_some_iff_getElem.mp h).1
  rw [List.length_take, List.length_drop] at hl
  omega

/-- From an index inside the buffer, no slice of `read_byte_string` is out of bounds. -/
theorem readByteString_ne_panic {buf : List UInt8} {i : Nat} (hi : i ≤ buf.length) :
    readByteString buf i ≠ .error .panic := by
  intro h
  rw [readByteString, bind_of_eq_ok (slice_ok hi (Nat.le_refl _)), bind_eq_error_iff] at h
  obtain h | ⟨off, hoff, h⟩ := h
  · exact okOr_ne_panic _ _ h rfl
  have hcolon := findIdx?_slice_lt (okOr_eq_ok_iff.mp hoff)
  rw [bind_of_eq_ok (slice_ok (by omega) (by omega)), bind_eq_error_iff] at h
  obtain h | ⟨len, -, h⟩ := h
  · exact okOr_ne_panic _ _ h rfl
  dsimp only at h
  split at h
  · rename_i hend
    rw [bind_of_eq_ok (slice_ok (by omega) hend.2)] at h
    cases h
  · cases h

/-! ## Progress -/

/-- A failure that is no panic. -/
abbrev NoPanic : Fault → Prop := (· ≠ .panic)

/-- An index past `i` and inside the buffer. -/
abbrev Past (buf : List UInt8) (i : Nat) : Nat → Prop := fun j => i < j ∧ j ≤ buf.length

/-- A missing value is an error, and one that is there is returned. -/
theorem meets_okOr {α : Type} (o : Option α) (msg : String) :
    Meets NoPanic (fun a => o = some a) (unfuelled (okOr o (malformed msg))) :=
  meets_unfuelled (fun _ h => okOr_ne_panic o msg h) fun _ h => okOr_eq_ok_iff.mp h

/-- A malformed input is an error. -/
theorem meets_malformed {α : Type} {promised : α → Prop} (msg : String) :
    Meets NoPanic promised (.error (.failed (malformed msg))) := by
  intro hp
  cases hp

/-- A slice inside the buffer is taken. -/
theorem meets_slice {buf : List UInt8} {i j : Nat} (hij : i ≤ j) (hj : j ≤ buf.length) :
    Meets NoPanic (· = (buf.drop i).take (j - i)) (unfuelled (slice buf i j)) := by
  rw [slice_ok hij hj]
  exact rfl

/-- Reading a byte string moves on inside the buffer, or fails. -/
theorem meets_readByteString {buf : List UInt8} {i : Nat} (hi : i ≤ buf.length) :
    Meets NoPanic (fun read => Past buf i read.2) (unfuelled (readByteString buf i)) := by
  apply meets_unfuelled
  · rintro e he rfl
    exact readByteString_ne_panic hi he
  · rintro ⟨bytes, j⟩ h
    exact readByteString_after h

/-- One call of `skip_value`, when the container loop behaves on one unit of fuel less. -/
theorem meets_skipValueFuel_succ {buf : List UInt8} {fuel i : Nat} (hi : i ≤ buf.length)
    (hloop : i < buf.length → Meets NoPanic (Past buf (i + 1)) (skipItemsFuel fuel buf (i + 1))) :
    Meets NoPanic (Past buf i) (skipValueFuel (fuel + 1) buf i) := by
  rw [skipValueFuel]
  apply (meets_okOr _ _).bind
  intro kind hk
  have hlt : i < buf.length := (List.getElem?_eq_some_iff.mp hk).1
  split
  · -- an integer ends at an `e` that is in the buffer
    apply (meets_slice hi (Nat.le_refl _)).bind
    rintro tail rfl
    apply (meets_okOr _ _).bind
    intro off hoff
    have hend := findIdx?_slice_lt hoff
    exact ⟨by omega, by omega⟩
  split
  · apply (hloop hlt).mono
    rintro j ⟨hj, hle⟩
    exact ⟨by omega, hle⟩
  split
  · apply (meets_readByteString hi).bind
    rintro ⟨bytes, j⟩ hj
    exact hj
  · exact meets_malformed _

/-- One turn of the container loop, when the call in it and the turns after it behave. -/
theorem meets_skipItemsFuel_succ {buf : List UInt8} {fuel j : Nat}
    (hcall : j < buf.length → Meets NoPanic (Past buf j) (skipValueFuel fuel buf j))
    (hloop : ∀ k, Past buf j k → Meets NoPanic (Past buf k) (skipItemsFuel fuel buf k)) :
    Meets NoPanic (Past buf j) (skipItemsFuel (fuel + 1) buf j) := by
  rw [skipItemsFuel]
  apply (meets_okOr _ _).bind
  intro b hb
  have hlt : j < buf.length := (List.getElem?_eq_some_iff.mp hb).1
  split
  · exact ⟨by omega, hlt⟩
  · apply (hcall hlt).bind
    intro k hk
    apply (hloop k hk).mono
    rintro l ⟨hl, hle⟩
    exact ⟨Nat.lt_trans hk.1 hl, hle⟩

/-- Induction along the walk. A call leads to the loop one byte on, and a turn of the loop
to a call at its index and to the turns further on, each with one unit of fuel less; so two
units for each byte that is left are enough. -/
theorem fuel_suffices {buf : List UInt8} {P Q : Nat → Nat → Prop}
    (hcall : ∀ fuel i, i ≤ buf.length → (i < buf.length → Q fuel (i + 1)) → P (fuel + 1) i)
    (hturn : ∀ fuel j, (j < buf.length → P fuel j) → (∀ k, Past buf j k → Q fuel k) →
      Q (fuel + 1) j) (fuel : Nat) :
    (∀ i ≤ buf.length, 2 * (buf.length - i) + 1 ≤ fuel → P fuel i) ∧
    (∀ j ≤ buf.length, 2 * (buf.length - j) + 2 ≤ fuel → Q fuel j) := by
  induction fuel with
  | zero => exact ⟨fun i _ hf => by omega, fun j _ hf => by omega⟩
  | succ fuel ih =>
    constructor
    · intro i hi hf
      apply hcall fuel i hi
      intro hlt
      exact ih.2 (i + 1) hlt (by omega)
    · intro j hj hf
      apply hturn fuel j
      · intro hlt
        exact ih.1 j hj (by omega)
      · rintro k ⟨hk, hle⟩
        exact ih.2 k hle (by omega)

/-- With that fuel the walk ends past its value. -/
theorem meets_skipFuel (buf : List UInt8) (fuel : Nat) :
    (∀ i ≤ buf.length, 2 * (buf.length - i) + 1 ≤ fuel →
      Meets NoPanic (Past buf i) (skipValueFuel fuel buf i)) ∧
    (∀ j ≤ buf.length, 2 * (buf.length - j) + 2 ≤ fuel →
      Meets NoPanic (Past buf j) (skipItemsFuel fuel buf j)) :=
  fuel_suffices (P := fun fuel i => Meets NoPanic (Past buf i) (skipValueFuel fuel buf i))
    (Q := fun fuel j => Meets NoPanic (Past buf j) (skipItemsFuel fuel buf j))
    (fun _ _ hi hloop => meets_skipValueFuel_succ hi hloop)
    (fun _ _ hcall hloop => meets_skipItemsFuel_succ hcall hloop) fuel

/-- What `extract_raw_info` is to return. -/
abbrev Span (buf : List UInt8) : List UInt8 → Prop := fun info => info ≠ [] ∧ info <:+: buf

/-- A slice that is not empty is a part of the buffer. -/
theorem meets_slice_span {buf : List UInt8} {i j : Nat} (hij : i < j) (hj : j ≤ buf.length) :
    Meets NoPanic (Span buf) (unfuelled (slice buf i j)) := by
  apply (meets_slice (Nat.le_of_lt hij) hj).mono
  rintro info rfl
  constructor
  · apply List.ne_nil_of_length_pos
    rw [List.length_take, List.length_drop]
    omega
  · exact (List.take_prefix _ _).isInfix.trans (List.drop_suffix i buf).isInfix

/-- The key loop reads a key and skips its value on every turn, and so moves forward. -/
theorem meets_extractFromFuel (buf : List UInt8) (fuel : Nat) :
    ∀ i ≤ buf.length, 2 * (buf.length - i) + 1 ≤ fuel →
      Meets NoPanic (Span buf) (extractFromFuel fuel buf i) := by
  induction fuel with
  | zero => exact fun i _ hf => by omega
  | succ fuel ih =>
    intro i hi hf
    rw [extractFromFuel]
    apply (meets_okOr _ _).bind
    intro b hb
    split
    · exact meets_malformed _
    apply (meets_readByteString hi).bind
    rintro ⟨key, afterKey⟩ ⟨hkey, hkeyEnd⟩
    dsimp only at hkey hkeyEnd ⊢
    apply ((meets_skipFuel buf fuel).1 afterKey hkeyEnd (by omega)).bind
    rintro valEnd ⟨hval, hvalEnd⟩
    split
    · exact meets_slice_span hval hvalEnd
    · exact ih valEnd hvalEnd (by omega)

/-- A buffer with a first byte is not empty. -/
theorem length_pos_of_head? {buf : List UInt8} {b : UInt8} (h : ¬buf.head? ≠ some b) :
    0 < buf.length := by
  cases buf with
  | nil => exact absurd (by simp) h
  | cons c rest => exact Nat.succ_pos _

/-- With enough fuel the walk ends without a panic, and what it finds is a part of the buffer. -/
theorem meets_extractRawInfoFuel {buf : List UInt8} {fuel : Nat}
    (hf : 2 * buf.length ≤ fuel) : Meets NoPanic (Span buf) (extractRawInfoFuel fuel buf) := by
  rw [extractRawInfoFuel]
  split
  · exact meets_malformed _
  · rename_i hhead
    have hpos := length_pos_of_head? hhead
    exact meets_extractFromFuel buf fuel 1 hpos (by omega)

/-! ## Agreement with the functions that are known to terminate -/

/-- One more unit of fuel skips a value when the rest of it is skipped. -/
theorem skipValueFuel_succ_eq {buf : List UInt8} {fuel i : Nat} (hi : i ≤ buf.length)
    (hloop : i < buf.length →
      skipItemsFuel fuel buf (i + 1) = unfuelled (skipItems buf (i + 1))) :
    skipValueFuel (fuel + 1) buf i = unfuelled (skipValue buf i) := by
  rw [skipValueFuel, skipValue_eq]
  apply unfuelled_bind_congr
  intro kind hk
  have hlt : i < buf.length := (List.getElem?_eq_some_iff.mp (okOr_eq_ok_iff.mp hk)).1
  split
  · rw [slice_ok hi (Nat.le_refl _), List.take_of_length_le (by simp)]
    change (unfuelled (okOr ((buf.drop i).findIdx? (· == byteE)) _) >>= _) = _
    exact unfuelled_bind_congr fun off _ => rfl
  split
  · exact hloop hlt
  split
  · exact unfuelled_bind_congr fun read _ => rfl
  · rfl

/-- One more unit of fuel skips an item when the rest is skipped. -/
theorem skipItemsFuel_succ_eq {buf : List UInt8} {fuel j : Nat}
    (hcall : j < buf.length → skipValueFuel fuel buf j = unfuelled (skipValue buf j))
    (hloop : ∀ k, Past buf j k → skipItemsFuel fuel buf k = unfuelled (skipItems buf k)) :
    skipItemsFuel (fuel + 1) buf j = unfuelled (skipItems buf j) := by
  rw [skipItemsFuel, skipItems_eq]
  apply unfuelled_bind_congr
  intro b hb
  have hlt : j < buf.length := (List.getElem?_eq_some_iff.mp (okOr_eq_ok_iff.mp hb)).1
  split
  · rfl
  · rw [hcall hlt]
    apply unfuelled_bind_congr
    intro k hk
    exact hloop k (skipValue_after hk)

/-- With fuel for the rest of the buffer both functions are the ones without fuel. -/
theorem skipFuel_eq (buf : List UInt8) (fuel : Nat) :
    (∀ i ≤ buf.length, 2 * (buf.length - i) + 1 ≤ fuel →
      skipValueFuel fuel buf i = unfuelled (skipValue buf i)) ∧
    (∀ j ≤ buf.length, 2 * (buf.length - j) + 2 ≤ fuel →
      skipItemsFuel fuel buf j = unfuelled (skipItems buf j)) :=
  fuel_suffices (P := fun fuel i => skipValueFuel fuel buf i = unfuelled (skipValue buf i))
    (Q := fun fuel j => skipItemsFuel fuel buf j = unfuelled (skipItems buf j))
    (fun _ _ hi hloop => skipValueFuel_succ_eq hi hloop)
    (fun _ _ hcall hloop => skipItemsFuel_succ_eq hcall hloop) fuel

/-- With fuel for the rest of the buffer the search for the key is the one without fuel. -/
theorem extractFromFuel_eq (buf : List UInt8) (fuel : Nat) :
    ∀ i ≤ buf.length, 2 * (buf.length - i) + 1 ≤ fuel →
      extractFromFuel fuel buf i = unfuelled (extractFrom buf i) := by
  induction fuel with
  | zero => exact fun i _ hf => by omega
  | succ fuel ih =>
    intro i hi hf
    rw [extractFromFuel, extractFrom_eq]
    apply unfuelled_bind_congr
    intro b hb
    split
    · rfl
    apply unfuelled_bind_congr
    rintro ⟨key, afterKey⟩ hr
    obtain ⟨hkey, hkeyEnd⟩ := readByteString_after hr
    dsimp only
    rw [(skipFuel_eq buf fuel).1 afterKey hkeyEnd (by omega)]
    apply unfuelled_bind_congr
    intro valEnd hv
    obtain ⟨hval, hvalEnd⟩ := skipValue_after hv
    split
    · rfl
    · exact ih valEnd hvalEnd (by omega)

/-- With enough fuel the walk is the one without fuel. -/
theorem extractRawInfoFuel_eq {buf : List UInt8} {fuel : Nat} (hf : 2 * buf.length ≤ fuel) :
    extractRawInfoFuel fuel buf = unfuelled (extractRawInfo buf) := by
  rw [extractRawInfoFuel, extractRawInfo]
  split
  · rfl
  · rename_i hhead
    have hpos := length_pos_of_head? hhead
    exact extractFromFuel_eq buf fuel 1 hpos (by omega)

/-- From any index inside any buffer, reading a string and skipping a value come to an
end without a panic, the value within two units of fuel a byte, and on success past the
index and inside the buffer; and so the raw info is found, or an error is returned, and
what is found is a non-empty stretch of the buffer. -/
theorem rawWalk_total (buf : List UInt8) :
    (∀ i ≤ buf.length, readByteString buf i ≠ .error .panic ∧
      ∀ bytes j, readByteString buf i = .ok (bytes, j) → i < j ∧ j ≤ buf.length) ∧
    (∀ i ≤ buf.length, ∀ fuel ≥ 2 * (buf.length - i) + 1,
      Meets (· ≠ .panic) (fun j => i < j ∧ j ≤ buf.length) (skipValueFuel fuel buf i) ∧
      skipValueFuel fuel buf i = unfuelled (skipValue buf i)) ∧
    (∀ fuel ≥ 2 * buf.length,
      Meets (· ≠ .panic) (fun info => info ≠ [] ∧ info <:+: buf) (extractRawInfoFuel fuel buf) ∧
      extractRawInfoFuel fuel buf = unfuelled (extractRawInfo buf)) := by
  refine ⟨fun i hi => ⟨readByteString_ne_panic hi, fun _ _ => readByteString_after⟩, ?_, ?_⟩
  · intro i hi fuel hf
    exact ⟨(meets_skipFuel buf fuel).1 i hi hf, (skipFuel_eq buf fuel).1 i hi hf⟩
  · intro fuel hf
    exact ⟨meets_extractRawInfoFuel hf, extractRawInfoFuel_eq hf⟩

/-- A length past the end of the buffer, and a list that is never closed. -/
theorem rawWalk_total_truncated :
    readByteString [57, 57, 58] 0 ≠ .error .panic ∧
    Meets (· ≠ .panic) (fun j => 0 < j ∧ j ≤ 3) (skipValueFuel 7 [108, 108, 101] 0) :=
  ⟨((rawWalk_total [57, 57, 58]).1 0 (by decide)).1,
    ((rawWalk_total [108, 108, 101]).2.1 0 (by decide) 7 (by decide)).1⟩

end Torrentina.Metainfo
