import Torrentina.Metainfo.Bencode

/-!
# The walk finds the exact info span

Bencode values and their canonical encoding, and what the index-based walk does
on an encoding in the middle of an arbitrary buffer. The walk is described from
the bytes that remain at its index, so what precedes a value never enters the
induction. Bytes inside strings are passed over by their declared length and
are never inspected.
-/

namespace Torrentina.Metainfo

open Torrentina.Core

/-! ## Values and their encoding -/

/-- A bencode value tree. -/
inductive Value
  | int (n : Int)
  | bytes (b : List UInt8)
  | list (items : List Value)
  | dict (entries : List (List UInt8 × Value))

/-- The decimal form of an integer. -/
def decimalInt : Int → List UInt8
  | .ofNat n => decimal n
  | .negSucc n => '-'.toUInt8 :: decimal (n + 1)

/-- `<len>:<bytes>`. -/
def encodeBytes (b : List UInt8) : List UInt8 := decimal b.length ++ byteColon :: b

mutual

/-- The canonical encoding of a value. -/
def Value.encode : Value → List UInt8
  | .int n => byteI :: (decimalInt n ++ [byteE])
  | .bytes b => encodeBytes b
  | .list items => byteL :: (encodeItems items ++ [byteE])
  | .dict entries => byteD :: (encodeEntries entries ++ [byteE])

/-- The items of a list, one after another. -/
def encodeItems : List Value → List UInt8
  | [] => []
  | v :: vs => v.encode ++ encodeItems vs

/-- The entries of a dictionary, keys and values alternating, in the given order. -/
def encodeEntries : List (List UInt8 × Value) → List UInt8
  | [] => []
  | (k, v) :: es => encodeBytes k ++ v.encode ++ encodeEntries es

end

/-! ## The walk, by what remains at its index -/

/-- The byte at a position is the first of what follows. -/
theorem getElem?_of_drop {buf rest : List UInt8} {i : Nat} {b : UInt8}
    (h : buf.drop i = b :: rest) : buf[i]? = some b := by
  have hg : (buf.drop i)[0]? = buf[i]? := by rw [List.getElem?_drop, Nat.add_zero]
  rw [← hg, h]
  rfl

/-- What follows a part that was read. -/
theorem drop_of_drop {buf front rest : List UInt8} {i : Nat} (h : buf.drop i = front ++ rest) :
    buf.drop (i + front.length) = rest := by
  rw [← List.drop_drop, h, List.drop_left]

/-- An integer is skipped up to its end. -/
theorem skipValue_int {buf : List UInt8} {i off : Nat} (hk : buf[i]? = some byteI)
    (hf : (buf.drop i).findIdx? (· == byteE) = some off) :
    skipValue buf i = .ok (i + off + 1) := by
  rw [skipValue_eq, bind_of_eq_ok (okOr_eq_ok_iff.mpr hk), if_pos rfl,
    bind_of_eq_ok (okOr_eq_ok_iff.mpr hf)]
  rfl

/-- A list or a dictionary is skipped item by item. -/
theorem skipValue_container {buf : List UInt8} {i : Nat} {kind : UInt8}
    (hk : buf[i]? = some kind) (hc : kind = byteL ∨ kind = byteD) :
    skipValue buf i = skipItems buf (i + 1) := by
  have hi : kind ≠ byteI := by rcases hc with rfl | rfl <;> decide
  rw [skipValue_eq, bind_of_eq_ok (okOr_eq_ok_iff.mpr hk), if_neg hi, if_pos hc]

/-- A byte string is skipped as it is read. -/
theorem skipValue_string {buf bytes : List UInt8} {i j : Nat} {kind : UInt8}
    (hk : buf[i]? = some kind) (hd : IsDigit kind) (hr : readByteString buf i = .ok (bytes, j)) :
    skipValue buf i = .ok j := by
  have hi : kind ≠ byteI := by rintro rfl; revert hd; decide
  have hc : ¬ (kind = byteL ∨ kind = byteD) := by rintro (rfl | rfl) <;> (revert hd; decide)
  rw [skipValue_eq, bind_of_eq_ok (okOr_eq_ok_iff.mpr hk), if_neg hi, if_neg hc, if_pos hd,
    bind_of_eq_ok hr]
  rfl

/-- The end of a container is skipped. -/
theorem skipItems_end {buf : List UInt8} {j : Nat} (hb : buf[j]? = some byteE) :
    skipItems buf j = .ok (j + 1) := by
  rw [skipItems_eq, bind_of_eq_ok (okOr_eq_ok_iff.mpr hb), if_pos rfl]
  rfl

/-- An item is skipped, and then the others. -/
theorem skipItems_next {buf : List UInt8} {j k : Nat} {b : UInt8} (hb : buf[j]? = some b)
    (he : b ≠ byteE) (hv : skipValue buf j = .ok k) : skipItems buf j = skipItems buf k := by
  rw [skipItems_eq, bind_of_eq_ok (okOr_eq_ok_iff.mpr hb), if_neg he, bind_of_eq_ok hv]

/-! ## Strings and integers -/

/-- A length that fits is read back. -/
theorem parseUsize_decimal {n : Nat} (h : n ≤ usizeMax) : parseUsize (decimal n) = some n := by
  have hp := parseDecimal_decimal n
  obtain ⟨b, bs, hd, hdig⟩ := exists_decimal_eq_cons n
  have hb : b ≠ bytePlus := by
    rintro rfl
    revert hdig
    decide
  rw [hd] at hp
  rw [hd, parseUsize]
  simp only [if_neg hb, hp, Option.bind_some, if_pos h]

/-- A delimiter that is no digit is found right after the digits. -/
theorem findIdx?_decimal {c : UInt8} (hc : ¬ IsDigit c) (n : Nat) (rest : List UInt8) :
    (decimal n ++ c :: rest).findIdx? (· == c) = some (decimal n).length := by
  apply List.findIdx?_eq_some_iff_getElem.mpr
  refine ⟨by simp, by simp, ?_⟩
  intro j hj
  rw [List.getElem_append_left hj]
  simp only [beq_iff_eq]
  intro he
  exact notMem_decimal hc n (he ▸ List.getElem_mem hj)

/-- An encoded string is read back whole, whatever bytes it holds. -/
theorem readByteString_encode {buf b rest : List UInt8} {i : Nat} (hu : buf.length ≤ usizeMax)
    (hd : buf.drop i = encodeBytes b ++ rest) :
    readByteString buf i = .ok (b, i + (encodeBytes b).length) := by
  have hlen := congrArg List.length hd
  simp only [List.length_drop, encodeBytes, List.length_append, List.length_cons] at hlen
  have hd' : buf.drop i = decimal b.length ++ byteColon :: (b ++ rest) := by
    rw [hd, encodeBytes, List.append_assoc, List.cons_append]
  apply readByteString_eq_ok_iff.mpr
  have hafter : buf.drop (i + (decimal b.length).length + 1) = b ++ rest := by
    have h1 : buf.drop i = (decimal b.length ++ [byteColon]) ++ (b ++ rest) := by
      rw [hd', List.append_assoc, List.singleton_append]
    have h2 := drop_of_drop h1
    rwa [List.length_append, List.length_singleton, ← Nat.add_assoc] at h2
  refine ⟨by omega, (decimal b.length).length, b.length, ?_, ?_, ?_, ?_, ?_, ?_⟩
  · rw [hd']
    exact findIdx?_decimal (by decide) _ _
  · rw [hd', List.take_left]
    exact parseUsize_decimal (by omega)
  · rw [encodeBytes, List.length_append, List.length_cons]
    omega
  · rw [encodeBytes, List.length_append, List.length_cons]
    omega
  · rw [encodeBytes, List.length_append, List.length_cons]
    omega
  · rw [hafter, List.take_left]

/-- A byte string that was written is skipped whole. -/
theorem skipValue_encodeBytes {buf b rest : List UInt8} {i : Nat} (hu : buf.length ≤ usizeMax)
    (hd : buf.drop i = encodeBytes b ++ rest) :
    skipValue buf i = .ok (i + (encodeBytes b).length) := by
  have hr := readByteString_encode hu hd
  obtain ⟨c, cs, hn, hc⟩ := exists_decimal_eq_cons b.length
  rw [encodeBytes, hn, List.cons_append, List.cons_append] at hd
  exact skipValue_string (getElem?_of_drop hd) hc hr

/-- The scan for the end of an integer stops at its own `e`. -/
theorem findIdx?_int (n : Int) (rest : List UInt8) :
    (byteI :: (decimalInt n ++ byteE :: rest)).findIdx? (· == byteE) =
      some ((decimalInt n).length + 1) := by
  have hi : (byteI == byteE) = false := by decide
  rw [List.findIdx?_cons, hi]
  cases n with
  | ofNat n => simp [decimalInt, findIdx?_decimal (c := byteE) (by decide)]
  | negSucc n =>
    have hm : ('-'.toUInt8 == byteE) = false := by decide
    simp only [decimalInt, List.cons_append, List.findIdx?_cons, hm,
      findIdx?_decimal (c := byteE) (by decide)]
    simp

/-- An integer that was written is skipped whole. -/
theorem skipValue_encodeInt {buf rest : List UInt8} {i : Nat} {n : Int}
    (hd : buf.drop i = (Value.int n).encode ++ rest) :
    skipValue buf i = .ok (i + (Value.int n).encode.length) := by
  have hd' : buf.drop i = byteI :: (decimalInt n ++ byteE :: rest) := by
    rw [hd, Value.encode, List.cons_append, List.append_assoc, List.singleton_append]
  rw [skipValue_int (getElem?_of_drop hd') (by rw [hd']; exact findIdx?_int n rest), Value.encode]
  simp only [List.length_cons, List.length_append, List.length_nil]
  congr 1

/-- No value begins with the terminator. -/
theorem encode_head (v : Value) : ∃ b rest, v.encode = b :: rest ∧ b ≠ byteE := by
  have hstr : ∀ b : List UInt8, ∃ c rest, encodeBytes b = c :: rest ∧ c ≠ byteE := by
    intro b
    obtain ⟨c, cs, hn, hc⟩ := exists_decimal_eq_cons b.length
    refine ⟨c, cs ++ byteColon :: b, by rw [encodeBytes, hn, List.cons_append], ?_⟩
    rintro rfl
    revert hc
    decide
  cases v with
  | int n => exact ⟨byteI, _, by rw [Value.encode], by decide⟩
  | bytes b =>
    rw [Value.encode]
    exact hstr b
  | list items => exact ⟨byteL, _, by rw [Value.encode], by decide⟩
  | dict entries => exact ⟨byteD, _, by rw [Value.encode], by decide⟩

/-- One pass of the container loop over a value. -/
theorem skipItems_value {buf rest : List UInt8} {j : Nat} {v : Value}
    (hd : buf.drop j = v.encode ++ rest) (hv : skipValue buf j = .ok (j + v.encode.length)) :
    skipItems buf j = skipItems buf (j + v.encode.length) := by
  obtain ⟨b, tail, hb, he⟩ := encode_head v
  rw [hb, List.cons_append] at hd
  exact skipItems_next (getElem?_of_drop hd) he hv

/-! ## Induction over value trees -/

mutual

/-- A value that was written is skipped whole. -/
theorem skipValue_encode {buf : List UInt8} (hu : buf.length ≤ usizeMax) (v : Value)
    {i : Nat} {rest : List UInt8} (hd : buf.drop i = v.encode ++ rest) :
    skipValue buf i = .ok (i + v.encode.length) := by
  match v with
  | .int n => exact skipValue_encodeInt hd
  | .bytes b =>
    rw [Value.encode] at hd ⊢
    exact skipValue_encodeBytes hu hd
  | .list items =>
    have hd' : buf.drop i = [byteL] ++ (encodeItems items ++ byteE :: rest) := by
      simpa [Value.encode] using hd
    have hi := skipItems_encodeItems hu items (j := i + 1) (drop_of_drop hd')
    rw [skipValue_container (getElem?_of_drop hd') (.inl rfl), hi, Value.encode]
    simp only [List.length_cons, List.length_append, List.length_nil]
    congr 1
    omega
  | .dict entries =>
    have hd' : buf.drop i = [byteD] ++ (encodeEntries entries ++ byteE :: rest) := by
      simpa [Value.encode] using hd
    have hi := skipItems_encodeEntries hu entries (j := i + 1) (drop_of_drop hd')
    rw [skipValue_container (getElem?_of_drop hd') (.inr rfl), hi, Value.encode]
    simp only [List.length_cons, List.length_append, List.length_nil]
    congr 1
    omega

/-- Items that were written are skipped up to the end of the list. -/
theorem skipItems_encodeItems {buf : List UInt8} (hu : buf.length ≤ usizeMax) (vs : List Value)
    {j : Nat} {rest : List UInt8} (hd : buf.drop j = encodeItems vs ++ byteE :: rest) :
    skipItems buf j = .ok (j + (encodeItems vs).length + 1) := by
  match vs with
  | [] =>
    rw [encodeItems, List.nil_append] at hd
    rw [skipItems_end (getElem?_of_drop hd), encodeItems]
    rfl
  | v :: vs =>
    rw [encodeItems, List.append_assoc] at hd
    rw [skipItems_value hd (skipValue_encode hu v hd),
      skipItems_encodeItems hu vs (drop_of_drop hd), encodeItems, List.length_append]
    congr 1
    omega

/-- Entries that were written are skipped up to the end of the dictionary. -/
theorem skipItems_encodeEntries {buf : List UInt8} (hu : buf.length ≤ usizeMax)
    (es : List (List UInt8 × Value)) {j : Nat} {rest : List UInt8}
    (hd : buf.drop j = encodeEntries es ++ byteE :: rest) :
    skipItems buf j = .ok (j + (encodeEntries es).length + 1) := by
  match es with
  | [] =>
    rw [encodeEntries, List.nil_append] at hd
    rw [skipItems_end (getElem?_of_drop hd), encodeEntries]
    rfl
  | (k, v) :: es =>
    rw [encodeEntries, List.append_assoc, List.append_assoc] at hd
    have hk : buf.drop j =
        (Value.bytes k).encode ++ (v.encode ++ (encodeEntries es ++ byteE :: rest)) := by
      rw [Value.encode, hd]
    have hv := drop_of_drop hd
    have hs := skipItems_value hk (by rw [Value.encode]; exact skipValue_encodeBytes hu hd)
    rw [Value.encode] at hs
    rw [hs, skipItems_value hv (skipValue_encode hu v hv),
      skipItems_encodeEntries hu es (drop_of_drop hv), encodeEntries, List.length_append,
      List.length_append]
    congr 1
    omega

end

/-! ## The info span -/

/-- One pass of the key loop: return the value of `info`, or go on after the entry. -/
theorem extractFrom_entry {buf rest key : List UInt8} {v : Value} {i : Nat}
    (hu : buf.length ≤ usizeMax) (hd : buf.drop i = encodeBytes key ++ (v.encode ++ rest)) :
    extractFrom buf i = if key = infoKey then .ok v.encode
      else extractFrom buf (i + (encodeBytes key).length + v.encode.length) := by
  obtain ⟨b, tail, hb, he⟩ := encode_head (.bytes key)
  rw [Value.encode] at hb
  have hg : buf[i]? = some b := by
    rw [hb, List.cons_append] at hd
    exact getElem?_of_drop hd
  have hr := readByteString_encode hu hd
  have hdv := drop_of_drop hd
  have hs := skipValue_encode hu v hdv
  have hin := skipValue_after hs
  rw [extractFrom_eq, bind_of_eq_ok (okOr_eq_ok_iff.mpr hg), if_neg he, bind_of_eq_ok hr]
  dsimp only
  rw [bind_of_eq_ok hs, slice_ok (by omega) hin.2, hdv, Nat.add_sub_cancel_left, List.take_left]

/-- The key loop returns the value of the first `info` entry, whatever precedes and follows it. -/
theorem extractFrom_encodeEntries {buf : List UInt8} (hu : buf.length ≤ usizeMax)
    (es : List (List UInt8 × Value)) {i : Nat} {rest : List UInt8} {v : Value}
    (hd : buf.drop i = encodeEntries es ++ rest) (hv : es.lookup infoKey = some v) :
    extractFrom buf i = .ok v.encode := by
  induction es generalizing i with
  | nil => simp at hv
  | cons e es ih =>
    obtain ⟨k, w⟩ := e
    rw [encodeEntries, List.append_assoc, List.append_assoc] at hd
    rw [extractFrom_entry hu hd]
    by_cases hk : k = infoKey
    · rw [if_pos hk]
      rw [hk, List.lookup_cons_self] at hv
      rw [Option.some.inj hv]
    · have hne : (infoKey == k) = false := by simpa using Ne.symm hk
      rw [List.lookup_cons, hne] at hv
      rw [if_neg hk]
      exact ih (drop_of_drop (drop_of_drop hd)) hv

/-- The extracted span of a top-level dictionary is the encoding of its first `info` value. -/
theorem extractRawInfo_encode {es : List (List UInt8 × Value)} {v : Value} {trailing : List UInt8}
    (hu : ((Value.dict es).encode ++ trailing).length ≤ usizeMax)
    (hv : es.lookup infoKey = some v) :
    extractRawInfo ((Value.dict es).encode ++ trailing) = .ok v.encode := by
  have hd : ((Value.dict es).encode ++ trailing).drop 1 =
      encodeEntries es ++ (byteE :: trailing) := by simp [Value.encode]
  have hhead : ((Value.dict es).encode ++ trailing).head? = some byteD := by simp [Value.encode]
  rw [extractRawInfo, if_neg (by simp [hhead])]
  exact extractFrom_encodeEntries hu es hd hv

/-- Skipping a value anywhere in a buffer lands just past it; the extracted info
span is exactly the encoding of the first `info` value; and the info hash is the
hash of those bytes, the same for every dictionary with that first `info` value. -/
theorem info_span_faithful {δ : Type} (sha1 : List UInt8 → δ) :
    (∀ (front : List UInt8) (v : Value) (back : List UInt8),
      (front ++ v.encode ++ back).length ≤ isizeMax →
      skipValue (front ++ v.encode ++ back) front.length =
        .ok (front.length + v.encode.length)) ∧
    (∀ (es : List (List UInt8 × Value)) (v : Value) (trailing : List UInt8),
      ((Value.dict es).encode ++ trailing).length ≤ isizeMax → es.lookup infoKey = some v →
      extractRawInfo ((Value.dict es).encode ++ trailing) = .ok v.encode ∧
      rawInfoHash sha1 ((Value.dict es).encode ++ trailing) = .ok (sha1 v.encode)) ∧
    (∀ (es es' : List (List UInt8 × Value)) (v : Value) (trailing trailing' : List UInt8),
      ((Value.dict es).encode ++ trailing).length ≤ isizeMax →
      ((Value.dict es').encode ++ trailing').length ≤ isizeMax →
      es.lookup infoKey = some v → es'.lookup infoKey = some v →
      rawInfoHash sha1 ((Value.dict es).encode ++ trailing) =
        rawInfoHash sha1 ((Value.dict es').encode ++ trailing')) := by
  have hmax : isizeMax ≤ usizeMax := by decide
  have hash : ∀ (es : List (List UInt8 × Value)) (v : Value) (trailing : List UInt8),
      ((Value.dict es).encode ++ trailing).length ≤ isizeMax → es.lookup infoKey = some v →
      rawInfoHash sha1 ((Value.dict es).encode ++ trailing) = .ok (sha1 v.encode) := by
    intro es v trailing hl hv
    rw [rawInfoHash, extractRawInfo_encode (Nat.le_trans hl hmax) hv]
    rfl
  refine ⟨fun front v back hl => ?_, fun es v trailing hl hv => ?_, ?_⟩
  · have hd : (front ++ v.encode ++ back).drop front.length = v.encode ++ back := by
      rw [List.append_assoc, List.drop_left]
    exact skipValue_encode (Nat.le_trans hl hmax) v hd
  · exact ⟨extractRawInfo_encode (Nat.le_trans hl hmax) hv, hash es v trailing hl hv⟩
  · intro es es' v trailing trailing' hl hl' hv hv'
    rw [hash es v trailing hl hv, hash es' v trailing' hl' hv']

/-- A dictionary whose first entry nests an `info` key and a string that looks like one. -/
theorem info_span_past_nested_info :
    extractRawInfo ((Value.dict [([120], .dict [(infoKey, .bytes (infoKey ++ [105, 49, 101]))]),
      (infoKey, .list [.int (-7)])]).encode ++ [101]) = .ok (Value.list [.int (-7)]).encode :=
  ((info_span_faithful id).2.1 _ _ [101] (by decide +kernel) rfl).1

end Torrentina.Metainfo
