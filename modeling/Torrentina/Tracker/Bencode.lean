import Torrentina.Metainfo.InfoSpan
import Mathlib.Data.List.TakeWhile

/-!
# Bencode value trees

The value trees `serde_bencode` decodes a response to. Their integers are `i64`,
and their canonical encoding is that of the same tree over all integers. A
decoder for canonical encodings, which reads back every tree it is given.
-/

namespace Torrentina.Tracker

open Torrentina.Core
open Torrentina.Metainfo (byteI byteL byteD byteE byteColon decimalInt encodeBytes encodeItems
  encodeEntries)

/-- `serde_bencode::value::Value`, a dictionary being listed by its keys. -/
inductive Value
  | int (n : Int64)
  | bytes (b : List UInt8)
  | list (items : List Value)
  | dict (entries : List (List UInt8 × Value))

/-- Keys in strictly increasing order, in every dictionary of the tree. -/
inductive Value.Canonical : Value → Prop
  | int (n : Int64) : Canonical (.int n)
  | bytes (b : List UInt8) : Canonical (.bytes b)
  | list {items : List Value} (h : ∀ v ∈ items, v.Canonical) : Canonical (.list items)
  | dict {entries : List (List UInt8 × Value)} (hkeys : (entries.map Prod.fst).Pairwise (· < ·))
    (h : ∀ e ∈ entries, e.2.Canonical) : Canonical (.dict entries)

mutual

/-- The same tree over all integers. -/
def Value.tree : Value → Metainfo.Value
  | .int n => .int n.toInt
  | .bytes b => .bytes b
  | .list items => .list (treeItems items)
  | .dict entries => .dict (treeEntries entries)

def treeItems : List Value → List Metainfo.Value
  | [] => []
  | v :: vs => v.tree :: treeItems vs

def treeEntries : List (List UInt8 × Value) → List (List UInt8 × Metainfo.Value)
  | [] => []
  | (k, v) :: es => (k, v.tree) :: treeEntries es

end

/-- The canonical encoding. -/
def Value.encode (v : Value) : List UInt8 := v.tree.encode

/-! ## A decoder -/

/-- The bytes up to a delimiter and what follows it. -/
def cut (c : UInt8) (bs : List UInt8) : Option (List UInt8 × List UInt8) :=
  match bs.dropWhile (· != c) with
  | [] => none
  | _ :: rest => some (bs.takeWhile (· != c), rest)

/-- A numeral with an optional minus sign. -/
def parseInt (text : List UInt8) : Option Int :=
  if text.head? = some '-'.toUInt8 then (parseDecimal text.tail).map fun n => -(n : Int)
  else (parseDecimal text).map fun n => (n : Int)

/-- A numeral in the range of an `i64`. -/
def parseInt64 (text : List UInt8) : Option Int64 :=
  (parseInt text).bind fun n =>
    if Int64.minValue.toInt ≤ n ∧ n ≤ Int64.maxValue.toInt then some (Int64.ofInt n) else none

/-- `<len>:<bytes>`. -/
def decodeBytes (bs : List UInt8) : Option (List UInt8 × List UInt8) := do
  let (digits, rest) ← cut byteColon bs
  let len ← parseDecimal digits
  if len ≤ rest.length then some (rest.take len, rest.drop len) else none

mutual

/-- Decode one value and leave what follows it. -/
def decodeValue : (fuel : Nat) → List UInt8 → Option (Value × List UInt8)
  | 0, _ => none
  | fuel + 1, bs =>
    if bs.head? = some byteI then do
      let (digits, rest) ← cut byteE bs.tail
      let n ← parseInt64 digits
      return (.int n, rest)
    else if bs.head? = some byteL then do
      let (items, rest) ← decodeItems fuel bs.tail
      return (.list items, rest)
    else if bs.head? = some byteD then do
      let (entries, rest) ← decodeEntries fuel bs.tail
      return (.dict entries, rest)
    else do
      let (b, rest) ← decodeBytes bs
      return (.bytes b, rest)

/-- Decode values up to the end of their list. -/
def decodeItems : (fuel : Nat) → List UInt8 → Option (List Value × List UInt8)
  | 0, _ => none
  | fuel + 1, bs =>
    if bs.head? = some byteE then some ([], bs.tail) else do
      let (v, rest) ← decodeValue fuel bs
      let (vs, rest) ← decodeItems fuel rest
      return (v :: vs, rest)

/-- Decode keys and values up to the end of their dictionary. -/
def decodeEntries : (fuel : Nat) → List UInt8 →
    Option (List (List UInt8 × Value) × List UInt8)
  | 0, _ => none
  | fuel + 1, bs =>
    if bs.head? = some byteE then some ([], bs.tail) else do
      let (k, rest) ← decodeBytes bs
      let (v, rest) ← decodeValue fuel rest
      let (es, rest) ← decodeEntries fuel rest
      return ((k, v) :: es, rest)

end

/-- Decode a body, without a look at what follows its value. -/
def decode (body : List UInt8) : Except String Value :=
  match decodeValue (body.length + 1) body with
  | some (v, _) => .ok v
  | none => .error "Invalid Value"

/-! ## The parts of an encoding -/

/-- Text is cut at the first stop. -/
theorem cut_append {c : UInt8} {front : List UInt8} (h : c ∉ front) (rest : List UInt8) :
    cut c (front ++ c :: rest) = some (front, rest) := by
  have hf : ∀ b ∈ front, (b != c) = true := by
    intro b hb
    exact bne_iff_ne.mpr fun he => h (he ▸ hb)
  have hc : (c != c) = false := by simp
  rw [cut, List.dropWhile_append_of_pos hf, List.takeWhile_append_of_pos hf,
    List.dropWhile_cons_of_neg (by simp), List.takeWhile_cons_of_neg (by simp), List.append_nil]

/-- A byte string that was written is read back, and the rest is left. -/
theorem decodeBytes_encodeBytes (b rest : List UInt8) :
    decodeBytes (encodeBytes b ++ rest) = some (b, rest) := by
  have hcut := cut_append (notMem_decimal (c := byteColon) (by decide) b.length) (b ++ rest)
  rw [encodeBytes, List.append_assoc, List.cons_append, decodeBytes, hcut]
  simp [parseDecimal_decimal]

/-- A number has no `e` in it. -/
theorem notMem_decimalInt (n : Int) : byteE ∉ decimalInt n := by
  cases n with
  | ofNat n => exact notMem_decimal (by decide) n
  | negSucc n =>
    rw [decimalInt, List.mem_cons]
    rintro (h | h)
    · revert h
      decide
    · exact notMem_decimal (by decide) (n + 1) h

/-- A number that was written is read back. -/
theorem parseInt_decimalInt (n : Int) : parseInt (decimalInt n) = some n := by
  cases n with
  | ofNat n =>
    have hm : (decimal n).head? ≠ some '-'.toUInt8 := by
      intro h
      exact notMem_decimal (by decide) n (List.mem_of_head? h)
    rw [parseInt, decimalInt, if_neg hm, parseDecimal_decimal]
    rfl
  | negSucc n =>
    rw [parseInt, decimalInt, List.head?_cons, if_pos rfl, List.tail_cons, parseDecimal_decimal]
    rfl

/-- A number of 64 bits that was written is read back. -/
theorem parseInt64_decimalInt (n : Int64) : parseInt64 (decimalInt n.toInt) = some n := by
  rw [parseInt64, parseInt_decimalInt, Option.bind_some,
    if_pos ⟨n.minValue_le_toInt, n.toInt_le⟩, Int64.ofInt_toInt]

/-! ## The round trip -/

/-- No value begins with the terminator. -/
theorem head?_encode (v : Value) (rest : List UInt8) :
    (v.encode ++ rest).head? ≠ some byteE := by
  obtain ⟨b, tail, hv, hb⟩ := Metainfo.encode_head v.tree
  rw [Value.encode, hv]
  exact fun h => hb (Option.some.inj h)

/-- No value is written as nothing. -/
theorem length_encode_pos (v : Value) : 0 < v.encode.length := by
  obtain ⟨b, tail, hv, -⟩ := Metainfo.encode_head v.tree
  rw [Value.encode, hv]
  exact Nat.succ_pos _

/-- A string begins with a digit, and so as no other kind of value. -/
theorem head?_encodeBytes (b rest : List UInt8) {c : UInt8} (hc : ¬ IsDigit c) :
    (encodeBytes b ++ rest).head? ≠ some c := by
  obtain ⟨d, ds, hn, hd⟩ := exists_decimal_eq_cons b.length
  rw [encodeBytes, hn]
  intro h
  obtain rfl := Option.some.inj h
  exact hc hd

/-- An item is read, and then the others. -/
theorem decodeItems_next {fuel : Nat} {bs rest rest' : List UInt8} {v : Value} {vs : List Value}
    (hne : bs.head? ≠ some byteE) (hv : decodeValue fuel bs = some (v, rest))
    (hvs : decodeItems fuel rest = some (vs, rest')) :
    decodeItems (fuel + 1) bs = some (v :: vs, rest') := by
  rw [decodeItems, if_neg hne, hv]
  simp [hvs]

/-- An entry is read, and then the others. -/
theorem decodeEntries_next {fuel : Nat} {bs rest rest' rest'' k : List UInt8} {v : Value}
    {es : List (List UInt8 × Value)} (hne : bs.head? ≠ some byteE)
    (hk : decodeBytes bs = some (k, rest)) (hv : decodeValue fuel rest = some (v, rest'))
    (hes : decodeEntries fuel rest' = some (es, rest'')) :
    decodeEntries (fuel + 1) bs = some ((k, v) :: es, rest'') := by
  rw [decodeEntries, if_neg hne, hk]
  simp [hv, hes]

mutual

/-- With fuel for its bytes, an encoded value is read back, whatever follows it. -/
theorem decodeValue_encode (v : Value) (fuel : Nat) (rest : List UInt8)
    (hf : v.encode.length ≤ fuel) : decodeValue fuel (v.encode ++ rest) = some (v, rest) := by
  obtain ⟨fuel, rfl⟩ : ∃ f, fuel = f + 1 := Nat.exists_eq_add_one.mpr
    (Nat.lt_of_lt_of_le (length_encode_pos v) hf)
  match v with
  | .int n =>
    have hcut := cut_append (notMem_decimalInt n.toInt) rest
    simp [Value.encode, Value.tree, Metainfo.Value.encode, decodeValue, hcut,
      parseInt64_decimalInt]
  | .bytes b =>
    have hs {c : UInt8} (hc : ¬ IsDigit c) := head?_encodeBytes b rest hc
    simp only [Value.encode, Value.tree, Metainfo.Value.encode]
    rw [decodeValue, if_neg (hs (by decide)), if_neg (hs (by decide)), if_neg (hs (by decide)),
      decodeBytes_encodeBytes]
    rfl
  | .list items =>
    have hi := decodeItems_encode items fuel rest (by
      simp only [Value.encode, Value.tree, Metainfo.Value.encode, List.length_cons,
        List.length_append, List.length_nil] at hf
      omega)
    have hd : byteL ≠ byteI := by decide
    simp [Value.encode, Value.tree, Metainfo.Value.encode, decodeValue, hd, hi]
  | .dict entries =>
    have he := decodeEntries_encode entries fuel rest (by
      simp only [Value.encode, Value.tree, Metainfo.Value.encode, List.length_cons,
        List.length_append, List.length_nil] at hf
      omega)
    have hi : byteD ≠ byteI := by decide
    have hl : byteD ≠ byteL := by decide
    simp [Value.encode, Value.tree, Metainfo.Value.encode, decodeValue, hi, hl, he]

/-- Items that were written are read back with fuel for their length. -/
theorem decodeItems_encode (vs : List Value) (fuel : Nat) (rest : List UInt8)
    (hf : (encodeItems (treeItems vs)).length < fuel) :
    decodeItems fuel (encodeItems (treeItems vs) ++ byteE :: rest) = some (vs, rest) := by
  obtain ⟨fuel, rfl⟩ : ∃ f, fuel = f + 1 := Nat.exists_eq_add_one.mpr (Nat.zero_lt_of_lt hf)
  match vs with
  | [] => simp [treeItems, encodeItems, decodeItems]
  | v :: vs =>
    have hpos := length_encode_pos v
    have hlen : v.encode.length + (encodeItems (treeItems vs)).length < fuel + 1 := by
      simpa [treeItems, encodeItems, Value.encode] using hf
    have hv := decodeValue_encode v fuel (encodeItems (treeItems vs) ++ byteE :: rest)
      (by omega)
    have hvs := decodeItems_encode vs fuel rest (by omega)
    rw [treeItems, encodeItems, List.append_assoc]
    exact decodeItems_next (head?_encode v _) hv hvs

/-- Entries that were written are read back with fuel for their length. -/
theorem decodeEntries_encode (es : List (List UInt8 × Value)) (fuel : Nat) (rest : List UInt8)
    (hf : (encodeEntries (treeEntries es)).length < fuel) :
    decodeEntries fuel (encodeEntries (treeEntries es) ++ byteE :: rest) = some (es, rest) := by
  obtain ⟨fuel, rfl⟩ : ∃ f, fuel = f + 1 := Nat.exists_eq_add_one.mpr (Nat.zero_lt_of_lt hf)
  match es with
  | [] => simp [treeEntries, encodeEntries, decodeEntries]
  | (k, v) :: es =>
    have hpos := length_encode_pos v
    have hlen : (encodeBytes k).length + (v.encode.length +
        (encodeEntries (treeEntries es)).length) < fuel + 1 := by
      simpa [treeEntries, encodeEntries, Value.encode, Nat.add_assoc] using hf
    have hk := decodeBytes_encodeBytes k (v.encode ++
      (encodeEntries (treeEntries es) ++ byteE :: rest))
    have hv := decodeValue_encode v fuel
      (encodeEntries (treeEntries es) ++ byteE :: rest) (by omega)
    have hes := decodeEntries_encode es fuel rest (by omega)
    rw [treeEntries, encodeEntries, List.append_assoc, List.append_assoc]
    exact decodeEntries_next (head?_encodeBytes k _ (by decide)) hk hv hes

end

/-- Every tree is what its encoding decodes to. -/
theorem decode_encode (v : Value) : decode v.encode = .ok v := by
  have h := decodeValue_encode v _ [] (Nat.le_succ _)
  rw [List.append_nil] at h
  rw [decode, h]

end Torrentina.Tracker
