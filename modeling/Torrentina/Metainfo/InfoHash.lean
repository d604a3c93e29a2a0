import Torrentina.Core.Utf8
import Torrentina.Metainfo.InfoSpan
import Torrentina.Metainfo.Types

/-!
# What the info hash identifies

An encoding is read in one way only: the first byte tells the kind of a value,
and a value ends where its own bytes say. So the bytes that are hashed identify
the info dictionary, and writing the typed struct again gives the same bytes just
when the dictionary holds the fields of the struct and nothing else.
-/

namespace Torrentina.Metainfo

open Torrentina.Core

/-! ## Encodings are read in one way -/

/-- The kind of a value. -/
def Value.kind : Value → Nat
  | .int _ => 0
  | .bytes _ => 1
  | .list _ => 2
  | .dict _ => 3

/-- The kind of the value that begins with that byte. -/
def kindOf (b : UInt8) : Nat :=
  if b = byteI then 0 else if b = byteL then 2 else if b = byteD then 3 else 1

/-- A number is told from what follows it. -/
theorem decimal_append_inj {c : UInt8} (hc : ¬ IsDigit c) {n n' : Nat} {r r' : List UInt8}
    (h : decimal n ++ c :: r = decimal n' ++ c :: r') : n = n' ∧ r = r' := by
  have hlen := congrArg (fun l => l.findIdx? (· == c)) h
  simp only [findIdx?_decimal hc] at hlen
  obtain ⟨hd, hr⟩ := List.append_inj h (Option.some.inj hlen)
  have hn := congrArg parseDecimal hd
  rw [parseDecimal_decimal, parseDecimal_decimal] at hn
  exact ⟨Option.some.inj hn, (List.cons.inj hr).2⟩

/-- A signed number is told from what follows it. -/
theorem decimalInt_append_inj {n n' : Int} {r r' : List UInt8}
    (h : decimalInt n ++ byteE :: r = decimalInt n' ++ byteE :: r') : n = n' ∧ r = r' := by
  have hminus : ∀ m (s s' : List UInt8), decimal m ++ s ≠ '-'.toUInt8 :: s' := by
    intro m s s' he
    obtain ⟨c, cs, hm, hc⟩ := exists_decimal_eq_cons m
    rw [hm, List.cons_append] at he
    obtain ⟨rfl, -⟩ := List.cons.inj he
    revert hc
    decide
  cases n with
  | ofNat n =>
    cases n' with
    | ofNat n' =>
      obtain ⟨rfl, rfl⟩ := decimal_append_inj (by decide) h
      exact ⟨rfl, rfl⟩
    | negSucc n' => exact absurd h (hminus n _ _)
  | negSucc n =>
    cases n' with
    | ofNat n' => exact absurd h.symm (hminus n' _ _)
    | negSucc n' =>
      obtain ⟨hn, rfl⟩ := decimal_append_inj (by decide) (List.cons.inj h).2
      obtain rfl := Nat.succ.inj hn
      exact ⟨rfl, rfl⟩

/-- A byte string is told from what follows it. -/
theorem encodeBytes_append_inj {b b' r r' : List UInt8}
    (h : encodeBytes b ++ r = encodeBytes b' ++ r') : b = b' ∧ r = r' := by
  simp only [encodeBytes, List.append_assoc, List.cons_append] at h
  obtain ⟨hlen, h⟩ := decimal_append_inj (by decide) h
  exact List.append_inj h hlen

/-- A key begins with a digit. -/
theorem encodeBytes_head (b : List UInt8) :
    ∃ c rest, encodeBytes b = c :: rest ∧ IsDigit c := by
  obtain ⟨c, cs, hn, hc⟩ := exists_decimal_eq_cons b.length
  exact ⟨c, cs ++ byteColon :: b, by rw [encodeBytes, hn, List.cons_append], hc⟩

/-- The first byte tells the kind. -/
theorem kindOf_head (v : Value) (r : List UInt8) :
    (v.encode ++ r).head?.map kindOf = some v.kind := by
  cases v with
  | bytes b =>
    obtain ⟨c, rest, hb, hc⟩ := encodeBytes_head b
    rw [Value.encode, hb, List.cons_append, List.head?_cons, Option.map_some, kindOf]
    have hi : c ≠ byteI := by rintro rfl; revert hc; decide
    have hl : c ≠ byteL := by rintro rfl; revert hc; decide
    have hd : c ≠ byteD := by rintro rfl; revert hc; decide
    rw [if_neg hi, if_neg hl, if_neg hd]
    rfl
  | _ =>
    rw [Value.encode]
    rfl

/-- Values that are written alike are of one kind. -/
theorem kind_eq {v v' : Value} {r r' : List UInt8} (h : v.encode ++ r = v'.encode ++ r') :
    v.kind = v'.kind := by
  have hk := congrArg (fun l => l.head?.map kindOf) h
  simp only [kindOf_head] at hk
  exact Option.some.inj hk

mutual

/-- A value is determined by any bytes that begin with its encoding. -/
theorem encode_append_inj (v v' : Value) {r r' : List UInt8}
    (h : v.encode ++ r = v'.encode ++ r') : v = v' ∧ r = r' := by
  have hk := kind_eq h
  match v with
  | .int n =>
    cases v' with
    | int n' =>
      simp only [Value.encode, List.cons_append, List.append_assoc, List.nil_append,
        List.cons.injEq, true_and] at h
      obtain ⟨rfl, rfl⟩ := decimalInt_append_inj h
      exact ⟨rfl, rfl⟩
    | _ => simp [Value.kind] at hk
  | .bytes b =>
    cases v' with
    | bytes b' =>
      rw [Value.encode, Value.encode] at h
      obtain ⟨rfl, rfl⟩ := encodeBytes_append_inj h
      exact ⟨rfl, rfl⟩
    | _ => simp [Value.kind] at hk
  | .list items =>
    cases v' with
    | list items' =>
      simp only [Value.encode, List.cons_append, List.append_assoc, List.nil_append,
        List.cons.injEq, true_and] at h
      obtain ⟨rfl, rfl⟩ := encodeItems_append_inj items items' h
      exact ⟨rfl, rfl⟩
    | _ => simp [Value.kind] at hk
  | .dict es =>
    cases v' with
    | dict es' =>
      simp only [Value.encode, List.cons_append, List.append_assoc, List.nil_append,
        List.cons.injEq, true_and] at h
      obtain ⟨rfl, rfl⟩ := encodeEntries_append_inj es es' h
      exact ⟨rfl, rfl⟩
    | _ => simp [Value.kind] at hk

/-- A list is told from what follows it. -/
theorem encodeItems_append_inj (vs vs' : List Value) {r r' : List UInt8}
    (h : encodeItems vs ++ byteE :: r = encodeItems vs' ++ byteE :: r') : vs = vs' ∧ r = r' := by
  match vs with
  | [] =>
    cases vs' with
    | nil => exact ⟨rfl, (List.cons.inj h).2⟩
    | cons v' vs' =>
      obtain ⟨b, rest, hb, he⟩ := encode_head v'
      rw [encodeItems, encodeItems, hb] at h
      exact absurd (List.cons.inj h).1.symm he
  | v :: vs =>
    cases vs' with
    | nil =>
      obtain ⟨b, rest, hb, he⟩ := encode_head v
      rw [encodeItems, encodeItems, hb] at h
      exact absurd (List.cons.inj h).1 he
    | cons v' vs' =>
      rw [encodeItems, encodeItems, List.append_assoc, List.append_assoc] at h
      obtain ⟨rfl, hrest⟩ := encode_append_inj v v' h
      obtain ⟨rfl, rfl⟩ := encodeItems_append_inj vs vs' hrest
      exact ⟨rfl, rfl⟩

/-- A dictionary is told from what follows it. -/
theorem encodeEntries_append_inj (es es' : List (List UInt8 × Value)) {r r' : List UInt8}
    (h : encodeEntries es ++ byteE :: r = encodeEntries es' ++ byteE :: r') :
    es = es' ∧ r = r' := by
  have hdigit : ¬ IsDigit byteE := by decide
  match es with
  | [] =>
    cases es' with
    | nil => exact ⟨rfl, (List.cons.inj h).2⟩
    | cons e' es' =>
      obtain ⟨c, rest, hc, hd⟩ := encodeBytes_head e'.1
      rw [encodeEntries, encodeEntries, hc] at h
      exact absurd ((List.cons.inj h).1 ▸ hd) hdigit
  | (k, v) :: es =>
    cases es' with
    | nil =>
      obtain ⟨c, rest, hc, hd⟩ := encodeBytes_head k
      rw [encodeEntries, encodeEntries, hc] at h
      exact absurd ((List.cons.inj h).1 ▸ hd) hdigit
    | cons e' es' =>
      obtain ⟨k', v'⟩ := e'
      simp only [encodeEntries, List.append_assoc] at h
      obtain ⟨rfl, hvalue⟩ := encodeBytes_append_inj h
      obtain ⟨rfl, hrest⟩ := encode_append_inj v v' hvalue
      obtain ⟨rfl, rfl⟩ := encodeEntries_append_inj es es' hrest
      exact ⟨rfl, rfl⟩

end

/-- Values that are written alike are equal. -/
theorem encode_inj {v v' : Value} : v.encode = v'.encode ↔ v = v' := by
  constructor
  · intro h
    exact (encode_append_inj v v' (congrArg (· ++ []) h)).1
  · intro h
    rw [h]

/-! ## The typed struct -/

/-- `FileEntry`, with every field that is written. -/
structure TypedFile where
  length : UInt64
  path : List String
  md5sum : Option String
  deriving DecidableEq

/-- `Info`, with every field that is written. -/
structure TypedInfo where
  name : String
  pieceLength : UInt64
  pieces : List UInt8
  length : Option UInt64
  files : Option (List TypedFile)
  «private» : Option UInt8
  deriving DecidableEq

/-- The name of a field as a key. -/
def fieldKey (name : List Char) : List UInt8 := name.map Char.toUInt8

def filesKey : List UInt8 := fieldKey ['f', 'i', 'l', 'e', 's']
def lengthKey : List UInt8 := fieldKey ['l', 'e', 'n', 'g', 't', 'h']
def md5sumKey : List UInt8 := fieldKey ['m', 'd', '5', 's', 'u', 'm']
def nameKey : List UInt8 := fieldKey ['n', 'a', 'm', 'e']
def pathKey : List UInt8 := fieldKey ['p', 'a', 't', 'h']
def pieceLengthKey : List UInt8 :=
  fieldKey ['p', 'i', 'e', 'c', 'e', ' ', 'l', 'e', 'n', 'g', 't', 'h']
def piecesKey : List UInt8 := fieldKey ['p', 'i', 'e', 'c', 'e', 's']
def privateKey : List UInt8 := fieldKey ['p', 'r', 'i', 'v', 'a', 't', 'e']

/-- A string as a value. -/
def textValue (s : String) : Value := .bytes (utf8Bytes s)

/-- A `u64` as a value. -/
def sizeValue (n : UInt64) : Value := .int n.toNat

/-- A `u8` as a value. -/
def flagValue (n : UInt8) : Value := .int n.toNat

/-- The entry of a field that is skipped where it is `None`. -/
def optionalEntry (key : List UInt8) (field : Option Value) : List (List UInt8 × Value) :=
  field.toList.map fun v => (key, v)

/-- A struct is a dictionary with its fields sorted by key. -/
def TypedFile.value (file : TypedFile) : Value :=
  .dict ([(lengthKey, sizeValue file.length)] ++
    optionalEntry md5sumKey (file.md5sum.map textValue) ++
    [(pathKey, .list (file.path.map textValue))])

/-- The list of files as a value. -/
def filesValue (files : List TypedFile) : Value := .list (files.map TypedFile.value)

def TypedInfo.value (info : TypedInfo) : Value :=
  .dict (optionalEntry filesKey (info.files.map filesValue) ++
    optionalEntry lengthKey (info.length.map sizeValue) ++
    [(nameKey, textValue info.name), (pieceLengthKey, sizeValue info.pieceLength),
      (piecesKey, .bytes info.pieces)] ++
    optionalEntry privateKey (info.private.map flagValue))

/-- The largest integer bencode writers agree on, `i64::MAX`. -/
def i64Max : Nat := 2 ^ 63 - 1

/-- Every size in the struct is one that a torrent file can hold. -/
structure TypedInfo.Fits (info : TypedInfo) : Prop where
  pieceLength : info.pieceLength.toNat ≤ i64Max
  length : ∀ length ∈ info.length, length.toNat ≤ i64Max
  files : ∀ files ∈ info.files, ∀ file ∈ files, file.length.toNat ≤ i64Max

/-- `Metainfo`: the struct, and the hash of the bytes it was parsed from. -/
structure TypedMetainfo (δ : Type) where
  info : TypedInfo
  rawInfoHash : Option δ

/-- `Info::info_hash`: the hash of the struct written again. -/
def TypedInfo.infoHash {δ : Type} (sha1 : List UInt8 → δ)
    (toBytes : TypedInfo → Except Error (List UInt8)) (info : TypedInfo) : Except Error δ := do
  let encoded ← toBytes info
  return sha1 encoded

/-- `Metainfo::from_bytes`. -/
def TypedMetainfo.fromBytes {δ : Type} (sha1 : List UInt8 → δ)
    (parse : List UInt8 → Except Error TypedInfo) (bytes : List UInt8) :
    Except Fault (TypedMetainfo δ) := do
  let info ← (parse bytes).mapError Fault.error
  let hash ← Metainfo.rawInfoHash sha1 bytes
  return ⟨info, some hash⟩

/-- `Metainfo::info_hash`: the hash of the original bytes, where there are any. -/
def TypedMetainfo.infoHash {δ : Type} (sha1 : List UInt8 → δ)
    (toBytes : TypedInfo → Except Error (List UInt8)) (m : TypedMetainfo δ) : Except Error δ :=
  match m.rawInfoHash with
  | some hash => .ok hash
  | none => m.info.infoHash sha1 toBytes

/-! ## The struct is read back from its dictionary in one way -/

/-- Strings that are written alike are equal. -/
theorem textValue_injective : Function.Injective textValue := by
  intro s t h
  exact utf8Bytes_inj (Value.bytes.inj h)

/-- Sizes that are written alike are equal. -/
theorem sizeValue_injective : Function.Injective sizeValue := by
  intro n n' h
  exact UInt64.toNat_inj.mp (Int.ofNat.inj (Value.int.inj h))

/-- Flags that are written alike are equal. -/
theorem flagValue_injective : Function.Injective flagValue := by
  intro n n' h
  exact UInt8.toNat_inj.mp (Int.ofNat.inj (Value.int.inj h))

/-- An optional entry is told from what may follow it by its key. -/
theorem optionalEntry_append_inj {key : List UInt8} {o o' : Option Value}
    {r r' : List (List UInt8 × Value)} (hr : ∀ e ∈ r.head?, e.1 ≠ key)
    (hr' : ∀ e ∈ r'.head?, e.1 ≠ key)
    (h : optionalEntry key o ++ r = optionalEntry key o' ++ r') : o = o' ∧ r = r' := by
  cases o with
  | none =>
    cases o' with
    | none => exact ⟨rfl, h⟩
    | some v' =>
      obtain rfl : r = (key, v') :: r' := h
      exact absurd rfl (hr _ rfl)
  | some v =>
    cases o' with
    | none =>
      obtain rfl : (key, v) :: r = r' := h
      exact absurd rfl (hr' _ rfl)
    | some v' =>
      obtain ⟨he, hrest⟩ := List.cons.inj h
      exact ⟨congrArg some (Prod.mk.inj he).2, hrest⟩

/-- The key that follows an optional entry is not its own. -/
theorem head_key_ne {key key' : List UInt8} (hne : key' ≠ key) (v : Value)
    (r : List (List UInt8 × Value)) : ∀ e ∈ ((key', v) :: r).head?, e.1 ≠ key := by
  intro e he
  obtain rfl := Option.some.inj he
  exact hne

/-- A field that may be left out does not have the key of another one. -/
theorem optional_key_ne {key key' : List UInt8} {r : List (List UInt8 × Value)}
    (hne : key' ≠ key) (o : Option Value) (hr : ∀ e ∈ r.head?, e.1 ≠ key) :
    ∀ e ∈ (optionalEntry key' o ++ r).head?, e.1 ≠ key := by
  cases o with
  | none => exact hr
  | some v => exact head_key_ne hne v r

/-- File entries that are written alike are equal. -/
theorem TypedFile.value_injective : Function.Injective TypedFile.value := by
  intro file file' h
  have hes := Value.dict.inj h
  simp only [List.append_assoc, List.cons_append] at hes
  obtain ⟨hlength, hrest⟩ := List.cons.inj hes
  have hkey : pathKey ≠ md5sumKey := by decide
  obtain ⟨hmd5sum, hpath⟩ := optionalEntry_append_inj (head_key_ne hkey _ _)
    (head_key_ne hkey _ _) hrest
  have hpaths := Value.list.inj (Prod.mk.inj (List.cons.inj hpath).1).2
  rw [TypedFile.mk.injEq]
  exact ⟨sizeValue_injective (Prod.mk.inj hlength).2,
    List.map_injective_iff.mpr textValue_injective hpaths,
    Option.map_injective textValue_injective hmd5sum⟩

/-- File lists that are written alike are equal. -/
theorem filesValue_injective : Function.Injective filesValue := by
  intro files files' h
  exact List.map_injective_iff.mpr TypedFile.value_injective (Value.list.inj h)

/-- The struct is determined by the dictionary it is written as. -/
theorem TypedInfo.value_injective : Function.Injective TypedInfo.value := by
  intro info info' h
  have hes := Value.dict.inj h
  simp only [List.append_assoc, List.cons_append, List.nil_append] at hes
  have hname : nameKey ≠ lengthKey := by decide
  have hname' : nameKey ≠ filesKey := by decide
  have hlen : lengthKey ≠ filesKey := by decide
  obtain ⟨hfiles, hes⟩ := optionalEntry_append_inj
    (optional_key_ne hlen _ (head_key_ne hname' _ _))
    (optional_key_ne hlen _ (head_key_ne hname' _ _)) hes
  obtain ⟨hlength, hes⟩ := optionalEntry_append_inj (head_key_ne hname _ _)
    (head_key_ne hname _ _) hes
  obtain ⟨hnamed, hes⟩ := List.cons.inj hes
  obtain ⟨hpieceLength, hes⟩ := List.cons.inj hes
  obtain ⟨hpieces, hes⟩ := List.cons.inj hes
  rw [← List.append_nil (optionalEntry privateKey _),
    ← List.append_nil (optionalEntry privateKey (Option.map _ info'.private))] at hes
  obtain ⟨hprivate, -⟩ := optionalEntry_append_inj (by simp) (by simp) hes
  rw [TypedInfo.mk.injEq]
  exact ⟨textValue_injective (Prod.mk.inj hnamed).2,
    sizeValue_injective (Prod.mk.inj hpieceLength).2,
    Value.bytes.inj (Prod.mk.inj hpieces).2,
    Option.map_injective sizeValue_injective hlength,
    Option.map_injective filesValue_injective hfiles,
    Option.map_injective flagValue_injective hprivate⟩

/-! ## What is hashed -/

/-- The bytes of a torrent file: a dictionary with an `info` entry, and what follows it. -/
structure TorrentFile where
  entries : List (List UInt8 × Value)
  info : Value
  trailing : List UInt8
  found : entries.lookup infoKey = some info
  length_le : ((Value.dict entries).encode ++ trailing).length ≤ isizeMax

def TorrentFile.bytes (file : TorrentFile) : List UInt8 :=
  (Value.dict file.entries).encode ++ file.trailing

/-- The hashed bytes of a torrent file are those of its `info` value. -/
theorem TorrentFile.extractRawInfo (file : TorrentFile) :
    extractRawInfo file.bytes = .ok file.info.encode := by
  have hmax : isizeMax ≤ usizeMax := by decide
  exact extractRawInfo_encode (Nat.le_trans file.length_le hmax) file.found

/-- A parsed file keeps the hash of its own bytes. -/
theorem TypedMetainfo.fromBytes_hash {δ : Type} {sha1 : List UInt8 → δ}
    {parse : List UInt8 → Except Error TypedInfo} {file : TorrentFile} {m : TypedMetainfo δ}
    (h : TypedMetainfo.fromBytes sha1 parse file.bytes = .ok m) :
    m.rawInfoHash = some (sha1 file.info.encode) := by
  rw [TypedMetainfo.fromBytes, Metainfo.rawInfoHash, file.extractRawInfo] at h
  cases hp : parse file.bytes with
  | error e => rw [hp] at h; cases h
  | ok info =>
    rw [hp] at h
    obtain rfl := Except.ok.inj h
    rfl

/-- The bytes that are hashed tell one `info` value from any other; a struct written
again gives the hashed bytes of a file exactly when the file's `info` value holds the
fields of the struct and nothing else; no two structs are written alike. A parsed file
has the hash of its own bytes, which is then the hash of its struct. -/
theorem info_hash_identifies {δ : Type} (sha1 : List UInt8 → δ)
    (parse : List UInt8 → Except Error TypedInfo)
    (toBytes : TypedInfo → Except Error (List UInt8))
    (hto : ∀ info : TypedInfo, info.Fits → toBytes info = .ok info.value.encode) :
    (∀ file file' : TorrentFile,
      extractRawInfo file.bytes = extractRawInfo file'.bytes ↔ file.info = file'.info) ∧
    (∀ (file : TorrentFile) (info : TypedInfo), info.Fits →
      ((∃ bytes, extractRawInfo file.bytes = .ok bytes ∧ toBytes info = .ok bytes) ↔
        file.info = info.value)) ∧
    (∀ info info' : TypedInfo, info.Fits → info'.Fits →
      (toBytes info = toBytes info' ↔ info = info')) ∧
    (∀ (file : TorrentFile) (m : TypedMetainfo δ),
      TypedMetainfo.fromBytes sha1 parse file.bytes = .ok m →
      m.infoHash sha1 toBytes = .ok (sha1 file.info.encode) ∧
      (m.info.Fits → file.info = m.info.value →
        m.info.infoHash sha1 toBytes = m.infoHash sha1 toBytes)) := by
  refine ⟨?_, ?_, ?_, ?_⟩
  · intro file file'
    rw [file.extractRawInfo, file'.extractRawInfo, Except.ok.injEq, encode_inj]
  · intro file info hfits
    rw [file.extractRawInfo, hto info hfits]
    constructor
    · rintro ⟨bytes, hfile, hinfo⟩
      have he : file.info.encode = info.value.encode :=
        (Except.ok.inj hfile).trans (Except.ok.inj hinfo).symm
      exact encode_inj.mp he
    · intro he
      exact ⟨_, rfl, by rw [he]⟩
  · intro info info' hfits hfits'
    rw [hto info hfits, hto info' hfits', Except.ok.injEq, encode_inj]
    exact TypedInfo.value_injective.eq_iff
  · intro file m hm
    have hhash : m.infoHash sha1 toBytes = .ok (sha1 file.info.encode) := by
      rw [TypedMetainfo.infoHash, TypedMetainfo.fromBytes_hash hm]
    refine ⟨hhash, fun hfits he => ?_⟩
    rw [hhash, TypedInfo.infoHash, hto _ hfits, he]
    rfl

/-- The struct of a private torrent with one file. -/
def privateInfo : TypedInfo where
  name := "a"
  pieceLength := 1
  pieces := []
  length := some 3
  files := none
  «private» := some 1

/-- The sizes of the private torrent fit. -/
theorem privateInfo_fits : privateInfo.Fits where
  pieceLength := by decide
  length := by rintro _ ⟨⟩; decide
  files := by rintro _ ⟨⟩

/-- The same dictionary, with the `source` tag that some trackers add. -/
def sourceFile : TorrentFile where
  entries := [(infoKey, .dict [(lengthKey, .int 3), (nameKey, .bytes [97]),
    (pieceLengthKey, .int 1), (piecesKey, .bytes []), (privateKey, .int 1),
    (fieldKey ['s', 'o', 'u', 'r', 'c', 'e'], .bytes [98])])]
  info := _
  trailing := []
  found := rfl
  length_le := by decide +kernel

/-- The struct of a private torrent does not have the hashed bytes of the file with the tag. -/
theorem info_hash_identifies_source :
    ¬ ∃ bytes, extractRawInfo sourceFile.bytes = .ok bytes ∧
      (Except.ok privateInfo.value.encode : Except Error (List UInt8)) = .ok bytes := by
  have h := ((info_hash_identifies id (fun _ => .ok privateInfo)
    (fun info => .ok info.value.encode) (fun _ _ => rfl)).2.1 sourceFile privateInfo
    privateInfo_fits).not
  refine h.mpr fun he => ?_
  have hlen := congrArg List.length (Value.dict.inj he)
  simp [privateInfo, optionalEntry] at hlen

end Torrentina.Metainfo
