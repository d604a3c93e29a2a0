import Torrentina.Disk.FileMap

/-!
# Storage: positioned writes of whole pieces

The open files are byte arrays, one for each mapped file. Writing a piece is a
list of positioned writes, and it refines one positioned write on the
concatenation of the files: that is the statement every later result about the
files on disk goes through.
-/

namespace Torrentina.Disk

open Torrentina.Core Download

/-- The open file handles of a torrent, each with the bytes of its file. -/
structure Storage where
  geometry : Geometry
  files : List MappedFile
  handles : List (List UInt8)

namespace Storage

/-- `File::set_len`: cut the file or extend it with zeros. -/
def setLen (bytes : List UInt8) (length : Nat) : List UInt8 :=
  bytes.take length ++ List.replicate (length - bytes.length) 0

/-- Create and preallocate the files of a torrent. What the operating system
returns for a path, an error or the bytes already there, is a parameter. -/
def create (openFile : PathBuf → Except Error (List UInt8)) (m : Metainfo) (platform : Platform)
    (base : PathBuf) : Except Error Storage := do
  let geometry ← Geometry.fromInfo m.info
  let files ← buildFileMap m platform base
  let handles ← files.mapM fun file => do
    let handle ← openFile file.path
    return setLen handle file.length
  return { geometry, files, handles }

/-- Seek to the operation's offset and write its part of the data. -/
def applyOp (data : List UInt8) (handles : List (List UInt8)) (op : WriteOp) :
    List (List UInt8) :=
  handles.modify op.fileIndex fun handle =>
    writeAt 0 handle op.fileOffset ((data.drop op.srcStart).take op.len)

/-- Write one verified piece: the result, and the storage after the writes. -/
def writePiece (st : Storage) (index : Nat) (data : List UInt8) :
    Except Error Unit × Storage :=
  let globalOffset := st.geometry.pieceOffset index
  let ops := mapRegion st.files globalOffset data.length
  let handles := ops.foldl (applyOp data) st.handles
  let covered := (ops.map WriteOp.len).sum
  if covered ≠ data.length then
    (.error (.storage s!"piece {index} mapped {covered} of {data.length} bytes to files"),
      { st with handles })
  else (.ok (), { st with handles })

/-- Write a list of pieces in order, stopping at the first error. -/
def writePieces (st : Storage) : List (Nat × List UInt8) → Except Error Unit × Storage
  | [] => (.ok (), st)
  | (index, data) :: rest =>
    match st.writePiece index data with
    | (.ok (), st') => st'.writePieces rest
    | (.error e, st') => (.error e, st')

/-- The bytes of the torrent as they stand on disk: the files one after another. -/
def content (st : Storage) : List UInt8 := st.handles.flatten

/-- What `create` establishes and every write keeps. -/
structure WellFormed (st : Storage) : Prop where
  geometry : st.geometry.WellFormed
  contiguous : Contiguous 0 st.files st.geometry.totalLength
  total_lt : st.geometry.totalLength < 2 ^ 64
  lengths : st.handles.map List.length = st.files.map MappedFile.length

end Storage

/-! ## The writes of a region -/

/-- Without wrapping, a file receives the intersection of the region with it. -/
theorem regionOp_eq {a len k : Nat} {f : MappedFile} (ha : a + len < 2 ^ 64)
    (hf : f.offset + f.length < 2 ^ 64) :
    regionOp a len f k =
      if max a f.offset ≥ min (a + len) (f.offset + f.length) then none
      else some ⟨k, max a f.offset - f.offset, max a f.offset - a,
        min (a + len) (f.offset + f.length) - max a f.offset⟩ := by
  rw [regionOp, Nat.mod_eq_of_lt ha, Nat.mod_eq_of_lt hf]

/-- Write operations whose source ranges follow one another from `lo` to `hi`. -/
def Consecutive (lo : Nat) : List WriteOp → Nat → Prop
  | [], hi => lo = hi
  | op :: ops, hi => op.srcStart = lo ∧ 0 < op.len ∧ Consecutive (lo + op.len) ops hi

theorem Consecutive.sum {ops : List WriteOp} {lo hi : Nat} (h : Consecutive lo ops hi) :
    lo + (ops.map WriteOp.len).sum = hi := by
  induction ops generalizing lo with
  | nil => simpa [Consecutive] using h
  | cons op ops ih =>
    have := ih h.2.2
    rw [List.map_cons, List.sum_cons]
    omega

/-- Consecutive operations leave no source byte out. -/
theorem Consecutive.covers {ops : List WriteOp} {lo hi : Nat} (h : Consecutive lo ops hi)
    {p : Nat} (hlo : lo ≤ p) (hhi : p < hi) :
    ∃ op ∈ ops, op.srcStart ≤ p ∧ p < op.srcStart + op.len := by
  induction ops generalizing lo with
  | nil =>
    simp only [Consecutive] at h
    omega
  | cons op ops ih =>
    obtain ⟨hs, hpos, hrest⟩ := h
    by_cases hp : p < lo + op.len
    · exact ⟨op, List.mem_cons_self, by omega, by omega⟩
    · obtain ⟨op', hm, hop⟩ := ih hrest (by omega)
      exact ⟨op', List.mem_cons_of_mem op hm, hop⟩

section Region

variable {a len : Nat} (hfit : a + len < 2 ^ 64)
include hfit

/-- Files that tile a stretch of the stream cut the region, clamped to that
stretch, into consecutive source ranges. -/
theorem mapRegion_consecutive {fs : List MappedFile} {o e k : Nat} (hc : Contiguous o fs e) :
    Consecutive (min (max o a) (a + len) - a)
      ((fs.zipIdx k).filterMap fun (f, i) => regionOp a len f i)
      (min (max e a) (a + len) - a) := by
  induction fs generalizing o k with
  | nil =>
    simp only [Contiguous] at hc
    simp [Consecutive, hc]
  | cons f fs ih =>
    obtain ⟨ho, hlt, hrest⟩ := hc
    have ih' := ih (k := k + 1) hrest
    rw [List.zipIdx_cons, List.filterMap_cons]
    simp only [regionOp_eq hfit (ho ▸ hlt)]
    by_cases hm : max a f.offset ≥ min (a + len) (f.offset + f.length)
    · rw [if_pos hm]
      have he : min (max o a) (a + len) - a = min (max (o + f.length) a) (a + len) - a := by omega
      simpa only [he] using ih'
    · rw [if_neg hm]
      refine ⟨by simp only; omega, by simp only; omega, ?_⟩
      have he : min (max o a) (a + len) - a +
          (min (a + len) (f.offset + f.length) - max a f.offset) =
            min (max (o + f.length) a) (a + len) - a := by omega
      simp only
      rw [he]
      exact ih'

/-- Every operation stays inside its file and keeps global positions. -/
theorem mapRegion_inside {files : List MappedFile} {e : Nat} (hc : Contiguous 0 files e)
    {op : WriteOp} (hop : op ∈ mapRegion files a len) :
    ∃ f, files[op.fileIndex]? = some f ∧ op.fileOffset + op.len ≤ f.length ∧
      f.offset + op.fileOffset = a + op.srcStart ∧ op.srcStart + op.len ≤ len := by
  obtain ⟨⟨f, i⟩, hm, hop⟩ := List.mem_filterMap.mp hop
  have hf := List.mem_zipIdx_iff_getElem?.mp hm
  have hlt := (hc.mem (List.mem_of_getElem? hf)).2.2
  simp only [regionOp_eq hfit hlt] at hop
  split at hop
  · cases hop
  · obtain rfl := Option.some.inj hop
    exact ⟨f, hf, by simp only; omega, by simp only; omega, by simp only; omega⟩

omit hfit in
theorem applyOp_append (data : List UInt8) (front : List (List UInt8)) (h : List UInt8)
    (hs : List (List UInt8)) (off start n : Nat) :
    Storage.applyOp data (front ++ h :: hs) ⟨front.length, off, start, n⟩ =
      front ++ writeAt 0 h off ((data.drop start).take n) :: hs := by
  rw [Storage.applyOp, List.modify_eq_take_cons_drop (by simp)]
  simp

/-- Applying the operations of a tiling writes each of its files. -/
theorem foldl_applyOp {data : List UInt8} (hd : data.length = len) {fs : List MappedFile}
    {o e : Nat} (hc : Contiguous o fs e) {hs : List (List UInt8)}
    (hl : hs.map List.length = fs.map MappedFile.length) (front : List (List UInt8)) :
    ((fs.zipIdx front.length).filterMap fun (f, i) => regionOp a len f i).foldl
      (Storage.applyOp data) (front ++ hs) = front ++ overlayAll a data o hs := by
  subst hd
  induction fs generalizing o hs front with
  | nil =>
    obtain rfl : hs = [] := by simpa using hl
    rfl
  | cons f fs ih =>
    cases hs with
    | nil => simp at hl
    | cons h hs =>
      obtain ⟨ho, hlt, hrest⟩ := hc
      obtain ⟨hlen, hl'⟩ := List.cons.inj hl
      -- The head file becomes part of the front, with its own write applied.
      have hnext := ih hrest hl' (front ++ [overlay o a data h])
      rw [List.length_append, List.length_singleton, List.append_assoc, List.append_assoc,
        List.singleton_append, List.singleton_append] at hnext
      rw [List.zipIdx_cons, List.filterMap_cons, overlayAll, hlen, ← hnext]
      simp only [regionOp_eq hfit (ho ▸ hlt), ho, ← hlen]
      by_cases hm : max a o ≥ min (a + data.length) (o + h.length)
      · rw [if_pos hm, overlay_of_disjoint hm]
      · rw [if_neg hm, List.foldl_cons, applyOp_append,
          writeAt_eq_overlay (Nat.lt_of_not_le hm)]

end Region

/-- Byte arrays of the lengths of tiling files are slices of their concatenation. -/
theorem slices_of_contiguous {fs : List MappedFile} {o e : Nat} (hc : Contiguous o fs e)
    {hs : List (List UInt8)} (hl : hs.map List.length = fs.map MappedFile.length)
    (front : List UInt8) (ho : front.length = o) :
    hs = fs.map fun f => ((front ++ hs.flatten).drop f.offset).take f.length := by
  induction fs generalizing o hs front with
  | nil => simpa using hl
  | cons f fs ih =>
    cases hs with
    | nil => simp at hl
    | cons h hs =>
      obtain ⟨hoff, -, hrest⟩ := hc
      obtain ⟨hlen, hl'⟩ := List.cons.inj hl
      have hnext := ih hrest hl' (front ++ h) (by rw [List.length_append, ho, hlen])
      rw [List.append_assoc] at hnext
      rw [List.map_cons, List.flatten_cons, ← hnext, hoff, ← ho, ← hlen]
      simp

/-! ## One piece -/

/-- What the writes of one region do: their source ranges partition it, each
stays inside its file, every byte goes to the file and offset that hold its
global position, and no sum wraps. -/
structure RegionWritten (files : List MappedFile) (a len : Nat) : Prop where
  consecutive : Consecutive 0 (mapRegion files a len) len
  inside : ∀ op ∈ mapRegion files a len, ∃ f, files[op.fileIndex]? = some f ∧
    op.fileOffset + op.len ≤ f.length
  placed : ∀ p < len, ∃ op ∈ mapRegion files a len, ∃ f, files[op.fileIndex]? = some f ∧
    op.srcStart ≤ p ∧ p < op.srcStart + op.len ∧
      f.offset + (op.fileOffset + (p - op.srcStart)) = a + p
  region_lt : a + len < 2 ^ 64
  file_lt : ∀ f ∈ files, f.offset + f.length < 2 ^ 64

/-- A region inside the tiled content is written. -/
theorem regionWritten_of_contiguous {files : List MappedFile} {e a len : Nat}
    (hc : Contiguous 0 files e) (he : e < 2 ^ 64) (ha : a + len ≤ e) :
    RegionWritten files a len := by
  have hfit : a + len < 2 ^ 64 := by omega
  have hcons : Consecutive 0 (mapRegion files a len) len := by
    have h := mapRegion_consecutive hfit (k := 0) hc
    have h0 : min (max 0 a) (a + len) - a = 0 := by omega
    have h1 : min (max e a) (a + len) - a = len := by omega
    rw [h0, h1] at h
    exact h
  refine ⟨hcons, fun op hop => ?_, fun p hp => ?_, hfit, fun f hf => (hc.mem hf).2.2⟩
  · obtain ⟨f, hf, hin, -, -⟩ := mapRegion_inside hfit hc hop
    exact ⟨f, hf, hin⟩
  · obtain ⟨op, hop, hlo, hhi⟩ := hcons.covers (Nat.zero_le p) hp
    obtain ⟨f, hf, -, hpos, -⟩ := mapRegion_inside hfit hc hop
    exact ⟨op, hop, f, hf, hlo, hhi, by omega⟩

namespace Storage

/-- Created storage has the geometry of the torrent and is well formed. -/
theorem create_eq_ok {openFile : PathBuf → Except Error (List UInt8)} {m : Metainfo}
    {platform : Platform} {base : PathBuf} {st : Storage}
    (h : create openFile m platform base = .ok st) :
    Geometry.fromInfo m.info = .ok st.geometry ∧ st.WellFormed := by
  obtain ⟨g, hg, h⟩ := bind_eq_ok_iff.mp h
  obtain ⟨files, hf, h⟩ := bind_eq_ok_iff.mp h
  obtain ⟨handles, hh, h⟩ := bind_eq_ok_iff.mp h
  obtain rfl := Except.ok.inj h
  obtain ⟨hc, hlt⟩ := buildFileMap_contiguous hf hg
  refine ⟨hg, Geometry.fromInfo_wellFormed hg, hc, hlt, ?_⟩
  apply mapM_map _ hh
  intro file handle hfile
  obtain ⟨bytes, -, hb⟩ := bind_eq_ok_iff.mp hfile
  obtain rfl := Except.ok.inj hb
  rw [setLen, List.length_append, List.length_take, List.length_replicate]
  omega

namespace WellFormed

variable {st : Storage} (hst : st.WellFormed)
include hst

theorem length_content : st.content.length = st.geometry.totalLength := by
  rw [content, List.length_flatten, hst.lengths]
  have h := hst.contiguous.sum
  omega

/-- The writes of a whole piece refine one write on the content. -/
theorem writePiece_eq {i : Nat} {data : List UInt8} (hi : i < st.geometry.numPieces)
    (hd : data.length = st.geometry.pieceLengthOf i) :
    ∃ st', st.writePiece i data = (.ok (), st') ∧ st'.WellFormed ∧
      st'.geometry = st.geometry ∧ st'.files = st.files ∧
      st'.content = overlay 0 (st.geometry.pieceOffset i) data st.content := by
  have hle := hst.geometry.pieceOffset_add_le hi
  have hw := regionWritten_of_contiguous hst.contiguous hst.total_lt (hd ▸ hle)
  have hfold : (mapRegion st.files (st.geometry.pieceOffset i) data.length).foldl
      (applyOp data) st.handles = overlayAll (st.geometry.pieceOffset i) data 0 st.handles :=
    foldl_applyOp hw.region_lt rfl hst.contiguous hst.lengths []
  have hsum := hw.consecutive.sum
  rw [Nat.zero_add] at hsum
  simp only [writePiece, hsum, ne_eq, not_true_eq_false, if_false, hfold]
  refine ⟨_, rfl, ⟨hst.geometry, hst.contiguous, hst.total_lt, ?_⟩, rfl, rfl, ?_⟩
  · simp only [map_length_overlayAll, hst.lengths]
  · rw [content, flatten_overlayAll, content]

/-- Files of the declared lengths are the slices of their concatenation. -/
theorem handles_eq : st.handles =
    st.files.map fun f => (st.content.drop f.offset).take f.length := by
  exact slices_of_contiguous hst.contiguous hst.lengths [] rfl

end WellFormed

/-- The slice of the content that is piece `i`. -/
def pieceOf (g : Geometry) (bytes : List UInt8) (i : Nat) : List UInt8 :=
  (bytes.drop (g.pieceOffset i)).take (g.pieceLengthOf i)

/-- Writing pieces of one content, in any order and with repetitions: every
position of a written piece holds the content, every other one is kept. -/
theorem writePieces_content {bytes : List UInt8} {order : List Nat} {st : Storage}
    (hst : st.WellFormed) (hb : bytes.length = st.geometry.totalLength)
    (horder : ∀ i ∈ order, i < st.geometry.numPieces) :
    ∃ st', st.writePieces (order.map fun i => (i, pieceOf st.geometry bytes i)) = (.ok (), st') ∧
      st'.WellFormed ∧ st'.geometry = st.geometry ∧ st'.files = st.files ∧
      ∀ p, (st.content[p]? = bytes[p]? ∨ ∃ i ∈ order, st.geometry.pieceOffset i ≤ p ∧
        p < st.geometry.pieceOffset i + st.geometry.pieceLengthOf i) →
        st'.content[p]? = bytes[p]? := by
  induction order generalizing st with
  | nil => exact ⟨st, rfl, hst, rfl, rfl, fun p hp => by simpa using hp⟩
  | cons i order ih =>
    have hi := horder i List.mem_cons_self
    have hle := hst.geometry.pieceOffset_add_le hi
    have hlen : (pieceOf st.geometry bytes i).length = st.geometry.pieceLengthOf i := by
      rw [pieceOf, List.length_take, List.length_drop]
      omega
    obtain ⟨st₁, hw, hst₁, hg, hf, hc⟩ := hst.writePiece_eq hi hlen
    obtain ⟨st', hws, hst', hg', hf', hp'⟩ := ih hst₁ (hg ▸ hb)
      (fun j hj => hg ▸ horder j (List.mem_cons_of_mem i hj))
    rw [hg] at hws hg' hp'
    rw [hf] at hf'
    refine ⟨st', by rw [List.map_cons, writePieces, hw]; exact hws, hst', hg', hf', ?_⟩
    intro p hp
    apply hp'
    by_cases hin : st.geometry.pieceOffset i ≤ p ∧
        p < st.geometry.pieceOffset i + st.geometry.pieceLengthOf i
    · left
      have hlc := hst.length_content
      rw [hc, getElem?_overlay_of_mem (by omega) (by omega) (by omega), pieceOf,
        List.getElem?_take_of_lt (by omega), List.getElem?_drop]
      congr 1
      omega
    · rcases hp with hp | ⟨j, hj, hpj⟩
      · left
        rw [hc, getElem?_overlay_of_not_mem (by omega), hp]
      · rcases List.mem_cons.mp hj with rfl | hj
        · exact absurd hpj hin
        · exact .inr ⟨j, hj, hpj⟩

end Storage

/-- Positioned writes rebuild the content. The writes of each piece cover it
exactly, and writing every piece, in any order and with any repetitions, leaves
in each file its slice of the content. -/
theorem positioned_writes_rebuild {m : Metainfo} {platform : Platform} {base : PathBuf}
    {g : Geometry} {files : List MappedFile} (hg : Geometry.fromInfo m.info = .ok g)
    (hf : buildFileMap m platform base = .ok files) :
    (∀ i < g.numPieces, RegionWritten files (g.pieceOffset i) (g.pieceLengthOf i)) ∧
      ∀ (bytes : List UInt8) (handles : List (List UInt8)) (order : List Nat),
        bytes.length = g.totalLength →
        handles.map List.length = files.map MappedFile.length →
        (∀ i, i ∈ order ↔ i < g.numPieces) →
        ∃ st', Storage.writePieces ⟨g, files, handles⟩
            (order.map fun i => (i, Storage.pieceOf g bytes i)) = (.ok (), st') ∧
          st'.handles = files.map fun f => (bytes.drop f.offset).take f.length := by
  have hwf := Geometry.fromInfo_wellFormed hg
  obtain ⟨hc, hlt⟩ := buildFileMap_contiguous hf hg
  refine ⟨fun i hi => regionWritten_of_contiguous hc hlt (hwf.pieceOffset_add_le hi), ?_⟩
  intro bytes handles order hb hh horder
  have hst : Storage.WellFormed ⟨g, files, handles⟩ := ⟨hwf, hc, hlt, hh⟩
  obtain ⟨st', hw, hst', hg', hf', hp⟩ :=
    Storage.writePieces_content hst hb (fun i hi => (horder i).mp hi)
  refine ⟨st', hw, ?_⟩
  have hcontent : st'.content = bytes := by
    apply List.ext_getElem?
    intro p
    by_cases hlt : p < g.totalLength
    · obtain ⟨i, hi, hpi⟩ := hwf.exists_piece hlt
      exact hp p (.inr ⟨i, (horder i).mpr hi, hpi⟩)
    · have hl := hst'.length_content
      rw [hg'] at hl
      rw [List.getElem?_eq_none (by simp only at hl; omega), List.getElem?_eq_none (by omega)]
  rw [hst'.handles_eq, hf', hcontent]

/-- Two pieces over three files: the first piece straddles all of them. -/
def straddlingMetainfo : Metainfo where
  info :=
    { name := "t", pieceLength := 3, pieces := List.replicate 40 0, length := none,
      files := some [⟨2, ["a"]⟩, ⟨0, ["b"]⟩, ⟨3, ["c"]⟩] }

theorem positioned_writes_rebuild_straddling :
    ∃ st', Storage.writePieces
        ⟨⟨5, 3, 2, 2⟩, [⟨"/x/t/a", 2, 0⟩, ⟨"/x/t/b", 0, 2⟩, ⟨"/x/t/c", 3, 2⟩],
          [[0, 0], [], [0, 0, 0]]⟩
        [(1, [4, 5]), (0, [1, 2, 3]), (1, [4, 5])] = (.ok (), st') ∧
      st'.handles = [[1, 2], [], [3, 4, 5]] := by
  have hg : Geometry.fromInfo straddlingMetainfo.info = .ok ⟨5, 3, 2, 2⟩ := by decide
  have hf : buildFileMap straddlingMetainfo .unix "/x" =
      .ok [⟨"/x/t/a", 2, 0⟩, ⟨"/x/t/b", 0, 2⟩, ⟨"/x/t/c", 3, 2⟩] := by decide +kernel
  have horder : ∀ i, i ∈ [1, 0, 1] ↔ i < 2 := by
    intro i
    simp only [List.mem_cons, List.not_mem_nil, or_false]
    omega
  exact (positioned_writes_rebuild hg hf).2 [1, 2, 3, 4, 5] [[0, 0], [], [0, 0, 0]] [1, 0, 1]
    rfl rfl horder

end Torrentina.Disk
