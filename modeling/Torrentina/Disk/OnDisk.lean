import Torrentina.Disk.Separate

/-!
# Storage over the files of a disk

`Storage` holds the bytes of its own files. On a disk the handles are the files
themselves: the writes of one incarnation of the program are there for the next one.
When no two files of the torrent share a path, a write on the disk is the same write
on the handles, and every other file of the disk stays as it is.
-/

namespace Torrentina.Disk

open Torrentina.Core Download

namespace FileSystem

/-- The bytes of a mapped file. -/
def read (platform : Platform) (disk : FileSystem) (file : MappedFile) : List UInt8 :=
  disk (file.path.components platform)

/-- The storage whose handles are the files of the disk. -/
def opened (platform : Platform) (disk : FileSystem) (g : Geometry) (files : List MappedFile) :
    Storage :=
  ⟨g, files, files.map (disk.read platform)⟩

/-- Seek to the operation's offset and write its part of the data. -/
def applyOp (platform : Platform) (files : List MappedFile) (data : List UInt8)
    (disk : FileSystem) (op : WriteOp) : FileSystem :=
  match files[op.fileIndex]? with
  | some file => Function.update disk (file.path.components platform)
      (writeAt 0 (disk.read platform file) op.fileOffset ((data.drop op.srcStart).take op.len))
  | none => disk

/-- The writes of a region, in order. -/
def writeRegion (platform : Platform) (files : List MappedFile) (globalOffset : Nat)
    (data : List UInt8) (disk : FileSystem) : FileSystem :=
  (mapRegion files globalOffset data.length).foldl (applyOp platform files data) disk

/-- `Storage::write_piece`: the result, and the disk after the writes. -/
def writePiece (platform : Platform) (disk : FileSystem) (g : Geometry) (files : List MappedFile)
    (index : Nat) (data : List UInt8) : Except Error Unit × FileSystem :=
  let disk' := disk.writeRegion platform files (g.pieceOffset index) data
  let covered := ((mapRegion files (g.pieceOffset index) data.length).map WriteOp.len).sum
  if covered ≠ data.length then
    (.error (.storage s!"piece {index} mapped {covered} of {data.length} bytes to files"), disk')
  else (.ok (), disk')

end FileSystem

/-- No two files of the list share a path. -/
def PathsDiffer (platform : Platform) (files : List MappedFile) : Prop :=
  files.Pairwise fun f f' => f.path.components platform ≠ f'.path.components platform

theorem PathsDiffer.ne {platform : Platform} {files : List MappedFile} {i j : Nat}
    {f f' : MappedFile} (h : PathsDiffer platform files) (hij : i ≠ j) (hf : files[i]? = some f)
    (hf' : files[j]? = some f') : f.path.components platform ≠ f'.path.components platform := by
  obtain ⟨hi, rfl⟩ := List.getElem?_eq_some_iff.mp hf
  obtain ⟨hj, rfl⟩ := List.getElem?_eq_some_iff.mp hf'
  have hall := List.pairwise_iff_getElem.mp h
  rcases Nat.lt_or_gt_of_ne hij with hlt | hlt
  · exact hall i j hi hj hlt
  · exact (hall j i hj hi hlt).symm

/-- Every file has its declared length. -/
def Sized (platform : Platform) (files : List MappedFile) (disk : FileSystem) : Prop :=
  ∀ file ∈ files, (disk.read platform file).length = file.length

section Frame

variable {platform : Platform} {files : List MappedFile} {disk : FileSystem}
  {path : List Path.Component}

/-- Setting the length of a file leaves every other file as it is. -/
theorem preallocate_of_ne {file : MappedFile} (h : file.path.components platform ≠ path) :
    disk.preallocate platform file path = disk path :=
  Function.update_of_ne h.symm _ _

/-- A file that has its length keeps its bytes when it is opened again. -/
theorem preallocate_of_sized {file : MappedFile}
    (h : (disk.read platform file).length = file.length) :
    disk.preallocate platform file = disk := by
  have hset : Storage.setLen (disk.read platform file) file.length = disk.read platform file := by
    rw [Storage.setLen, ← h, List.take_length, Nat.sub_self, List.replicate_zero, List.append_nil]
  exact Function.update_eq_self_iff.mpr hset

/-- An opened file has its declared length. -/
theorem length_preallocate (file : MappedFile) :
    ((disk.preallocate platform file).read platform file).length = file.length := by
  rw [FileSystem.read, FileSystem.preallocate, Function.update_self, Storage.setLen,
    List.length_append, List.length_take, List.length_replicate]
  omega

/-- A write leaves every path that is not one of the files as it is. -/
theorem writeRegion_of_notMem (h : ∀ file ∈ files, file.path.components platform ≠ path)
    (globalOffset : Nat) (data : List UInt8) :
    disk.writeRegion platform files globalOffset data path = disk path := by
  unfold FileSystem.writeRegion
  generalize mapRegion files globalOffset data.length = ops
  induction ops generalizing disk with
  | nil => rfl
  | cons op ops ih =>
    rw [List.foldl_cons, ih, FileSystem.applyOp]
    cases hf : files[op.fileIndex]? with
    | none => rfl
    | some file => exact Function.update_of_ne (h file (List.mem_of_getElem? hf)).symm _ _

end Frame

section Writes

variable {platform : Platform} {files : List MappedFile} {disk : FileSystem} {g : Geometry}
  {data : List UInt8}

/-- One write on the disk is the same write on the handles. -/
theorem map_read_applyOp (h : PathsDiffer platform files) (op : WriteOp) :
    files.map ((disk.applyOp platform files data op).read platform) =
      Storage.applyOp data (files.map (disk.read platform)) op := by
  refine List.ext_getElem? fun j => ?_
  rw [Storage.applyOp, List.getElem?_modify, List.getElem?_map, List.getElem?_map]
  cases hj : files[j]? with
  | none => rfl
  | some f =>
    rw [Option.map_some, Option.map_some, Option.map_eq_map, Option.map_some, FileSystem.applyOp]
    by_cases hij : op.fileIndex = j
    · rw [if_pos hij, hij, hj]
      exact congrArg some (Function.update_self ..)
    · rw [if_neg hij]
      cases hi : files[op.fileIndex]? with
      | none => rfl
      | some file => exact congrArg some (Function.update_of_ne (h.ne hij hi hj).symm _ _)

/-- The writes of a region are the same writes on the handles. -/
theorem map_read_writeRegion (h : PathsDiffer platform files) (disk : FileSystem)
    (globalOffset : Nat) (data : List UInt8) :
    files.map ((disk.writeRegion platform files globalOffset data).read platform) =
      (mapRegion files globalOffset data.length).foldl (Storage.applyOp data)
        (files.map (disk.read platform)) := by
  unfold FileSystem.writeRegion
  generalize mapRegion files globalOffset data.length = ops
  induction ops generalizing disk with
  | nil => rfl
  | cons op ops ih => rw [List.foldl_cons, ih, map_read_applyOp h, List.foldl_cons]

/-- Writing a piece on the disk is writing it on the opened storage. -/
theorem writePiece_opened (h : PathsDiffer platform files) (index : Nat) :
    (disk.opened platform g files).writePiece index data =
      ((disk.writePiece platform g files index data).1,
        (disk.writePiece platform g files index data).2.opened platform g files) := by
  have hhandles := map_read_writeRegion h disk (g.pieceOffset index) data
  unfold FileSystem.writePiece Storage.writePiece FileSystem.opened
  simp only [← hhandles]
  split <;> rfl

/-- The writes of a region inside the torrent refine one write on the content. -/
theorem writeRegion_content (h : PathsDiffer platform files)
    (hst : (disk.opened platform g files).WellFormed) {globalOffset : Nat} {data : List UInt8}
    (hle : globalOffset + data.length ≤ g.totalLength) :
    ((disk.writeRegion platform files globalOffset data).opened platform g files).WellFormed ∧
      ((disk.writeRegion platform files globalOffset data).opened platform g files).content =
        overlay 0 globalOffset data (disk.opened platform g files).content := by
  have hlt : g.totalLength < 2 ^ 64 := hst.total_lt
  have hhandles : files.map ((disk.writeRegion platform files globalOffset data).read platform) =
      overlayAll globalOffset data 0 (files.map (disk.read platform)) := by
    rw [map_read_writeRegion h]
    exact foldl_applyOp (by omega) rfl hst.contiguous hst.lengths []
  have hopened : (disk.writeRegion platform files globalOffset data).opened platform g files =
      ⟨g, files, overlayAll globalOffset data 0 (files.map (disk.read platform))⟩ := by
    rw [FileSystem.opened, hhandles]
  rw [hopened]
  refine ⟨⟨hst.geometry, hst.contiguous, hst.total_lt, ?_⟩, ?_⟩
  · simp only [map_length_overlayAll]
    exact hst.lengths
  · rw [Storage.content, flatten_overlayAll]
    rfl

/-- The storage over files of their declared lengths is well formed. -/
theorem opened_wellFormed {m : Metainfo} {base : PathBuf} (hg : Geometry.fromInfo m.info = .ok g)
    (hf : buildFileMap m platform base = .ok files) (hs : Sized platform files disk) :
    (disk.opened platform g files).WellFormed := by
  obtain ⟨hc, hlt⟩ := buildFileMap_contiguous hf hg
  refine ⟨Geometry.fromInfo_wellFormed hg, hc, hlt, ?_⟩
  show (files.map (disk.read platform)).map List.length = files.map MappedFile.length
  rw [List.map_map]
  exact List.map_congr_left hs

/-- The lengths of the handles are those of the files exactly when the files have their
declared ones. -/
theorem sized_of_wellFormed (h : (disk.opened platform g files).WellFormed) :
    Sized platform files disk := by
  have hl : (files.map (disk.read platform)).map List.length = files.map MappedFile.length :=
    h.lengths
  rw [List.map_map] at hl
  exact List.map_inj_left.mp hl

end Writes

end Torrentina.Disk
