import Torrentina.Core.Overlay
import Torrentina.Download.Geometry

/-!
# The file map and the writes of a region

A torrent is one byte stream laid over files end to end. `mapRegion` cuts a
region of the stream at file boundaries. Its arithmetic is `u64` and wraps; the
file map is built with checked additions, so on the files it returns nothing
wraps and the cut region is covered exactly.
-/

namespace Torrentina.Disk

open Torrentina.Core Download

/-- One file in the torrent, placed at a global offset in the byte stream. -/
structure MappedFile where
  path : PathBuf
  length : Nat
  offset : Nat
  deriving DecidableEq, Repr

/-- A single positioned write. -/
structure WriteOp where
  fileIndex : Nat
  fileOffset : Nat
  srcStart : Nat
  len : Nat
  deriving DecidableEq, Repr

/-- The file table laid end to end from `offset`, with `checked_add` on the running offset. -/
def mapFiles (offset : Nat) : List (PathBuf × UInt64) → Except Error (List MappedFile)
  | [] => .ok []
  | (path, length) :: rest =>
    if offset + length.toNat < 2 ^ 64 then
      (mapFiles (offset + length.toNat) rest).map ({ path, length := length.toNat, offset } :: ·)
    else .error (.storage "total torrent size overflows u64")

/-- Build the file map of a torrent under `base`. -/
def buildFileMap (m : Metainfo) (platform : Platform) (base : PathBuf) :
    Except Error (List MappedFile) := do
  mapFiles 0 (← m.filePaths platform base)

/-- The write one file receives, if the region meets it. -/
def regionOp (globalOffset len : Nat) (file : MappedFile) (fileIndex : Nat) : Option WriteOp :=
  let regionEnd := (globalOffset + len) % 2 ^ 64
  let fileEnd := (file.offset + file.length) % 2 ^ 64
  let start := max globalOffset file.offset
  let stop := min regionEnd fileEnd
  if start ≥ stop then none
  else some
    { fileIndex
      fileOffset := start - file.offset
      srcStart := start - globalOffset
      len := stop - start }

/-- The per-file writes covering `[globalOffset, globalOffset + len)`. -/
def mapRegion (files : List MappedFile) (globalOffset len : Nat) : List WriteOp :=
  files.zipIdx.filterMap fun (file, fileIndex) => regionOp globalOffset len file fileIndex

/-! ## Files laid end to end -/

/-- Files that tile the stream from `o` to `e`, inside `u64`. -/
def Contiguous (o : Nat) : List MappedFile → Nat → Prop
  | [], e => o = e
  | f :: fs, e => f.offset = o ∧ o + f.length < 2 ^ 64 ∧ Contiguous (o + f.length) fs e

theorem Contiguous.le {fs : List MappedFile} {o e : Nat} (h : Contiguous o fs e) : o ≤ e := by
  induction fs generalizing o with
  | nil => exact Nat.le_of_eq h
  | cons f fs ih =>
    have := ih h.2.2
    omega

/-- Every file of a tiling lies inside it. -/
theorem Contiguous.mem {fs : List MappedFile} {o e : Nat} (h : Contiguous o fs e)
    {f : MappedFile} (hf : f ∈ fs) :
    o ≤ f.offset ∧ f.offset + f.length ≤ e ∧ f.offset + f.length < 2 ^ 64 := by
  induction fs generalizing o with
  | nil => simp at hf
  | cons f' fs ih =>
    obtain ⟨ho, hlt, hrest⟩ := h
    have hle := hrest.le
    rcases List.mem_cons.mp hf with rfl | hf
    · omega
    · have := ih hrest hf
      omega

theorem Contiguous.sum {fs : List MappedFile} {o e : Nat} (h : Contiguous o fs e) :
    o + (fs.map MappedFile.length).sum = e := by
  induction fs generalizing o with
  | nil => exact h
  | cons f fs ih =>
    have := ih h.2.2
    rw [List.map_cons, List.sum_cons]
    omega

/-- The checked running offset is the position every file begins at. -/
theorem mapFiles_contiguous {fs : List (PathBuf × UInt64)} {files : List MappedFile} {o : Nat}
    (h : mapFiles o fs = .ok files) :
    Contiguous o files (o + (fs.map fun f => f.2.toNat).sum) ∧
      (fs ≠ [] → o + (fs.map fun f => f.2.toNat).sum < 2 ^ 64) := by
  induction fs generalizing o files with
  | nil =>
    obtain rfl := (Except.ok.inj h).symm
    exact ⟨by simp [Contiguous], fun hne => absurd rfl hne⟩
  | cons f fs ih =>
    obtain ⟨path, length⟩ := f
    rw [mapFiles] at h
    split at h
    · rename_i hlt
      obtain ⟨files', hfs, rfl⟩ := map_eq_ok_iff.mp h
      obtain ⟨hc, hsum⟩ := ih hfs
      have hassoc : o + length.toNat + (fs.map fun f => f.2.toNat).sum =
          o + (((path, length) :: fs).map fun f => f.2.toNat).sum := by
        rw [List.map_cons, List.sum_cons, Nat.add_assoc]
      rw [hassoc] at hc hsum
      refine ⟨⟨rfl, hlt, hc⟩, fun _ => ?_⟩
      cases fs with
      | nil => simpa using hlt
      | cons f' fs' => exact hsum (by simp)
    · cases h

/-- The resolved files carry the lengths that `total_length` adds up. -/
theorem filePaths_totalLength {m : Metainfo} {platform : Platform} {base : PathBuf}
    {ps : List (PathBuf × UInt64)} (h : m.filePaths platform base = .ok ps) :
    m.info.totalLength = .ok ((ps.map Prod.snd).foldl (· + ·) 0) := by
  obtain ⟨-, -, h⟩ := bind_eq_ok_iff.mp h
  obtain ⟨layout, hl, h⟩ := bind_eq_ok_iff.mp h
  cases layout with
  | single length =>
    obtain rfl := Except.ok.inj h
    rw [Info.totalLength, hl]
    simp [bind, Except.bind]
  | multi files =>
    have hs : ps.map Prod.snd = files.map FileEntry.length := by
      apply mapM_map _ h
      intro f p hp
      obtain ⟨q, -, hq⟩ := bind_eq_ok_iff.mp hp
      obtain rfl := Except.ok.inj hq
      rfl
    rw [Info.totalLength, hl, hs, List.foldl_map]
    rfl

theorem toNat_foldl_add (l : List UInt64) (acc : UInt64) :
    (l.foldl (· + ·) acc).toNat = (acc.toNat + (l.map UInt64.toNat).sum) % 2 ^ 64 := by
  induction l generalizing acc with
  | nil =>
    have := acc.toNat_lt
    simp only [List.foldl_nil, List.map_nil, List.sum_nil, Nat.add_zero]
    omega
  | cons x xs ih =>
    rw [List.foldl_cons, ih, List.map_cons, List.sum_cons, UInt64.toNat_add]
    omega

/-- The file map of a torrent tiles exactly the content its geometry describes. -/
theorem buildFileMap_contiguous {m : Metainfo} {platform : Platform} {base : PathBuf}
    {files : List MappedFile} {g : Geometry} (hf : buildFileMap m platform base = .ok files)
    (hg : Geometry.fromInfo m.info = .ok g) : Contiguous 0 files g.totalLength ∧
      g.totalLength < 2 ^ 64 := by
  obtain ⟨ps, hps, hf⟩ := bind_eq_ok_iff.mp hf
  obtain ⟨⟨total, ht, htotal⟩, -⟩ := Geometry.fromInfo_eq_ok hg
  obtain ⟨hc, hsum⟩ := mapFiles_contiguous hf
  have hlt : (ps.map fun f => f.2.toNat).sum < 2 ^ 64 := by
    cases ps with
    | nil => simp
    | cons p ps => simpa using hsum (by simp)
  obtain rfl := Except.ok.inj (ht.symm.trans (filePaths_totalLength hps))
  have he : g.totalLength = (ps.map fun f => f.2.toNat).sum := by
    rw [htotal, toNat_foldl_add, List.map_map]
    simp only [UInt64.toNat_zero, Nat.zero_add, Function.comp_def]
    exact Nat.mod_eq_of_lt hlt
  rw [Nat.zero_add] at hc
  exact ⟨he ▸ hc, he ▸ hlt⟩

end Torrentina.Disk
