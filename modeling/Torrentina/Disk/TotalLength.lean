import Torrentina.Disk.FileMap
import Torrentina.Download.Coordinator
import Torrentina.Download.Tiling

/-!
# The declared total

The lengths of an untrusted file list are added up twice: `total_length` takes a
plain `u64` sum, which a release build wraps and a debug build panics on, and the
file map takes a checked one. They agree where the lengths fit together into
`u64`; elsewhere the plain sum is smaller than what the list declares, and a
geometry is built from it.
-/

namespace Torrentina

open Disk Download

/-- `+` on `u64` as a debug build computes it. -/
def addDebug (a b : UInt64) : Except Fault UInt64 :=
  if a.toNat + b.toNat < 2 ^ 64 then .ok (a + b) else .error .panic

/-- `Info::total_length` as a debug build computes it. -/
def Info.totalLengthDebug (info : Info) : Except Fault UInt64 := do
  match ← info.layout.mapError Fault.error with
  | .single length => .ok length
  | .multi files => files.foldlM (fun acc f => addDebug acc f.length) 0

/-- Where the last file ends: the running offset after the last file. -/
def Disk.lastOffset (files : List MappedFile) : Nat :=
  (files.getLast?.map fun f => f.offset + f.length).getD 0

/-- Declared sizes are not wrapped: the total is the sum of the file lengths in either
build, and so is the total of a geometry, of a coordinator, and of a file map. -/
structure Info.SizesExact (info : Info) : Prop where
  total : ∀ total, info.totalLength = .ok total →
    ∃ layout, info.layout = .ok layout ∧ total.toNat = layout.bytes
  debug : info.totalLengthDebug = info.totalLength.mapError Fault.error
  geometry : ∀ g, Geometry.fromInfo info = .ok g →
    ∃ layout, info.layout = .ok layout ∧ g.totalLength = layout.bytes
  coordinator : ∀ infoHash peerId c, Coordinator.new info infoHash peerId = .ok c →
    ∃ layout, info.layout = .ok layout ∧ c.geometry.totalLength = layout.bytes
  fileMap : ∀ g platform base files, Geometry.fromInfo info = .ok g →
    buildFileMap ⟨info⟩ platform base = .ok files → lastOffset files = g.totalLength

theorem Disk.Contiguous.lastOffset {fs : List MappedFile} {o e : Nat} (h : Contiguous o fs e)
    (hne : fs ≠ []) : lastOffset fs = e := by
  induction fs generalizing o with
  | nil => exact absurd rfl hne
  | cons f fs ih =>
    obtain ⟨ho, -, hrest⟩ := h
    cases fs with
    | nil =>
      change f.offset + f.length = e
      rw [ho]
      exact hrest
    | cons f' fs =>
      rw [Disk.lastOffset, List.getLast?_cons_cons]
      exact ih hrest (List.cons_ne_nil f' fs)

/-- The checked sum is the plain one where it fits. -/
theorem foldlM_addDebug {files : List FileEntry} (acc : UInt64)
    (h : acc.toNat + (files.map fun f => f.length.toNat).sum < 2 ^ 64) :
    files.foldlM (fun acc f => addDebug acc f.length) acc =
      .ok (files.foldl (fun acc f => acc + f.length) acc) := by
  induction files generalizing acc with
  | nil => rfl
  | cons f files ih =>
    rw [List.map_cons, List.sum_cons] at h
    have hfit : acc.toNat + f.length.toNat < 2 ^ 64 := by omega
    have hacc : (acc + f.length).toNat = acc.toNat + f.length.toNat := by
      rw [UInt64.toNat_add, Nat.mod_eq_of_lt hfit]
    rw [List.foldlM_cons, addDebug, if_pos hfit]
    exact ih (acc + f.length) (by omega)

/-- A valid layout has a total, whatever its lengths. -/
theorem Info.exists_totalLength {info : Info} {layout : FileLayout}
    (h : info.layout = .ok layout) : ∃ total, info.totalLength = .ok total := by
  rw [totalLength, h]
  cases layout with
  | single length => exact ⟨length, rfl⟩
  | multi files => exact ⟨_, rfl⟩

section Fits

variable {info : Info} (hsum : ∀ layout, info.layout = .ok layout → layout.bytes < 2 ^ 64)
include hsum

theorem Info.totalLengthDebug_eq :
    info.totalLengthDebug = info.totalLength.mapError Fault.error := by
  rw [totalLengthDebug, totalLength]
  cases hl : info.layout with
  | error e => rfl
  | ok layout =>
    cases layout with
    | single length => rfl
    | multi files =>
      refine foldlM_addDebug 0 ?_
      have hfit := hsum _ hl
      rw [FileLayout.bytes] at hfit
      rwa [UInt64.toNat_zero, Nat.zero_add]

theorem Download.Geometry.totalLength_eq_bytes {g : Geometry}
    (hg : Geometry.fromInfo info = .ok g) :
    ∃ layout, info.layout = .ok layout ∧ g.totalLength = layout.bytes := by
  obtain ⟨⟨total, ht, hgt⟩, -⟩ := Geometry.fromInfo_eq_ok hg
  obtain ⟨layout, hl, hbytes⟩ := (Info.totalLength_eq_ok_iff hsum).mp ht
  exact ⟨layout, hl, hgt.trans hbytes.symm⟩

end Fits

/-- The file map of an accepted torrent is not empty, and ends where the geometry does. -/
theorem Disk.lastOffset_eq_totalLength {info : Info} {g : Geometry} {platform : Platform}
    {base : PathBuf} {files : List MappedFile} (hg : Geometry.fromInfo info = .ok g)
    (hf : buildFileMap ⟨info⟩ platform base = .ok files) : lastOffset files = g.totalLength := by
  have hc := (buildFileMap_contiguous hf hg).1
  apply hc.lastOffset
  rintro rfl
  have hwf := Geometry.fromInfo_wellFormed hg
  have hzero : 0 = g.totalLength := hc
  have htotal := hwf.total_eq
  have hlast := hwf.last_pos
  omega

/-- Declared sizes are exact just when they add up to a `u64`. -/
theorem total_length_exact_iff (info : Info) :
    info.SizesExact ↔ ∀ layout, info.layout = .ok layout → layout.bytes < 2 ^ 64 := by
  constructor
  · intro h layout hl
    obtain ⟨total, ht⟩ := Info.exists_totalLength hl
    obtain ⟨layout', hl', hbytes⟩ := h.total total ht
    obtain rfl := Except.ok.inj (hl.symm.trans hl')
    rw [← hbytes]
    exact total.toNat_lt
  · intro hsum
    refine ⟨fun total ht => ?_, Info.totalLengthDebug_eq hsum,
      fun g hg => Geometry.totalLength_eq_bytes hsum hg, fun infoHash peerId c hc => ?_,
      fun g platform base files hg hf => lastOffset_eq_totalLength hg hf⟩
    · obtain ⟨layout, hl, hbytes⟩ := (Info.totalLength_eq_ok_iff hsum).mp ht
      exact ⟨layout, hl, hbytes.symm⟩
    · exact Geometry.totalLength_eq_bytes hsum (Coordinator.new_eq_ok hc).1

/-- Two files whose lengths add up to one more than `u64` holds. -/
def wrappedInfo : Info where
  name := "t"
  pieceLength := 1
  pieces := List.replicate 20 0
  length := none
  files := some [⟨18446744073709551615, ["a"]⟩, ⟨2, ["b"]⟩]

/-- A torrent of one byte is made of them in a release build; a debug build panics. -/
theorem total_length_wraps : wrappedInfo.totalLength = .ok 1 ∧
    wrappedInfo.totalLengthDebug = .error .panic ∧
    Geometry.fromInfo wrappedInfo = .ok ⟨1, 1, 1, 1⟩ ∧ ¬ wrappedInfo.SizesExact := by
  refine ⟨by decide, by decide, by decide, fun h => ?_⟩
  obtain ⟨layout, hl, hbytes⟩ := h.total 1 (by decide)
  obtain rfl := Except.ok.inj hl
  revert hbytes
  decide

end Torrentina
