import Torrentina.Core.PathDistinct
import Torrentina.Disk.Storage
import Torrentina.Metainfo.Paths

/-!
# Files that do not share a path

Storage opens one handle for each mapped file and takes the files for disjoint
pieces of disk. That is right when no file shares the path of a file that holds
bytes; an empty file counts, since opening it sets its length too. Nothing checks
it: it holds exactly when the names of those files lead to different components.
-/

namespace Torrentina.Disk

open Torrentina.Core

/-- The files of a disk by their components, as far as bytes are concerned. -/
abbrev FileSystem := List Path.Component → List UInt8

/-- Open a file and set its length, as `Storage::create` does. -/
def FileSystem.preallocate (platform : Platform) (disk : FileSystem) (file : MappedFile) :
    FileSystem :=
  Function.update disk (file.path.components platform)
    (Storage.setLen (disk (file.path.components platform)) file.length)

/-- The paths of two files differ, if both hold bytes. -/
def MappedFile.Distinct (platform : Platform) (f g : MappedFile) : Prop :=
  0 < f.length → 0 < g.length → f.path.components platform ≠ g.path.components platform

/-- The paths of two files differ, if one of them holds bytes. -/
def MappedFile.Apart (platform : Platform) (f g : MappedFile) : Prop :=
  0 < f.length ∨ 0 < g.length → f.path.components platform ≠ g.path.components platform

/-- No two files that hold bytes share a path, writes of regions that do not overlap never meet
on disk, and preallocating a file leaves every other file that holds bytes as it is. -/
structure Separate (platform : Platform) (files : List MappedFile) : Prop where
  paths : files.Pairwise (MappedFile.Distinct platform)
  regions : ∀ {a m b n : Nat}, a + m ≤ b → b + n < 2 ^ 64 →
    ∀ op ∈ mapRegion files a m, ∀ op' ∈ mapRegion files b n, ∀ f f',
      files[op.fileIndex]? = some f → files[op'.fileIndex]? = some f' →
      f.path.components platform = f'.path.components platform →
      op.fileOffset + op.len ≤ op'.fileOffset
  preallocation : ∀ (disk : FileSystem) (i j : Nat) f g, i ≠ j → files[i]? = some f →
    files[j]? = some g → 0 < g.length →
    disk.preallocate platform f (g.path.components platform) = disk (g.path.components platform)

/-- Two files of a list whose paths are apart. -/
theorem apart_of_getElem? {platform : Platform} {files : List MappedFile} {i j : Nat}
    {f g : MappedFile} (h : files.Pairwise (MappedFile.Apart platform)) (hij : i ≠ j)
    (hf : files[i]? = some f) (hg : files[j]? = some g) : f.Apart platform g := by
  obtain ⟨hi, rfl⟩ := List.getElem?_eq_some_iff.mp hf
  obtain ⟨hj, rfl⟩ := List.getElem?_eq_some_iff.mp hg
  rw [List.pairwise_iff_getElem] at h
  rcases Nat.lt_or_gt_of_ne hij with hlt | hlt
  · exact h i j hi hj hlt
  · intro hpos heq
    exact h j i hj hi hlt hpos.symm heq.symm

theorem len_pos_of_mem_mapRegion {files : List MappedFile} {a len : Nat} {op : WriteOp}
    (h : op ∈ mapRegion files a len) : 0 < op.len := by
  obtain ⟨⟨f, i⟩, -, hop⟩ := List.mem_filterMap.mp h
  simp only [regionOp] at hop
  split at hop
  · cases hop
  · rename_i hlt
    obtain rfl := Option.some.inj hop
    exact Nat.sub_pos_of_lt (Nat.lt_of_not_le hlt)

/-- Paths that are apart keep regions and preallocations apart. -/
theorem Separate.of_paths {platform : Platform} {files : List MappedFile} {total : Nat}
    (hc : Contiguous 0 files total) (h : files.Pairwise (MappedFile.Apart platform)) :
    Separate platform files := by
  refine ⟨h.imp fun hfg hpf _ => hfg (.inl hpf), ?_, ?_⟩
  · intro a m b n hab hbn op hop op' hop' f f' hf hf' heq
    have hpos := len_pos_of_mem_mapRegion hop
    have hpos' := len_pos_of_mem_mapRegion hop'
    obtain ⟨g, hg, hin, hoff, hlen⟩ := mapRegion_inside (by omega) hc hop
    obtain ⟨g', hg', hin', hoff', hlen'⟩ := mapRegion_inside hbn hc hop'
    obtain rfl := Option.some.inj (hf.symm.trans hg)
    obtain rfl := Option.some.inj (hf'.symm.trans hg')
    by_cases hij : op.fileIndex = op'.fileIndex
    · rw [hij] at hf
      obtain rfl := Option.some.inj (hf.symm.trans hf')
      omega
    · exact absurd heq (apart_of_getElem? h hij hf hf' (.inl (by omega)))
  · intro disk i j f g hij hf hg hpg
    apply Function.update_of_ne
    intro heq
    exact apart_of_getElem? h hij hf hg (.inr hpg) heq.symm

/-- An empty file under the path of one that holds bytes would empty it. -/
theorem Separate.path_ne {platform : Platform} {files : List MappedFile}
    (h : Separate platform files) {i j : Nat} {f g : MappedFile} (hij : i ≠ j)
    (hf : files[i]? = some f) (hg : files[j]? = some g) (hempty : f.length = 0)
    (hpos : 0 < g.length) : f.path.components platform ≠ g.path.components platform := by
  intro heq
  have hkeep := h.preallocation (fun _ => [0]) i j f g hij hf hg hpos
  rw [FileSystem.preallocate, heq, Function.update_self, Storage.setLen, hempty] at hkeep
  cases hkeep

/-- Files that are separate have their paths apart. -/
theorem Separate.apart {platform : Platform} {files : List MappedFile}
    (h : Separate platform files) : files.Pairwise (MappedFile.Apart platform) := by
  rw [List.pairwise_iff_getElem]
  intro i j hi hj hij hpos
  have hf := List.getElem?_eq_getElem hi
  have hg := List.getElem?_eq_getElem hj
  rcases Nat.eq_zero_or_pos files[i].length with hzf | hpf
  · exact h.path_ne (Nat.ne_of_lt hij) hf hg hzf (hpos.resolve_left (by omega))
  · rcases Nat.eq_zero_or_pos files[j].length with hzg | hpg
    · exact (h.path_ne (Nat.ne_of_gt hij) hg hf hzg hpf).symm
    · exact List.pairwise_iff_getElem.mp h.paths i j hi hj hij hpf hpg

/-! ## The condition on the torrent -/

theorem mapFiles_eq_ok {ps : List (PathBuf × UInt64)} {files : List MappedFile} {o : Nat}
    (h : mapFiles o ps = .ok files) :
    files.map (fun f => (f.path, f.length)) = ps.map fun p => (p.1, p.2.toNat) := by
  induction ps generalizing o files with
  | nil =>
    obtain rfl := Except.ok.inj h
    rfl
  | cons p ps ih =>
    rw [mapFiles] at h
    split at h
    · obtain ⟨files', hfs, rfl⟩ := map_eq_ok_iff.mp h
      rw [List.map_cons, List.map_cons, ih hfs]
    · cases h

/-- The names of two files lead to different components, if one of them holds bytes. -/
def LeadApart (platform : Platform) (base : PathBuf) (e f : List String × UInt64) : Prop :=
  0 < e.2.toNat ∨ 0 < f.2.toNat →
    Path.landing platform base.toList (e.1.map String.toList) ≠
      Path.landing platform base.toList (f.1.map String.toList)

/-- On Unix names lead apart as soon as they differ. -/
theorem leadApart_unix_iff {m : Metainfo} {base : PathBuf} {ps : List (PathBuf × UInt64)}
    (h : m.filePaths .unix base = .ok ps) {e f : List String × UInt64} (he : e ∈ m.entries)
    (hf : f ∈ m.entries) :
    LeadApart .unix base e f ↔ (0 < e.2.toNat ∨ 0 < f.2.toNat → e.1 ≠ f.1) := by
  have happ : ∀ g ∈ m.entries, Path.Appended .unix (g.1.map String.toList) := by
    intro g hg n hn
    obtain ⟨c, hc, rfl⟩ := List.mem_map.mp hn
    exact ⟨((Metainfo.filePaths_eq_ok h).1 g hg).2 c hc, rfl⟩
  have hinj : Function.Injective (List.map String.toList) :=
    List.map_injective_iff.mpr fun _ _ => String.toList_injective
  simp only [LeadApart, ne_eq, Path.landing_eq_iff_of_appended (happ e he) (happ f hf),
    hinj.eq_iff]

theorem separate_iff_leadApart {m : Metainfo} {platform : Platform} {base : PathBuf}
    {files : List MappedFile} (h : buildFileMap m platform base = .ok files) :
    Separate platform files ↔ m.entries.Pairwise (LeadApart platform base) := by
  obtain ⟨ps, hps, hmap⟩ := bind_eq_ok_iff.mp h
  obtain ⟨hplain, rfl⟩ := Metainfo.filePaths_eq_ok hps
  have hpairs := mapFiles_eq_ok hmap
  rw [List.map_map] at hpairs
  have hpaths : Separate platform files ↔ files.Pairwise (MappedFile.Apart platform) :=
    ⟨Separate.apart, Separate.of_paths (mapFiles_contiguous hmap).1⟩
  have hiff : files.Pairwise (MappedFile.Apart platform) ↔
      (files.map fun f => (f.path, f.length)).Pairwise fun p q => 0 < p.2 ∨ 0 < q.2 →
        p.1.components platform ≠ q.1.components platform := by
    rw [List.pairwise_map]
    rfl
  rw [hpaths, hiff, hpairs, List.pairwise_map]
  apply List.Pairwise.iff_of_mem
  intro e f he hf
  have hchars : ∀ g ∈ m.entries, ∀ n ∈ g.1.map String.toList, Path.Plain n := by
    intro g hg
    simpa using (hplain g hg).2
  have hlands := @Path.foldl_push_eq_iff platform base.toList _ _ (hchars e he)
    (hchars f hf)
  simp only [LeadApart, Function.comp_apply, PathBuf.components, toList_foldl_push, ne_eq, hlands]

/-- The files are separate exactly when no two of them, one of which holds bytes, have names
that lead to the same components. On Unix that is to say the same names. -/
theorem files_separate_iff {m : Metainfo} {platform : Platform} {base : PathBuf}
    {files : List MappedFile} (h : buildFileMap m platform base = .ok files) :
    (Separate platform files ↔ m.entries.Pairwise (LeadApart platform base)) ∧
      (platform = .unix → (Separate platform files ↔
        m.entries.Pairwise fun e f => 0 < e.2.toNat ∨ 0 < f.2.toNat → e.1 ≠ f.1)) := by
  refine ⟨separate_iff_leadApart h, ?_⟩
  rintro rfl
  obtain ⟨ps, hps, -⟩ := bind_eq_ok_iff.mp h
  rw [separate_iff_leadApart h]
  exact List.Pairwise.iff_of_mem (leadApart_unix_iff hps)

/-- Two files of one byte each under one path. -/
def twinMetainfo : Metainfo where
  info :=
    { name := "t", pieceLength := 1, pieces := List.replicate 40 0, length := none,
      files := some [⟨1, ["a"]⟩, ⟨1, ["a"]⟩] }

/-- Both bytes of the torrent are written to the same byte on disk. -/
theorem files_share_path :
    ∃ files, buildFileMap twinMetainfo .unix "/dl" = .ok files ∧ ¬Separate .unix files := by
  refine ⟨[⟨"/dl/t/a", 1, 0⟩, ⟨"/dl/t/a", 1, 1⟩], by decide +kernel, ?_⟩
  intro h
  have hpaths := h.paths
  unfold MappedFile.Distinct at hpaths
  revert hpaths
  decide +kernel

theorem files_separate_straddling :
    Separate .unix [⟨"/x/t/a", 2, 0⟩, ⟨"/x/t/b", 0, 2⟩, ⟨"/x/t/c", 3, 2⟩] := by
  have h : buildFileMap straddlingMetainfo .unix "/x" =
      .ok [⟨"/x/t/a", 2, 0⟩, ⟨"/x/t/b", 0, 2⟩, ⟨"/x/t/c", 3, 2⟩] := by decide +kernel
  exact ((files_separate_iff h).2 rfl).mpr (by decide +kernel)

end Torrentina.Disk
