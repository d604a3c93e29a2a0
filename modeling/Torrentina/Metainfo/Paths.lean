import Torrentina.Core.PathExact
import Torrentina.Metainfo.Types

/-!
# Where the files of a torrent go

Every name that `file_paths` pushes has been validated, so it is a plain one, and
the paths it returns are those names pushed one after another onto the download
directory. Whether they stay inside it is then a question about `push` alone.
-/

namespace Torrentina

open Torrentina.Core.Path

/-- Each file, in order: the torrent's name and the elements of its path, and its length. -/
def Metainfo.entries (m : Metainfo) : List (List String × UInt64) :=
  match m.info.layout with
  | .ok (.single length) => [([m.info.name], length)]
  | .ok (.multi files) => files.map fun f => (m.info.name :: f.path, f.length)
  | .error _ => []

/-- The names of every file begin with the torrent's. -/
theorem Metainfo.entries_head (m : Metainfo) {e : List String × UInt64} (he : e ∈ m.entries) :
    ∃ path, e.1 = m.info.name :: path := by
  unfold entries at he
  split at he
  · rw [List.mem_singleton.mp he]
    exact ⟨[], rfl⟩
  · obtain ⟨f, -, rfl⟩ := List.mem_map.mp he
    exact ⟨f.path, rfl⟩
  · cases he

/-- A component that passes the check is a plain name. -/
theorem validatePathComponent_eq_ok {component : String}
    (h : validatePathComponent component = .ok ()) : Plain component.toList := by
  rw [validatePathComponent] at h
  split at h
  · cases h
  · rename_i hc
    simp only [not_or] at hc
    obtain ⟨hempty, hdot, hdotdot, hslash, hback, -⟩ := hc
    refine ⟨?_, ?_, ?_, ?_⟩
    · simpa using hempty
    · exact fun he => hdot (String.toList_injective he)
    · exact fun he => hdotdot (String.toList_injective he)
    · intro c hc
      rw [winSep, Bool.or_eq_false_iff, beq_eq_false_iff_ne, beq_eq_false_iff_ne]
      exact ⟨fun he => hslash (he ▸ hc), fun he => hback (he ▸ hc)⟩

/-- Components that are joined have passed the check, and are pushed in order. -/
theorem joinComponents_eq_ok {platform : Platform} {p q : PathBuf} {es : List String}
    (h : joinComponents platform p es = .ok q) :
    (∀ e ∈ es, Plain e.toList) ∧ q = es.foldl (PathBuf.push platform) p := by
  induction es generalizing p with
  | nil => exact ⟨by simp, (Except.ok.inj h).symm⟩
  | cons e es ih =>
    obtain ⟨⟨⟩, he, h⟩ := bind_eq_ok_iff.mp h
    obtain ⟨hes, rfl⟩ := ih h
    exact ⟨List.forall_mem_cons.mpr ⟨validatePathComponent_eq_ok he, hes⟩, rfl⟩

/-- The name of a torrent with paths is plain. -/
theorem Metainfo.name_plain (m : Metainfo) {platform : Platform} {base : PathBuf}
    {ps : List (PathBuf × UInt64)} (h : m.filePaths platform base = .ok ps) :
    Plain m.info.name.toList := by
  obtain ⟨⟨⟩, hname, -⟩ := bind_eq_ok_iff.mp h
  exact validatePathComponent_eq_ok hname

/-- The returned paths are plain names pushed onto the download directory. -/
theorem Metainfo.filePaths_eq_ok {m : Metainfo} {platform : Platform} {base : PathBuf}
    {ps : List (PathBuf × UInt64)} (h : m.filePaths platform base = .ok ps) :
    (∀ file ∈ m.entries, file.1 ≠ [] ∧ ∀ e ∈ file.1, Plain e.toList) ∧
      ps = m.entries.map fun file => (file.1.foldl (PathBuf.push platform) base, file.2) := by
  obtain ⟨⟨⟩, hname, h⟩ := bind_eq_ok_iff.mp h
  have hname := validatePathComponent_eq_ok hname
  obtain ⟨layout, hl, h⟩ := bind_eq_ok_iff.mp h
  cases layout with
  | single length =>
    obtain rfl := Except.ok.inj h
    simp only [entries, hl]
    exact ⟨by simpa using hname, rfl⟩
  | multi files =>
    simp only [entries, hl]
    constructor
    · intro file hfile
      obtain ⟨f, hf, rfl⟩ := List.mem_map.mp hfile
      obtain ⟨b, hb⟩ := mapM_forall h f hf
      obtain ⟨p, hp, -⟩ := bind_eq_ok_iff.mp hb
      exact ⟨by simp, List.forall_mem_cons.mpr ⟨hname, (joinComponents_eq_ok hp).1⟩⟩
    · rw [List.map_map, ← List.map_id ps]
      apply mapM_map _ h
      intro f b hb
      obtain ⟨p, hp, hb⟩ := bind_eq_ok_iff.mp hb
      obtain rfl := Except.ok.inj hb
      obtain ⟨-, rfl⟩ := joinComponents_eq_ok hp
      rfl

/-- Pushing strings is pushing their characters. -/
theorem toList_foldl_push {platform : Platform} {base : PathBuf} {es : List String} :
    (es.foldl (PathBuf.push platform) base).toList =
      (es.map String.toList).foldl (Core.Path.push platform) base.toList := by
  induction es generalizing base with
  | nil => rfl
  | cons e es ih =>
    rw [List.foldl_cons, ih, PathBuf.push, String.toList_ofList]
    rfl

/-- The paths lie inside `base`: the components of each are those of `base` and
then the name of the torrent and the elements of the file's path, every one of
them an ordinary component. -/
def Metainfo.PathsInside (m : Metainfo) (platform : Platform) (base : PathBuf)
    (ps : List (PathBuf × UInt64)) : Prop :=
  ps.map (fun file => file.1.components platform) =
    m.entries.map fun file => base.components platform ++ file.1.map .normal

/-- The names of every file can be pushed onto `base` as ordinary components: none
carries a drive, and `base` does not stop inside a Windows prefix. -/
def Metainfo.PathsJoinable (m : Metainfo) (platform : Platform) (base : PathBuf) : Prop :=
  ∀ file ∈ m.entries, Joinable platform base.toList (file.1.map String.toList)

/-- Names pushed onto a path are read as further components, exactly when they
can be joined to it. -/
theorem components_foldl_pathBuf_push_iff {platform : Platform} {base : PathBuf} {es : List String}
    (hne : es ≠ []) (hes : ∀ e ∈ es, Plain e.toList) :
    (es.foldl (PathBuf.push platform) base).components platform =
        base.components platform ++ es.map .normal ↔
      Joinable platform base.toList (es.map String.toList) := by
  have hmap : (es.map String.toList).map asNormal = es.map .normal := by
    simp [asNormal]
  rw [← hmap, PathBuf.components, PathBuf.components, toList_foldl_push]
  exact components_foldl_push_iff (by simpa using hne) (by simpa using hes)

/-- The files of a torrent stay inside the download directory exactly when its
names can be joined to it. -/
theorem file_paths_inside_iff {m : Metainfo} {platform : Platform} {base : PathBuf}
    {ps : List (PathBuf × UInt64)} (h : m.filePaths platform base = .ok ps) :
    m.PathsInside platform base ps ↔ m.PathsJoinable platform base := by
  obtain ⟨hplain, rfl⟩ := Metainfo.filePaths_eq_ok h
  rw [Metainfo.PathsInside, List.map_map, List.map_inj_left]
  apply forall₂_congr
  intro file hfile
  obtain ⟨hne, hes⟩ := hplain file hfile
  exact components_foldl_pathBuf_push_iff hne hes

/-- A file whose path element is a drive and a name. -/
def driveMetainfo : Metainfo where
  info :=
    { name := "t", pieceLength := 1, pieces := List.replicate 20 0, length := none,
      files := some [⟨1, ["C:x"]⟩] }

/-- A name with a drive leads out of the base directory. -/
theorem driveMetainfo_filePaths :
    driveMetainfo.filePaths .windows "D:\\dl" = .ok [("C:x", 1)] := by
  decide +kernel

/-- On Windows the drive takes the place of the download directory. -/
theorem file_paths_leave_base :
    ∃ ps, driveMetainfo.filePaths .windows "D:\\dl" = .ok ps ∧
      ¬driveMetainfo.PathsInside .windows "D:\\dl" ps := by
  refine ⟨_, driveMetainfo_filePaths, ?_⟩
  unfold Metainfo.PathsInside
  decide +kernel

/-- The same file without the drive. -/
def drivelessMetainfo : Metainfo where
  info := { driveMetainfo.info with files := some [⟨1, ["x"]⟩] }

/-- Names without a drive stay inside the base directory. -/
theorem file_paths_inside_driveless :
    drivelessMetainfo.PathsInside .windows "D:\\dl" [("D:\\dl\\t\\x", 1)] := by
  have h : drivelessMetainfo.filePaths .windows "D:\\dl" = .ok [("D:\\dl\\t\\x", 1)] := by
    decide +kernel
  refine (file_paths_inside_iff h).mpr ?_
  intro file hfile
  obtain rfl := List.mem_singleton.mp hfile
  unfold Joinable
  decide +kernel

end Torrentina
