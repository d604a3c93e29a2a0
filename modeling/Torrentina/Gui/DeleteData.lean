import Torrentina.Core.FileTree
import Torrentina.Gui.Record

/-!
# Deleting the data of a torrent

`delete_data` removes the directory of a torrent of several files with all that
is in it, and the file of a torrent of one file. Both come from the name the
author of the torrent chose and the output directory, so the data of another
torrent, or a file of no torrent, may be there as well.
-/

namespace Torrentina.Gui

open Torrentina.Core

/-- Where paths lead on a file system without links. A name is looked up below
what comes before it; `key` is how the file system tells names apart. -/
structure Lookup (κ : Type) where
  locate : List Path.Component → List κ
  key : String → κ
  locate_normal : ∀ cs name, locate (cs ++ [.normal name]) = locate cs ++ [key name]

/-- The location a path leads to. -/
def Lookup.at {κ : Type} (lookup : Lookup κ) (platform : Platform) (p : PathBuf) : List κ :=
  lookup.locate (p.components platform)

theorem Lookup.locate_append {κ : Type} (lookup : Lookup κ) (cs : List Path.Component)
    (names : List String) :
    lookup.locate (cs ++ names.map .normal) = lookup.locate cs ++ names.map lookup.key := by
  induction names generalizing cs with
  | nil => rw [List.map_nil, List.map_nil, List.append_nil, List.append_nil]
  | cons n ns ih =>
    rw [List.map_cons, List.append_cons, ih, lookup.locate_normal, List.append_assoc,
      List.map_cons, List.singleton_append]

variable {κ : Type} [DecidableEq κ] {lookup : Lookup κ} {platform : Platform}

/-- Delete the on-disk data of a torrent. -/
def deleteData (lookup : Lookup κ) (platform : Platform) (record : Record) (tree : FileTree κ) :
    FileTree κ :=
  match record.root with
  | some root => tree.removeDirAll (lookup.at platform root)
  | none => tree.removeFiles (record.files.map (lookup.at platform))

/-- Deleting the data of one torrent removes no file of the other, and only files of its own. -/
structure DeletesOwnFiles (lookup : Lookup κ) (platform : Platform) (tree : FileTree κ)
    (deleted other : Record) : Prop where
  spares : ∀ p ∈ other.files, tree (lookup.at platform p) = true →
    deleteData lookup platform deleted tree (lookup.at platform p) = true
  own : ∀ l, tree l = true → deleteData lookup platform deleted tree l = false →
    ∃ p ∈ deleted.files, lookup.at platform p = l

/-- Where the file of an entry goes. -/
def place (lookup : Lookup κ) (platform : Platform) (output : PathBuf)
    (entry : List String × UInt64) : List κ :=
  lookup.at platform (filePath platform output entry)

/-- The place of the torrent holds nothing else. For several files: its directory
holds no file of the other torrent, and none but its own, unless a file stands
where the directory would be. For one file: no file of the other goes there. -/
def PlaceApart (lookup : Lookup κ) (platform : Platform) (tree : FileTree κ) (m : Metainfo)
    (output : PathBuf) (m' : Metainfo) (output' : PathBuf) : Prop :=
  if m.info.files.isSome then
    let dir := lookup.at platform (output.push platform m.info.name)
    tree dir = true ∨
      (∀ e ∈ m'.entries, tree (place lookup platform output' e) = true →
        ¬ dir <+: place lookup platform output' e) ∧
      ∀ l, tree l = true → dir <+: l → ∃ e ∈ m.entries, place lookup platform output e = l
  else
    ∀ e ∈ m'.entries, tree (place lookup platform output' e) = true →
      ∀ f ∈ m.entries, place lookup platform output f ≠ place lookup platform output' e

/-- The directory is removed with all that is below it. -/
theorem deletesOwnFiles_dir_iff {tree : FileTree κ} {r r' : Record} {root : PathBuf}
    (hroot : r.root = some root) :
    DeletesOwnFiles lookup platform tree r r' ↔
      tree (lookup.at platform root) = true ∨
        (∀ p ∈ r'.files, tree (lookup.at platform p) = true →
          ¬ lookup.at platform root <+: lookup.at platform p) ∧
        ∀ l, tree l = true → lookup.at platform root <+: l →
          ∃ p ∈ r.files, lookup.at platform p = l := by
  have hkept : ∀ l, deleteData lookup platform r tree l = true ↔
      tree l = true ∧ (tree (lookup.at platform root) = true ∨
        ¬ lookup.at platform root <+: l) := by
    intro l
    rw [deleteData, hroot]
    exact FileTree.removeDirAll_eq_true_iff
  by_cases hdir : tree (lookup.at platform root) = true
  · refine iff_of_true ⟨fun p _ hp => (hkept _).mpr ⟨hp, .inl hdir⟩, fun l hl hgone => ?_⟩
      (.inl hdir)
    rw [(hkept l).mpr ⟨hl, .inl hdir⟩] at hgone
    cases hgone
  rw [or_iff_right hdir]
  simp only [or_iff_right hdir] at hkept
  constructor
  · intro h
    refine ⟨fun p hp hfile => ((hkept _).mp (h.spares p hp hfile)).2, fun l hl hbelow => ?_⟩
    apply h.own l hl
    rw [← Bool.not_eq_true, hkept]
    exact fun hk => hk.2 hbelow
  · rintro ⟨hspares, hown⟩
    refine ⟨fun p hp hfile => (hkept _).mpr ⟨hfile, hspares p hp hfile⟩, fun l hl hgone => ?_⟩
    apply hown l hl
    by_contra hbelow
    rw [(hkept l).mpr ⟨hl, hbelow⟩] at hgone
    cases hgone

/-- The file of a torrent of one file is removed, and no other. -/
theorem deletesOwnFiles_file_iff {tree : FileTree κ} {r r' : Record} (hroot : r.root = none) :
    DeletesOwnFiles lookup platform tree r r' ↔
      ∀ p ∈ r'.files, tree (lookup.at platform p) = true →
        ∀ q ∈ r.files, lookup.at platform q ≠ lookup.at platform p := by
  have hkept : ∀ l, deleteData lookup platform r tree l = true ↔
      tree l = true ∧ l ∉ r.files.map (lookup.at platform) := by
    intro l
    rw [deleteData, hroot]
    exact FileTree.removeFiles_eq_true_iff
  constructor
  · intro h p hp hfile q hq heq
    have hnot := ((hkept _).mp (h.spares p hp hfile)).2
    exact hnot (List.mem_map.mpr ⟨q, hq, heq⟩)
  · intro h
    refine ⟨fun p hp hfile => (hkept _).mpr ⟨hfile, fun hmem => ?_⟩, fun l hl hgone => ?_⟩
    · obtain ⟨q, hq, heq⟩ := List.mem_map.mp hmem
      exact h p hp hfile q hq heq
    · by_contra hnone
      rw [(hkept l).mpr ⟨hl, fun hmem => hnone (List.mem_map.mp hmem)⟩] at hgone
      cases hgone

/-- Deleting the data of a torrent leaves all other data alone exactly when its
place holds nothing else. -/
theorem delete_data_iff {tree : FileTree κ} {m m' : Metainfo} {torrent torrent' : PathBuf}
    {infoHash infoHash' : Except Error String} {output output' : PathBuf} {status status' : Status}
    {r r' : Record}
    (h : buildRecord platform (.ok (m, infoHash)) torrent output status = .ok r)
    (h' : buildRecord platform (.ok (m', infoHash')) torrent' output' status' = .ok r') :
    DeletesOwnFiles lookup platform tree r r' ↔
      PlaceApart lookup platform tree m output m' output' := by
  obtain ⟨-, hfiles, hroot, -⟩ := buildRecord_eq_ok h
  obtain ⟨-, hfiles', -⟩ := buildRecord_eq_ok h'
  unfold PlaceApart
  split
  · rename_i hmulti
    rw [if_pos hmulti] at hroot
    rw [deletesOwnFiles_dir_iff hroot, hfiles, hfiles']
    simp only [List.mem_map, forall_exists_index, and_imp, forall_apply_eq_imp_iff₂,
      exists_exists_and_eq_and]
    rfl
  · rename_i hsingle
    rw [if_neg hsingle] at hroot
    rw [deletesOwnFiles_file_iff hroot, hfiles, hfiles']
    simp only [List.forall_mem_map]
    rfl

/-! ## Names in one output directory -/

omit [DecidableEq κ] in
/-- On Unix plain names are looked up one below the other. -/
theorem at_foldl_push_unix (lookup : Lookup κ) (output : PathBuf) {names : List String}
    (hne : names ≠ []) (hplain : ∀ n ∈ names, Path.Plain n.toList) :
    lookup.at .unix (names.foldl (PathBuf.push .unix) output) =
      lookup.at .unix output ++ names.map lookup.key := by
  have hjoin : Path.Joinable .unix output.toList (names.map String.toList) :=
    ⟨fun _ _ => rfl, rfl, nofun⟩
  rw [Lookup.at, (components_foldl_pathBuf_push_iff hne hplain).mpr hjoin, lookup.locate_append]
  rfl

omit [DecidableEq κ] in
/-- The files of a torrent go below its name in the output directory. -/
theorem place_unix (lookup : Lookup κ) {m : Metainfo} {output : PathBuf}
    {paths : List (PathBuf × UInt64)} (h : m.filePaths .unix output = .ok paths)
    {e : List String × UInt64} (he : e ∈ m.entries) :
    ∃ below, place lookup .unix output e =
      lookup.at .unix output ++ lookup.key m.info.name :: below := by
  obtain ⟨hne, hplain⟩ := (Metainfo.filePaths_eq_ok h).1 e he
  obtain ⟨path, hpath⟩ := m.entries_head he
  refine ⟨path.map lookup.key, ?_⟩
  rw [place, filePath, at_foldl_push_unix lookup output hne hplain, hpath, List.map_cons]

/-- Torrents of different names in one output directory do not lose data to one another. -/
theorem spares_of_name_ne {tree : FileTree κ} {m m' : Metainfo} {torrent torrent' : PathBuf}
    {infoHash infoHash' : Except Error String} {output output' : PathBuf} {status status' : Status}
    {r r' : Record}
    (h : buildRecord .unix (.ok (m, infoHash)) torrent output status = .ok r)
    (h' : buildRecord .unix (.ok (m', infoHash')) torrent' output' status' = .ok r')
    (hout : lookup.at .unix output = lookup.at .unix output')
    (hname : lookup.key m.info.name ≠ lookup.key m'.info.name) :
    ∀ p ∈ r'.files, tree (lookup.at .unix p) = true →
      deleteData lookup .unix r tree (lookup.at .unix p) = true := by
  obtain ⟨-, hfiles, hroot, ⟨paths, hpaths⟩, -⟩ := buildRecord_eq_ok h
  obtain ⟨-, hfiles', -, ⟨paths', hpaths'⟩, -⟩ := buildRecord_eq_ok h'
  intro p hp hfile
  rw [hfiles'] at hp
  obtain ⟨e, he, rfl⟩ := List.mem_map.mp hp
  obtain ⟨below, hplace : lookup.at .unix (filePath .unix output' e) = _⟩ :=
    place_unix lookup hpaths' he
  rw [← hout] at hplace
  by_cases hmulti : m.info.files.isSome
  · rw [if_pos hmulti] at hroot
    have hplain : ∀ n ∈ [m.info.name], Path.Plain n.toList := by
      simpa using m.name_plain hpaths
    have hdir := at_foldl_push_unix lookup output (List.cons_ne_nil m.info.name []) hplain
    rw [List.foldl_cons, List.foldl_nil] at hdir
    rw [deleteData, hroot]
    refine FileTree.removeDirAll_eq_true_iff.mpr ⟨hfile, .inr fun hbelow => hname ?_⟩
    rw [hdir, hplace, List.prefix_append_right_inj] at hbelow
    exact (List.cons_prefix_cons.mp hbelow).1
  · rw [if_neg hmulti] at hroot
    rw [deleteData, hroot]
    refine FileTree.removeFiles_eq_true_iff.mpr ⟨hfile, fun hmem => hname ?_⟩
    obtain ⟨q, hq, heq⟩ := List.mem_map.mp hmem
    rw [hfiles] at hq
    obtain ⟨f, hf, rfl⟩ := List.mem_map.mp hq
    obtain ⟨below', hplace'⟩ := place_unix lookup hpaths hf
    have hsame := hplace'.symm.trans (heq.trans hplace)
    exact (List.cons.inj (List.append_cancel_left hsame)).1

/-- The name a component stands for. -/
def componentName : Path.Component → Option String
  | .normal name => some name
  | _ => none

/-- Names as they are, below the root. -/
def plainLookup : Lookup String where
  locate cs := cs.filterMap componentName
  key := id
  locate_normal cs name := by simp [componentName]

/-- Two torrents whose files have one name share the file. -/
theorem delete_data_removes_other :
    ∃ r r', buildRecord .unix (.ok (loneMetainfo "a", .ok "1")) "t" "/dl" .complete = .ok r ∧
      buildRecord .unix (.ok (loneMetainfo "a", .ok "2")) "t" "/dl" .complete = .ok r' ∧
      r.id ≠ r'.id ∧ ¬ DeletesOwnFiles plainLookup .unix (fun l => l == ["dl", "a"]) r r' := by
  refine ⟨loneRecord "1" "a", loneRecord "2" "a", by decide +kernel, by decide +kernel,
    by decide +kernel, fun h => ?_⟩
  have hkept := h.spares "/dl/a" (by decide +kernel) (by decide +kernel)
  revert hkept
  decide +kernel

theorem delete_data_spares_named :
    ∃ r r', buildRecord .unix (.ok (loneMetainfo "a", .ok "1")) "t" "/dl" .complete = .ok r ∧
      buildRecord .unix (.ok (loneMetainfo "b", .ok "2")) "t" "/dl" .complete = .ok r' ∧
      DeletesOwnFiles plainLookup .unix (fun l => l == ["dl", "a"] || l == ["dl", "b"]) r r' := by
  have ha : buildRecord .unix (.ok (loneMetainfo "a", .ok "1")) "t" "/dl" .complete =
      .ok (loneRecord "1" "a") := by
    decide +kernel
  have hb : buildRecord .unix (.ok (loneMetainfo "b", .ok "2")) "t" "/dl" .complete =
      .ok (loneRecord "2" "b") := by
    decide +kernel
  refine ⟨_, _, ha, hb, (delete_data_iff ha hb).mpr ?_⟩
  rw [PlaceApart, if_neg (by decide)]
  decide +kernel

end Torrentina.Gui
