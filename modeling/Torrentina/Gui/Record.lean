import Torrentina.Metainfo.Paths

/-!
# The record of a torrent

What the GUI keeps of a torrent between runs, and how it is made from a parsed
metainfo file.
-/

namespace Torrentina.Gui

/-- The status texts. -/
inductive Status
  | downloading
  | paused
  | complete
  | stopped
  | error
  | stalled
  deriving DecidableEq, Repr

/-- A persisted description of one torrent in the registry. -/
structure Record where
  id : String
  name : String
  torrentPath : PathBuf
  output : PathBuf
  totalBytes : UInt64
  files : List PathBuf
  root : Option PathBuf
  status : Status
  deriving DecidableEq, Repr

/-- Assemble the record of a torrent from what `Metainfo::from_file` and
`info_hash` return. -/
def buildRecord (platform : Platform) (read : Except Error (Metainfo × Except Error String))
    (torrent output : PathBuf) (status : Status) : Except Error Record := do
  let (m, infoHash) ← read
  let id ← infoHash
  let totalBytes ← m.info.totalLength
  let paths ← m.filePaths platform output
  return {
    id, name := m.info.name, torrentPath := torrent, output, totalBytes
    files := paths.map Prod.fst
    root := if m.info.files.isSome then some (output.push platform m.info.name) else none
    status }

/-- The file of an entry, below the output directory. -/
def filePath (platform : Platform) (output : PathBuf) (entry : List String × UInt64) : PathBuf :=
  entry.1.foldl (PathBuf.push platform) output

/-- A record holds the paths of the torrent's entries, and for several files their directory. -/
theorem buildRecord_eq_ok {platform : Platform} {m : Metainfo} {infoHash : Except Error String}
    {torrent output : PathBuf} {status : Status} {r : Record}
    (h : buildRecord platform (.ok (m, infoHash)) torrent output status = .ok r) :
    infoHash = .ok r.id ∧ r.files = m.entries.map (filePath platform output) ∧
      r.root = (if m.info.files.isSome then some (output.push platform m.info.name) else none) ∧
      (∃ paths, m.filePaths platform output = .ok paths) ∧ r.status = status := by
  obtain ⟨⟨m', infoHash'⟩, hread, h⟩ := bind_eq_ok_iff.mp h
  obtain ⟨rfl, rfl⟩ := Prod.mk.inj (Except.ok.inj hread)
  obtain ⟨id, hid, h⟩ := bind_eq_ok_iff.mp h
  obtain ⟨totalBytes, -, h⟩ := bind_eq_ok_iff.mp h
  obtain ⟨paths, hpaths, h⟩ := bind_eq_ok_iff.mp h
  obtain rfl := Except.ok.inj h
  refine ⟨hid, ?_, rfl, ⟨paths, hpaths⟩, rfl⟩
  obtain ⟨-, rfl⟩ := Metainfo.filePaths_eq_ok hpaths
  rw [List.map_map]
  rfl

/-! ## A torrent of one file -/

/-- A torrent of one file of one byte. -/
def loneMetainfo (name : String) : Metainfo where
  info := { name, pieceLength := 1, pieces := List.replicate 20 0, length := some 1, files := none }

/-- The record of a torrent of one file. -/
def loneRecord (id name : String) : Record where
  id
  name
  torrentPath := "t"
  output := "/dl"
  totalBytes := 1
  files := ["/dl/" ++ name]
  root := none
  status := .complete

end Torrentina.Gui
