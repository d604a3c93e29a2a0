import Torrentina.Core.Path
import Torrentina.Error

/-!
# The typed view of a metainfo file

The fields of the `info` dictionary that the download and the disk layer read,
the normalised file layout, and the paths the files resolve to. Sizes are `u64`
and wrap as such; path joining follows the platform the client was built for.
-/

namespace Torrentina

/-- The number of bytes in a SHA-1 digest. -/
def sha1Len : Nat := 20

/-- One entry in a multi-file torrent's `files` list. -/
structure FileEntry where
  length : UInt64
  path : List String
  deriving DecidableEq, Repr

/-- The `info` dictionary. -/
structure Info where
  name : String
  pieceLength : UInt64
  pieces : List UInt8
  length : Option UInt64
  files : Option (List FileEntry)
  deriving DecidableEq, Repr

/-- The top-level dictionary, reduced to what the download reads. -/
structure Metainfo where
  info : Info
  deriving DecidableEq, Repr

/-- The normalised single-file or multi-file layout. -/
inductive FileLayout
  | single (length : UInt64)
  | multi (files : List FileEntry)
  deriving DecidableEq, Repr

namespace Info

/-- Total number of pieces. -/
def numPieces (info : Info) : Nat := info.pieces.length / sha1Len

/-- Each piece's 20-byte SHA-1 hash, in order. -/
def pieceHashes (info : Info) : Except Error (List (List UInt8)) :=
  if info.pieces.length % sha1Len ≠ 0 then .error (.invalidPiecesLength info.pieces.length)
  else .ok ((List.range info.numPieces).map fun i =>
    (info.pieces.drop (i * sha1Len)).take sha1Len)

/-- Normalise the single-file and multi-file representations. -/
def layout (info : Info) : Except Error FileLayout :=
  match info.length, info.files with
  | some length, none => .ok (.single length)
  | none, some files => .ok (.multi files)
  | _, _ => .error .invalidFileLayout

/-- Total content length. The plain `sum()` wraps in a release build. -/
def totalLength (info : Info) : Except Error UInt64 := do
  match ← info.layout with
  | .single length => .ok length
  | .multi files => .ok (files.foldl (fun acc f => acc + f.length) 0)

end Info

/-! ## Paths -/

/-- A path, as the text it was built from. -/
abbrev PathBuf := String

/-- `Path::components`. -/
def PathBuf.components (platform : Platform) (p : PathBuf) : List Core.Path.Component :=
  Core.Path.components platform p.toList

/-- `PathBuf::push`. -/
def PathBuf.push (platform : Platform) (p : PathBuf) (component : String) : PathBuf :=
  String.ofList (Core.Path.push platform p.toList component.toList)

/-- `{:?}` of a string, for printable text. -/
def debugStr (s : String) : String :=
  let escaped := s.toList.flatMap fun c =>
    if c = '"' then ['\\', '"']
    else if c = '\\' then ['\\', '\\']
    else if c = '\n' then ['\\', 'n']
    else if c = '\r' then ['\\', 'r']
    else if c = '\t' then ['\\', 't']
    else if c = Char.ofNat 0 then ['\\', '0']
    else [c]
  "\"" ++ String.ofList escaped ++ "\""

/-- Reject a path component that could escape the download directory. -/
def validatePathComponent (component : String) : Except Error Unit :=
  if component.isEmpty ∨ component = "." ∨ component = ".." ∨ '/' ∈ component.toList ∨
      '\\' ∈ component.toList ∨ Char.ofNat 0 ∈ component.toList then
    .error (.malformedTorrent
      s!"unsafe path component {debugStr component} in torrent (possible path traversal)")
  else .ok ()

/-- Validate and push each element of a file's path onto the torrent's root. -/
def joinComponents (platform : Platform) (p : PathBuf) : List String → Except Error PathBuf
  | [] => .ok p
  | component :: rest => do
    validatePathComponent component
    joinComponents platform (p.push platform component) rest

/-- `Metainfo::file_paths`: each file's resolved path and length. -/
def Metainfo.filePaths (m : Metainfo) (platform : Platform) (base : PathBuf) :
    Except Error (List (PathBuf × UInt64)) := do
  validatePathComponent m.info.name
  match ← m.info.layout with
  | .single length => .ok [(base.push platform m.info.name, length)]
  | .multi files =>
    let root := base.push platform m.info.name
    files.mapM fun f => do
      let p ← joinComponents platform root f.path
      return (p, f.length)

end Torrentina
