import Mathlib.Data.List.Basic

/-!
# Paths and their components

The path rules of the standard library, for Unix and for Windows, on the
characters of a path: what prefix a Windows path starts with, the components a
path is read as, and what `push` makes of a buffer. A Windows prefix decides
which separators count and whether the path has a root, and a verbatim buffer is
taken apart and put together again by `push`.
-/

namespace Torrentina

/-- The path rules the client was built with. -/
inductive Platform
  | unix
  | windows
  deriving DecidableEq, Repr

namespace Core.Path

/-! ## Separators -/

def winSep (c : Char) : Bool := c == '/' || c == '\\'

def verbatimSep (c : Char) : Bool := c == '\\'

def isSep : Platform → Char → Bool
  | .unix => (· == '/')
  | .windows => winSep

def mainSep : Platform → Char
  | .unix => '/'
  | .windows => '\\'

/-! ## Windows prefixes -/

/-- What a Windows path may start with. -/
inductive PathPrefix
  /-- `\\?\name` -/
  | verbatim (name : List Char)
  /-- `\\?\UNC\server\share` -/
  | verbatimUNC (server share : List Char)
  /-- `\\?\C:` -/
  | verbatimDisk (drive : Char)
  /-- `\\.\device` -/
  | deviceNS (device : List Char)
  /-- `\\server\share` -/
  | unc (server share : List Char)
  /-- `C:` -/
  | disk (drive : Char)
  deriving DecidableEq, Repr

namespace PathPrefix

/-- How much of the path the prefix is. An empty share takes its separator with it. -/
def len : PathPrefix → Nat
  | .verbatim name => 4 + name.length
  | .verbatimUNC server share =>
    8 + server.length + if share = [] then 0 else 1 + share.length
  | .verbatimDisk _ => 6
  | .deviceNS device => 4 + device.length
  | .unc server share => 2 + server.length + if share = [] then 0 else 1 + share.length
  | .disk _ => 2

def isVerbatim : PathPrefix → Bool
  | .verbatim _ | .verbatimUNC _ _ | .verbatimDisk _ => true
  | _ => false

def isDrive : PathPrefix → Bool
  | .disk _ => true
  | _ => false

def hasImplicitRoot (p : PathPrefix) : Bool := !p.isDrive

end PathPrefix

/-- The text up to the next separator, and the text after it. -/
def parseNextComponent (sep : Char → Bool) (path : List Char) : List Char × List Char :=
  (path.takeWhile (!sep ·), (path.dropWhile (!sep ·)).tail)

/-- A drive letter with its colon. -/
def parseDrive : List Char → Option Char
  | c :: ':' :: _ => if c.isAlpha then some c.toUpper else none
  | _ => none

/-- A drive with nothing or a separator after it. -/
def parseDriveExact (path : List Char) : Option Char :=
  if path[2]?.all winSep then parseDrive path else none

/-- The prefix of a path after `\\?\`. -/
def parseVerbatim (path : List Char) : PathPrefix :=
  if path.take 3 = ['U', 'N', 'C'] ∧ path[3]?.any winSep = true then
    let (server, rest) := parseNextComponent verbatimSep (path.drop 4)
    .verbatimUNC server (parseNextComponent verbatimSep rest).1
  else
    match parseDriveExact path with
    | some drive => .verbatimDisk drive
    | none => .verbatim (parseNextComponent verbatimSep path).1

/-- A server and a share, if both are there. -/
def parseUNC (path : List Char) : Option PathPrefix :=
  let (server, rest) := parseNextComponent winSep path
  let (share, _) := parseNextComponent winSep rest
  if server ≠ [] ∧ share ≠ [] then some (.unc server share) else none

/-- The prefix of a path after the two separators `a` and `b`. Verbatim paths
are written with backslashes only. -/
def parseDoubled (a b : Char) (path : List Char) : Option PathPrefix :=
  if a = '\\' ∧ b = '\\' ∧ path.take 2 = ['?', '\\'] then some (parseVerbatim (path.drop 2))
  else if path.head? = some '.' ∧ path[1]?.any winSep = true then
    some (.deviceNS (parseNextComponent winSep (path.drop 2)).1)
  else parseUNC path

/-- The prefix of a path. -/
def parsePrefix : Platform → List Char → Option PathPrefix
  | .windows, a :: b :: rest =>
    if winSep a ∧ winSep b then parseDoubled a b rest
    else (parseDrive (a :: b :: rest)).map .disk
  | _, _ => none

/-- How much of a path is its prefix. -/
def prefixLen (platform : Platform) (path : List Char) : Nat :=
  ((parsePrefix platform path).map PathPrefix.len).getD 0

/-! ## Components -/

/-- A component of a path. -/
inductive Component
  | volume (p : PathPrefix)
  | rootDir
  | curDir
  | parentDir
  | normal (name : String)
  deriving DecidableEq, Repr

/-- The component between two separators, if it is one. -/
def parseSingleComponent (verbatim : Bool) (text : List Char) : Option Component :=
  if text = ['.'] then if verbatim then some .curDir else none
  else if text = ['.', '.'] then some .parentDir
  else if text = [] then none
  else some (.normal (String.ofList text))

/-- The components of the text after the prefix and the root. -/
def bodyComponents (sep : Char → Bool) (verbatim : Bool) (text : List Char) : List Component :=
  (text.splitOnP sep).filterMap (parseSingleComponent verbatim)

/-- A leading `.` is kept when the path has neither prefix nor root. -/
def includeCurDir (platform : Platform) : List Char → Bool
  | ['.'] => true
  | '.' :: c :: _ => isSep platform c
  | _ => false

def hasPhysicalRoot (platform : Platform) (rest : List Char) : Bool :=
  rest.head?.any (isSep platform)

/-- The components after the prefix. -/
def afterPrefix (platform : Platform) (p : Option PathPrefix) (rest : List Char) :
    List Component :=
  let verbatim := p.any PathPrefix.isVerbatim
  let body := bodyComponents (if verbatim then verbatimSep else isSep platform) verbatim
  if hasPhysicalRoot platform rest then .rootDir :: body rest.tail
  else
    match p with
    | some p => if p.hasImplicitRoot && !p.isVerbatim then .rootDir :: body rest else body rest
    | none => if includeCurDir platform rest then .curDir :: body rest.tail else body rest

/-- `Path::components`. -/
def components (platform : Platform) (path : List Char) : List Component :=
  let p := parsePrefix platform path
  p.toList.map .volume ++ afterPrefix platform p (path.drop (prefixLen platform path))

/-! ## `PathBuf::push` -/

def hasRoot (platform : Platform) (path : List Char) : Bool :=
  hasPhysicalRoot platform (path.drop (prefixLen platform path)) ||
    (parsePrefix platform path).any PathPrefix.hasImplicitRoot

def isAbsolute (platform : Platform) (path : List Char) : Bool :=
  match platform with
  | .unix => hasRoot platform path
  | .windows => (parsePrefix platform path).isSome && hasRoot platform path

/-- Add a component to those of a verbatim buffer. -/
def pushComponent (buf : List Component) : Component → List Component
  | .rootDir => buf.take 1 ++ [.rootDir]
  | .curDir => buf
  | .parentDir =>
    match buf.getLast? with
    | some (.normal _) => buf.dropLast
    | _ => buf
  | c => buf ++ [c]

/-- The text of a component, where `volume` is the text of the prefix. -/
def Component.text (volume : List Char) : Component → List Char
  | .volume _ => volume
  | .rootDir => ['\\']
  | .curDir => ['.']
  | .parentDir => ['.', '.']
  | .normal name => name.toList

/-- Whether a separator follows the component. -/
def Component.needsSep : Component → Bool
  | .rootDir => false
  | .volume p => !p.isDrive && decide (0 < p.len)
  | _ => true

/-- Put the components of a verbatim buffer together again. -/
def render (volume : List Char) (needSep : Bool) : List Component → List Char
  | [] => []
  | c :: cs =>
    (if needSep ∧ c ≠ .rootDir then ['\\'] else []) ++ c.text volume ++ render volume c.needsSep cs

/-- `PathBuf::push`. -/
def push (platform : Platform) (buf path : List Char) : List Char :=
  let p := parsePrefix platform buf
  let len := prefixLen platform buf
  -- in the special case of `C:` no separator is added
  let bareDrive := p.any PathPrefix.isDrive && len == buf.length
  let needSep := buf.getLast?.any (!isSep platform ·) && !bareDrive
  if isAbsolute platform path || (parsePrefix platform path).isSome then path
  else if p.any PathPrefix.isVerbatim && !path.isEmpty then
    render (buf.take len) false
      ((components platform path).foldl pushComponent (components platform buf))
  else if hasRoot platform path then buf.take len ++ path
  else if needSep then buf ++ mainSep platform :: path
  else buf ++ path

end Core.Path

end Torrentina
