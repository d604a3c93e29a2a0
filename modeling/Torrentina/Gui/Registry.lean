import Torrentina.Core.Pool
import Torrentina.Download.Session
import Torrentina.Gui.Record
import Torrentina.Tracker.Types

/-!
# The registry and what runs on it

The commands and the pipelines they spawn share the registry. What a command or
a pipeline does while it holds the lock of the registry is one step, and so is
each thing it waits for in between; everything else may happen between two steps
of one of them.

A pipeline goes on as the task of the command that spawned it. A new launch of
the app leaves the tasks of the launch before without a step.
-/

namespace Torrentina.Gui

open Torrentina.Core Download Tracker

/-- A registered torrent: its live coordinator, named after the task that made
it, and its record. -/
structure Handle where
  coordinator : Option Nat
  record : Record

/-- What `remove_torrent` is asked to do; any other text acts as `list`. -/
inductive RemoveMode
  | list
  | listAndData
  | dataOnly
  deriving DecidableEq, Repr

/-- Why a command refuses. -/
inductive Refusal
  /-- "This torrent is already in the list." -/
  | alreadyInList
  /-- "Unknown torrent." -/
  | unknownTorrent
  /-- "Torrent is already running." -/
  | alreadyRunning
  /-- What `build_record` failed with. -/
  | unreadable (e : Error)
  deriving DecidableEq, Repr

/-- What follows a `persist`. -/
inductive Next
  | returns
  | spawns
  | ends
  deriving DecidableEq, Repr

/-- Where a task is. -/
inductive Stage
  /-- In `pause_download`, `resume_download` or `cancel_download`, before the lock. -/
  | signalling (control : ControlState) (status : Status)
  /-- In `set_status`, before the lock. -/
  | settingStatus (status : Status) (next : Next)
  /-- In `persist`, before the lock. -/
  | copying (next : Next)
  /-- In `persist`, before the write. -/
  | writing (copy : String → Option Record) (number : Nat) (next : Next)
  /-- In `remove_torrent`, before the first lock. -/
  | removing (mode : RemoveMode)
  /-- In `remove_torrent`, before the second lock. -/
  | dropping (mode : RemoveMode) (record : Record)
  /-- In `remove_torrent`, before `delete_data`. -/
  | deleting (record : Record)
  /-- In `start_torrent`, before the lock. -/
  | starting
  /-- In `add_torrent`, before the file is read. -/
  | reading
  /-- In `add_torrent`, before the lock. -/
  | inserting (record : Record)
  /-- The command has returned, and no pipeline of it goes on. -/
  | returned (result : Except Refusal Unit)
  /-- In `run_pipeline`, before the file is read. -/
  | parsing
  /-- In the loop over the trackers. -/
  | announcing (m : Metainfo) (infoHash peerId : List UInt8)
  /-- Before `Storage::create`. -/
  | creating (m : Metainfo) (infoHash peerId : List UInt8) (peers : List SocketAddr)
  /-- Before the lock under which the coordinator is published. -/
  | publishing (m : Metainfo) (infoHash peerId : List UInt8) (peers : List SocketAddr)
  /-- Before `Coordinator::run`. -/
  | published (peers : List SocketAddr)
  /-- In `Coordinator::run`. -/
  | running
  /-- Before the lock under which the final status is recorded. -/
  | finishing (status : Status)
  /-- The pipeline has ended. -/
  | ended

/-- What the UI can ask for. -/
inductive Command
  | pauseDownload (id : String)
  | resumeDownload (id : String)
  | cancelDownload (id : String)
  | removeTorrent (id : String) (mode : RemoveMode)
  | addTorrent (torrent output : PathBuf)
  | startTorrent (id : String)

/-- A command and the pipeline it spawns. The id of an added torrent is known
once its file is read. `since` counts the commands given before `spawn_pipeline`
was called; no step reads it. -/
structure Task where
  number : Nat
  launch : Nat
  command : Command
  since : Nat
  id : String
  torrent : PathBuf
  output : PathBuf
  stage : Stage

/-- The registry with the coordinators' control channels, and the file it is kept
in. No task reads the last three: how many copies of the registry were taken,
the latest of them that was written, and for each id the task that added or
started it last. -/
structure App where
  torrents : String → Option Handle
  controls : Nat → Watch ControlState
  stored : String → Option Record
  launch : Nat
  spawned : Nat
  copies : Nat
  written : Nat
  latest : String → Nat

/-- What the world outside a task decides: the results of I/O. -/
inductive TaskEvent
  | proceed
  | read (r : Except Error (Metainfo × Except Error String))
  | parsed (r : Except Error (Metainfo × Except Error (List UInt8))) (peerId : List UInt8)
  | reply (r : Except Error AnnounceResponse)
  | exhausted
  | created (r : Except Error Unit)
  | sessionEnded
  | joined (writer : Except Error Unit) (complete : Bool)
  | written (ok : Bool)

/-- The app is closed, at any moment, and launched again. -/
inductive AppEvent
  | relaunch

/-! ## Commands -/

/-- `pause_download`. -/
def Stage.pauseDownload : Stage := .signalling .paused .paused

/-- `resume_download`. -/
def Stage.resumeDownload : Stage := .signalling .running .downloading

/-- `cancel_download`. -/
def Stage.cancelDownload : Stage := .signalling .cancelled .stopped

/-- Where a command starts. -/
def Command.stage : Command → Stage
  | .pauseDownload _ => .pauseDownload
  | .resumeDownload _ => .resumeDownload
  | .cancelDownload _ => .cancelDownload
  | .removeTorrent _ mode => .removing mode
  | .addTorrent _ _ => .reading
  | .startTorrent _ => .starting

/-- The id a command names. -/
def Command.id : Command → String
  | .pauseDownload id | .resumeDownload id | .cancelDownload id => id
  | .removeTorrent id _ => id
  | .addTorrent _ _ => ""
  | .startTorrent id => id

/-- The torrent file and the output directory a command names. -/
def Command.paths : Command → PathBuf × PathBuf
  | .addTorrent torrent output => (torrent, output)
  | _ => ("", "")

/-- The task a command runs as. -/
def Command.task (c : App) (command : Command) : Task where
  number := c.spawned
  launch := c.launch
  command
  since := 0
  id := command.id
  torrent := command.paths.1
  output := command.paths.2
  stage := command.stage

/-! ## Sections -/

/-- The records of the registry, by id. -/
def App.records (c : App) (id : String) : Option Record := (c.torrents id).map Handle.record

/-- Change the entry of an id, if there is one. -/
def App.modify (c : App) (id : String) (f : Handle → Handle) : App :=
  { c with torrents := Function.update c.torrents id ((c.torrents id).map f) }

/-- Add an entry. -/
def App.insert (c : App) (id : String) (h : Handle) : App :=
  { c with torrents := Function.update c.torrents id (some h) }

/-- Drop the entry of an id. -/
def App.remove (c : App) (id : String) : App :=
  { c with torrents := Function.update c.torrents id none }

/-- Send a command to the coordinator in the entry of an id, if there is one. -/
def App.signal (c : App) (id : String) (control : ControlState) : App :=
  match (c.torrents id).bind Handle.coordinator with
  | some k => { c with controls := Function.update c.controls k ((c.controls k).send control) }
  | none => c

/-- A task has added or started the torrent of an id. -/
def App.accept (c : App) (p : Task) : App :=
  { c with latest := Function.update c.latest p.id p.number }

def Handle.setStatus (status : Status) (h : Handle) : Handle :=
  { h with record := { h.record with status } }

/-- Publish a coordinator. -/
def Handle.publish (k : Nat) (h : Handle) : Handle := { h with coordinator := some k }

/-- The first lock of `remove_torrent`. -/
def Handle.remove (mode : RemoveMode) (h : Handle) : Handle where
  coordinator := none
  record := if mode = .dataOnly then { h.record with status := .stopped } else h.record

/-- Clear the live coordinator and record the final status. -/
def Handle.finish (status : Status) (h : Handle) : Handle :=
  { h.setStatus status with coordinator := none }

/-- Restored entries come back stopped; completed ones stay complete. -/
def restoreRecord (r : Record) : Record :=
  if r.status ≠ .complete then { r with status := .stopped } else r

/-- Load the persisted registry. -/
def restore (stored : String → Option Record) (id : String) : Option Handle :=
  (stored id).map fun r => ⟨none, restoreRecord r⟩

/-! ## Pipelines -/

/-- What a pipeline reads from the metainfo file. -/
def prepare (r : Except Error (Metainfo × Except Error (List UInt8))) :
    Except Error (Metainfo × List UInt8) := do
  let (m, infoHash) ← r
  let infoHash ← infoHash
  let _ ← m.info.totalLength
  return (m, infoHash)

/-- The peers of a reply, each once. -/
def gatherPeers (addrs : List SocketAddr) : List SocketAddr :=
  addrs.foldl (fun peers addr => if addr ∈ peers then peers else peers ++ [addr]) []

/-- The status a pipeline ends with. -/
def finalStatus (complete : Bool) (control : ControlState) : Status :=
  if complete then .complete else if control = .cancelled then .stopped else .stalled

def Task.at (p : Task) (stage : Stage) : Task := { p with stage }

/-- The error branch of `spawn_pipeline`. -/
def Task.fail (p : Task) : Task := p.at (.settingStatus .error .ends)

/-- Where a task goes on after `persist`. -/
def Task.afterPersist (c : App) (p : Task) : Next → Task
  | .returns => p.at (.returned (.ok ()))
  | .spawns => { p with stage := .parsing, since := c.spawned }
  | .ends => p.at .ended

/-- Where `remove_torrent` goes on after its first lock. -/
def RemoveMode.afterStop (record : Record) : RemoveMode → Stage
  | .dataOnly => .deleting record
  | mode => .dropping mode record

/-- Where `remove_torrent` goes on after its second lock. -/
def RemoveMode.afterDrop (record : Record) : RemoveMode → Stage
  | .list => .copying .returns
  | _ => .deleting record

/-- Every peer of a run listens for commands. -/
def App.run (c : App) (k : Nat) (peers : List SocketAddr) : App :=
  { c with
    controls := Function.update c.controls k
      (peers.foldl (fun w _ => w.subscribe) (c.controls k)) }

/-- One step of a task. -/
def Task.step (platform : Platform) (c : App) (p : Task) (e : TaskEvent) : Option (App × Task) :=
  if p.launch ≠ c.launch then none else
  match p.stage, e with
  | .signalling control status, .proceed =>
    some (c.signal p.id control, p.at (.settingStatus status .returns))
  | .settingStatus status next, .proceed =>
    some (c.modify p.id (Handle.setStatus status), p.at (.copying next))
  | .copying next, .proceed =>
    some ({ c with copies := c.copies + 1 }, p.at (.writing c.records (c.copies + 1) next))
  | .writing copy number next, .written ok =>
    some (if ok then { c with stored := copy, written := max c.written number } else c,
      p.afterPersist c next)
  | .removing mode, .proceed =>
    match c.torrents p.id with
    | none => some (c, p.at (.returned (.ok ())))
    | some h => some ((c.signal p.id .cancelled).modify p.id (Handle.remove mode),
        p.at (mode.afterStop (h.remove mode).record))
  | .dropping mode record, .proceed =>
    some (c.remove p.id, p.at (mode.afterDrop record))
  | .deleting _, .proceed => some (c, p.at (.copying .returns))
  | .starting, .proceed =>
    match c.torrents p.id with
    | none => some (c, p.at (.returned (.error .unknownTorrent)))
    | some h =>
      if h.coordinator.isSome then some (c, p.at (.returned (.error .alreadyRunning)))
      else some (c.accept p,
        { p with
          torrent := h.record.torrentPath
          output := h.record.output
          stage := .settingStatus .downloading .spawns })
  | .reading, .read r =>
    match buildRecord platform r p.torrent p.output .downloading with
    | .error err => some (c, p.at (.returned (.error (.unreadable err))))
    | .ok record => some (c, { p with id := record.id, stage := .inserting record })
  | .inserting record, .proceed =>
    match c.torrents p.id with
    | some _ => some (c, p.at (.returned (.error .alreadyInList)))
    | none => some ((c.accept p).insert p.id ⟨none, record⟩, p.at (.copying .spawns))
  | .parsing, .parsed r peerId =>
    match prepare r with
    | .error _ => some (c, p.fail)
    | .ok (m, infoHash) => some (c, p.at (.announcing m infoHash peerId))
  | .announcing m infoHash peerId, .reply (.ok response) =>
    match gatherPeers response.peers with
    | [] => some (c, p)
    | peers => some (c, p.at (.creating m infoHash peerId peers))
  | .announcing _ _ _, .reply (.error _) => some (c, p)
  | .announcing _ _ _, .exhausted => some (c, p.fail)
  | .creating m infoHash peerId peers, .created (.ok ()) =>
    some (c, p.at (.publishing m infoHash peerId peers))
  | .creating _ _ _ _, .created (.error _) => some (c, p.fail)
  | .publishing m infoHash peerId peers, .proceed =>
    match Coordinator.new m.info infoHash peerId with
    | .error _ => some (c, p.fail)
    | .ok coordinator =>
      match c.torrents p.id with
      | none => some (c, p.at .ended)
      | some _ => some ({ c.modify p.id (Handle.publish p.number) with
          controls := Function.update c.controls p.number coordinator.control },
          p.at (.published peers))
  | .published peers, .proceed => some (c.run p.number peers, p.at .running)
  | .running, .sessionEnded =>
    if (c.controls p.number).receivers = 0 then none
    else some ({ c with
      controls := Function.update c.controls p.number (c.controls p.number).unsubscribe }, p)
  | .running, .joined writer complete =>
    if (c.controls p.number).receivers ≠ 0 then none
    else match writer with
      | .error _ => some (c, p.fail)
      | .ok () => some (c, p.at (.finishing (finalStatus complete (c.controls p.number).value)))
  | .finishing status, .proceed =>
    some (c.modify p.id (Handle.finish status), p.at (.copying .ends))
  | _, _ => none

/-- A new launch, with what is in the file. -/
def App.relaunch (c : App) : App :=
  { c with
    torrents := restore c.stored
    launch := c.launch + 1
    copies := c.copies + 1
    written := c.copies + 1 }

/-- The commands, the tasks they run as, and the launches of the app. -/
def gui (platform : Platform) : PoolProgram App Task Command TaskEvent AppEvent where
  spawn c command := some ({ c with spawned := c.spawned + 1 }, command.task c)
  step := Task.step platform
  env c
    | .relaunch => some c.relaunch

/-- The first launch, with what is in the file. -/
def App.launched (stored : String → Option Record) : App where
  torrents := restore stored
  controls _ := Watch.channel .running
  stored
  launch := 0
  spawned := 0
  copies := 0
  written := 0
  latest _ := 0

/-- A state of the GUI. -/
abbrev GuiState := Pool App Task

/-- An event of the GUI. -/
abbrev GuiEvent := PoolEvent Command TaskEvent AppEvent

/-- What a run of the GUI records. -/
abbrev GuiRun := List (Transition GuiState GuiEvent)

/-- All runs of the GUI from a persisted registry. -/
def guiSystem (platform : Platform) (stored : String → Option Record) : System GuiState GuiEvent :=
  (gui platform).system (App.launched stored)

end Torrentina.Gui
