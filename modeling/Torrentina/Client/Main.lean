import Torrentina.Client.Peers
import Torrentina.Core.Buffered
import Torrentina.Disk.OnDisk
import Torrentina.Download.Control

/-!
# The command-line client on a disk

`main` asks the trackers for peers, creates the files, runs a coordinator and writes
the verified pieces as they come. The process may be killed at any moment, and be
started again on the same disk; what an earlier incarnation left there is what the next
one finds. A file takes the bytes of a write before the disk has them: they reach it
later, in parts and in any order, and only `finish` waits for the last of them. A kill,
or an error of the disk, loses what is still on its way.
-/

namespace Torrentina.Client

open Torrentina.Core Download Disk

/-- What `main` is given: the parsed torrent with its info hash, and the output directory. -/
structure Job where
  metainfo : Metainfo
  trackers : Trackers
  infoHash : List UInt8
  platform : Platform
  output : PathBuf

/-- Where an incarnation of the process is. -/
inductive Stage
  /-- No process runs; the last one reported a complete download, or anything else. -/
  | ended (complete : Bool)
  /-- In `Storage::create`, with the first `opened` files created. -/
  | creating (peers : List SocketAddr) (peerId : List UInt8) (g : Geometry)
    (files : List MappedFile) (opened : Nat)
  /-- In `Coordinator::run`, with the disk writer beside it. The files have taken the bytes of
  `unwritten`, and the disk does not have them yet. -/
  | downloading (g : Geometry) (files : List MappedFile) (swarm : Swarm)
    (unwritten : List (Stretch UInt8))

/-- The disk and the process. -/
structure Host where
  disk : FileSystem
  stage : Stage

/-- What happens to the client. -/
inductive ClientEvent
  /-- The process starts, up to the point where `Storage::create` touches the disk. -/
  | boot (peerId : List UInt8) (answers : Answers)
  /-- `Storage::create` opens the next file and sets its length, or fails. -/
  | create (r : Except Error Unit)
  /-- `Coordinator::run` spawns a task for every peer. -/
  | run
  /-- A step of one of the tasks. -/
  | session (k : Nat) (e : SessionEvent)
  /-- The disk writer takes a piece from the channel, and the files take its bytes. -/
  | write
  /-- Of the `j`-th stretch on its way, `n` bytes from the `a`-th on reach the disk. -/
  | land (j a n : Nat)
  /-- Every task is done, the channel is empty and every file is flushed: `main` returns. -/
  | finish
  /-- The process is killed, or an error of the disk ends it. -/
  | kill

/-- What `main` does before the disk is touched. -/
def Job.launch (job : Job) (answers : Answers) :
    Option (List SocketAddr × Geometry × List MappedFile) := do
  let _ ← job.metainfo.info.totalLength.toOption
  let peers ← (collectPeers job.trackers answers).toOption
  let g ← (Geometry.fromInfo job.metainfo.info).toOption
  let files ← (buildFileMap job.metainfo job.platform job.output).toOption
  return (peers, g, files)

/-- The swarm of a fresh coordinator once every peer has its task. -/
def spawnAll (sha1 : List UInt8 → List UInt8) (c : Coordinator) (peers : List SocketAddr) :
    Option Swarm :=
  (c.system sha1).exec (c.system sha1).init (peers.map .spawn)

/-- One step of the client. -/
def Job.step (sha1 : List UInt8 → List UInt8) (job : Job) (s : Host) :
    ClientEvent → Option Host
  | .boot peerId answers =>
    match s.stage with
    | .ended _ =>
      match job.launch answers with
      | some (peers, g, files) => some { s with stage := .creating peers peerId g files 0 }
      | none => some { s with stage := .ended false }
    | _ => none
  | .create r =>
    match s.stage with
    | .creating peers peerId g files opened =>
      match files[opened]?, r with
      | some file, .ok () => some
        { disk := s.disk.preallocate job.platform file
          stage := .creating peers peerId g files (opened + 1) }
      | some _, .error _ => some { s with stage := .ended false }
      | none, _ => none
    | _ => none
  | .run =>
    match s.stage with
    | .creating peers peerId g files opened =>
      if opened = files.length then
        match Coordinator.new job.metainfo.info job.infoHash peerId with
        | .ok c => (spawnAll sha1 c peers).map fun swarm =>
          { s with stage := .downloading g files swarm [] }
        | .error _ => some { s with stage := .ended false }
      else none
    | _ => none
  | .session k e =>
    match s.stage with
    | .downloading g files swarm unwritten =>
      ((Download.swarm sha1).poolStep swarm (.proc k e)).map fun swarm' =>
        { s with stage := .downloading g files swarm' unwritten }
    | _ => none
  | .write =>
    match s.stage with
    | .downloading g files swarm unwritten =>
      match swarm.shared.completed.pending with
      | piece :: _ => ((Download.swarm sha1).poolStep swarm (.env .receive)).map fun swarm' =>
        match s.disk.writePiece job.platform g files piece.index piece.data with
        | (.ok (), _) => { s with
            stage := .downloading g files swarm'
              (unwritten ++ [⟨g.pieceOffset piece.index, piece.data⟩]) }
        | (.error _, disk) => { disk, stage := .ended false }
      | [] => none
    | _ => none
  | .land j a n =>
    match s.stage with
    | .downloading g files swarm unwritten =>
      match unwritten[j]? with
      | some w =>
        if a + n ≤ w.data.length then some
          { disk := s.disk.writeRegion job.platform files (w.part a n).start (w.part a n).data
            stage := .downloading g files swarm (afterLanding unwritten j a n) }
        else none
      | none => none
    | _ => none
  | .finish =>
    match s.stage with
    | .downloading _ _ swarm unwritten =>
      if swarm.procs.all (fun p => !p.subscribed) ∧ swarm.shared.completed.pending = [] ∧
          unwritten = [] then
        some { s with stage := .ended swarm.shared.tracker.isComplete }
      else none
    | _ => none
  | .kill =>
    match s.stage with
    | .ended _ => none
    | _ => some { s with stage := .ended false }

/-! ## What one step can do -/

/-- The transitions of the client. -/
inductive Job.Step (sha1 : List UInt8 → List UInt8) (job : Job) (s : Host) :
    ClientEvent → Host → Prop
  | booted (peerId : List UInt8) (answers : Answers) (complete : Bool) (peers : List SocketAddr)
      (g : Geometry) (files : List MappedFile) (hs : s.stage = .ended complete)
      (hl : job.launch answers = some (peers, g, files)) :
      Step sha1 job s (.boot peerId answers) { s with stage := .creating peers peerId g files 0 }
  | created (peers : List SocketAddr) (peerId : List UInt8) (g : Geometry)
      (files : List MappedFile) (opened : Nat) (file : MappedFile)
      (hs : s.stage = .creating peers peerId g files opened) (hf : files[opened]? = some file) :
      Step sha1 job s (.create (.ok ()))
        { disk := s.disk.preallocate job.platform file
          stage := .creating peers peerId g files (opened + 1) }
  | spawned (peers : List SocketAddr) (peerId : List UInt8) (g : Geometry)
      (files : List MappedFile) (c : Coordinator) (swarm : Swarm)
      (hs : s.stage = .creating peers peerId g files files.length)
      (hc : Coordinator.new job.metainfo.info job.infoHash peerId = .ok c)
      (hr : spawnAll sha1 c peers = some swarm) :
      Step sha1 job s .run { s with stage := .downloading g files swarm [] }
  | stepped (g : Geometry) (files : List MappedFile) (swarm swarm' : Swarm)
      (unwritten : List (Stretch UInt8)) (k : Nat) (e : SessionEvent)
      (hs : s.stage = .downloading g files swarm unwritten)
      (hp : (Download.swarm sha1).poolStep swarm (.proc k e) = some swarm') :
      Step sha1 job s (.session k e) { s with stage := .downloading g files swarm' unwritten }
  | wrote (g : Geometry) (files : List MappedFile) (swarm swarm' : Swarm)
      (unwritten : List (Stretch UInt8)) (piece : VerifiedPiece) (rest : List VerifiedPiece)
      (hs : s.stage = .downloading g files swarm unwritten)
      (hq : swarm.shared.completed.pending = piece :: rest)
      (hp : (Download.swarm sha1).poolStep swarm (.env .receive) = some swarm') :
      Step sha1 job s .write
        { s with
          stage := .downloading g files swarm'
            (unwritten ++ [⟨g.pieceOffset piece.index, piece.data⟩]) }
  | writeFailed (g : Geometry) (files : List MappedFile) (swarm : Swarm)
      (unwritten : List (Stretch UInt8)) (piece : VerifiedPiece) (rest : List VerifiedPiece)
      (disk : FileSystem) (err : Error) (hs : s.stage = .downloading g files swarm unwritten)
      (hq : swarm.shared.completed.pending = piece :: rest)
      (hw : s.disk.writePiece job.platform g files piece.index piece.data = (.error err, disk)) :
      Step sha1 job s .write { disk, stage := .ended false }
  | landed (g : Geometry) (files : List MappedFile) (swarm : Swarm)
      (unwritten : List (Stretch UInt8)) (w : Stretch UInt8) (j a n : Nat)
      (hs : s.stage = .downloading g files swarm unwritten) (hw : unwritten[j]? = some w)
      (hle : a + n ≤ w.data.length) :
      Step sha1 job s (.land j a n)
        { disk := s.disk.writeRegion job.platform files (w.part a n).start (w.part a n).data
          stage := .downloading g files swarm (afterLanding unwritten j a n) }
  | finished (g : Geometry) (files : List MappedFile) (swarm : Swarm)
      (hs : s.stage = .downloading g files swarm [])
      (hall : ∀ p ∈ swarm.procs, p.subscribed = false)
      (hq : swarm.shared.completed.pending = []) :
      Step sha1 job s .finish { s with stage := .ended swarm.shared.tracker.isComplete }
  | stopped (e : ClientEvent) (he : ∀ j a n, e ≠ .land j a n) :
      Step sha1 job s e { s with stage := .ended false }

/-- Every step is one of the transitions. -/
theorem Job.step_cases {sha1 : List UInt8 → List UInt8} {job : Job} {s s' : Host}
    {e : ClientEvent} (h : job.step sha1 s e = some s') : Job.Step sha1 job s e s' := by
  cases e with
  | boot peerId answers =>
    simp only [Job.step] at h
    split at h
    · rename_i complete hs
      split at h
      · rename_i peers g files hl
        obtain rfl := Option.some.inj h
        exact .booted peerId answers complete peers g files hs hl
      · obtain rfl := Option.some.inj h
        exact .stopped _ nofun
    · cases h
  | create r =>
    simp only [Job.step] at h
    split at h
    · rename_i peers peerId g files opened hs
      split at h
      · rename_i file hf
        obtain rfl := Option.some.inj h
        exact .created peers peerId g files opened file hs hf
      · obtain rfl := Option.some.inj h
        exact .stopped _ nofun
      · cases h
    · cases h
  | run =>
    simp only [Job.step] at h
    split at h
    · rename_i peers peerId g files opened hs
      split at h
      · rename_i hopened
        subst hopened
        split at h
        · rename_i c hc
          obtain ⟨swarm, hr, rfl⟩ := Option.map_eq_some_iff.mp h
          exact .spawned peers peerId g files c swarm hs hc hr
        · obtain rfl := Option.some.inj h
          exact .stopped _ nofun
      · cases h
    · cases h
  | session k e =>
    simp only [Job.step] at h
    split at h
    · rename_i g files swarm unwritten hs
      obtain ⟨swarm', hp, rfl⟩ := Option.map_eq_some_iff.mp h
      exact .stepped g files swarm swarm' unwritten k e hs hp
    · cases h
  | write =>
    simp only [Job.step] at h
    split at h
    · rename_i g files swarm unwritten hs
      split at h
      · rename_i piece rest hq
        obtain ⟨swarm', hp, h⟩ := Option.map_eq_some_iff.mp h
        split at h
        · subst h
          exact .wrote g files swarm swarm' unwritten piece rest hs hq hp
        · rename_i err disk hw
          subst h
          exact .writeFailed g files swarm unwritten piece rest disk err hs hq hw
      · cases h
    · cases h
  | land j a n =>
    simp only [Job.step] at h
    split at h
    · rename_i g files swarm unwritten hs
      split at h
      · rename_i w hw
        split at h
        · rename_i hle
          obtain rfl := Option.some.inj h
          exact .landed g files swarm unwritten w j a n hs hw hle
        · cases h
      · cases h
    · cases h
  | finish =>
    simp only [Job.step] at h
    split at h
    · rename_i g files swarm unwritten hs
      split at h
      · rename_i hdone
        obtain rfl := Option.some.inj h
        obtain ⟨hall, hq, rfl⟩ := hdone
        refine .finished g files swarm hs (fun p hp => ?_) hq
        exact Bool.not_eq_true' _ ▸ List.all_eq_true.mp hall p hp
      · cases h
    · cases h
  | kill =>
    simp only [Job.step] at h
    split at h
    · cases h
    · obtain rfl := Option.some.inj h
      exact .stopped _ nofun

/-- All runs of the client on a disk. -/
def Job.system (sha1 : List UInt8 → List UInt8) (job : Job) (disk : FileSystem) :
    System Host ClientEvent where
  init := ⟨disk, .ended false⟩
  step := job.step sha1

end Torrentina.Client
