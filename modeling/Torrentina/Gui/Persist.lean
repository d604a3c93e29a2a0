import Torrentina.Core.Snapshot
import Torrentina.Gui.Pipelines

/-!
# The persisted registry

`persist` copies the records under the lock and writes the file after it has let
go of the lock, so the file is a store of snapshots that are written later, with
the running tasks as its writers. `restore` takes the registry from the file, but
changes what it takes without writing it back.
-/

namespace Torrentina.Gui

open Torrentina.Core Download Tracker

/-- What a task has still to do for the file, with what is said of one in `delete_data`. -/
def Stage.writerWith (deleting : Writer (String → Option Record)) :
    Stage → Writer (String → Option Record)
  | .deleting _ => deleting
  | .copying _ => .dirty
  | .writing copy number _ => .holding copy number
  | _ => .idle

/-- What a task has still to do for the file; one in `delete_data` has yet to copy. -/
def Stage.writer (stage : Stage) : Writer (String → Option Record) := stage.writerWith .dirty

/-- Only the tasks of the current launch write. -/
def Task.writer (deleting : Writer (String → Option Record)) (launch : Nat) (p : Task) :
    Writer (String → Option Record) :=
  if p.launch = launch then p.stage.writerWith deleting else .idle

/-- The file as a store of snapshots of the registry. -/
def GuiState.snapshot (deleting : Writer (String → Option Record)) (s : GuiState) :
    Snapshot (String → Option Record) where
  current := s.shared.records
  stored := s.shared.stored
  copies := s.shared.copies
  written := s.shared.written
  writers := s.procs.map (Task.writer deleting s.shared.launch)

/-- No task is between a change of the registry and the write that follows it. -/
def AtRest (s : GuiState) : Prop :=
  ∀ q ∈ s.procs, q.launch = s.shared.launch → q.stage.writer = .idle

/-- In `persist`, or about to call it after a change of the registry. -/
def Stage.persists : Stage → Bool
  | .copying _ | .writing _ _ _ => true
  | _ => false

/-- No `persist` is in progress. -/
def NonePersists (s : GuiState) : Prop :=
  ∀ q ∈ s.procs, q.launch = s.shared.launch → q.stage.persists = false

/-- Two sets of records that look the same through `f`. -/
def Agree (f : Record → Record) (stored records : String → Option Record) : Prop :=
  ∀ id, (stored id).map f = (records id).map f

/-- The step is a write that fails. -/
def writeFails : GuiEvent → Bool
  | .proc _ (.written ok) => !ok
  | _ => false

/-- Writes succeed, and no copy is written over a later one, unless it is the same. -/
def InOrder (s : GuiState) (e : GuiEvent) : Prop :=
  ∀ p ∈ stepping s e, ∀ copy number, p.stage.writer = .holding copy number →
    writeFails e = false ∧ (s.shared.written ≤ number ∨ copy = s.shared.stored)

/-- `remove_torrent` changes no record where it goes on to `delete_data`: the torrent whose
data are deleted is recorded as stopped, or is gone already where its entry is dropped. -/
structure DeletesQuietly (s : GuiState) (e : GuiEvent) : Prop where
  stopped : ∀ p ∈ stepping s e, p.stage = .removing .dataOnly →
    ∀ d ∈ s.shared.torrents p.id, d.record.status = .stopped
  gone : ∀ p ∈ stepping s e, ∀ mode record, mode ≠ .list → p.stage = .dropping mode record →
    s.shared.torrents p.id = none

/-- What `restore` changes in the file's records is not seen through `f`. -/
def Restores (f : Record → Record) (stored : String → Option Record) : Prop :=
  ∀ id, ∀ r ∈ stored id, f (restoreRecord r) = f r

variable {platform : Platform} {c c' : App} {p p' : Task} {e : TaskEvent}

/-- A handle that keeps its record leaves the records as they are. -/
theorem App.records_modify {id : String} {f : Handle → Handle}
    (hf : ∀ d ∈ c.torrents id, (f d).record = d.record) : (c.modify id f).records = c.records := by
  ext1 id'
  by_cases hid : id' = id
  · subst hid
    rw [App.records, App.torrents_modify_self, App.records]
    cases hd : c.torrents id' with
    | none => rfl
    | some d => exact congrArg some (hf d hd)
  · rw [App.records, App.torrents_modify_of_ne hid, App.records]

/-- A pipeline that may fail has nothing to write. -/
theorem writer_of_canFail {x : Writer (String → Option Record)} {stage : Stage}
    (h : Task.canFail stage = true) : stage.writerWith x = .idle := by
  cases stage <;> first | rfl | cases h

/-- A task that comes to `delete_data` has changed no record, when it deletes quietly. -/
theorem Task.Step.records_of_deleting {s : GuiState} {k : Nat}
    (h : Step platform s.shared p e c' p') (hp : s.procs[k]? = some p)
    (hok : DeletesQuietly s (.proc k e)) {record : Record} (hs' : p'.stage = .deleting record) :
    c'.records = s.shared.records := by
  cases h with
  | removed mode d hs hd =>
    cases mode with
    | dataOnly =>
      have hstopped := hok.stopped p hp hs
      refine (App.records_modify fun d' hd' => ?_).trans (App.records_signal ..)
      rw [App.torrents_signal] at hd'
      rw [Handle.remove, if_pos rfl, ← hstopped d' hd']
    | list => cases hs'
    | listAndData => cases hs'
  | dropped mode record' hs =>
    have hgone : mode ≠ .list → s.shared.torrents p.id = none :=
      fun hm => hok.gone p hp mode record' hm hs
    cases mode with
    | list => cases hs'
    | listAndData | dataOnly =>
      have hnone := hgone (by simp)
      ext1 id
      rw [App.records, App.records, App.remove, ← hnone, Function.update_eq_self]
  | wrote _ _ next => cases next <;> cases hs'
  | notWritten _ _ next => cases next <;> cases hs'
  | unanswered _ _ _ _ hs => cases hs.symm.trans hs'
  | sessionEnded hs => cases hs.symm.trans hs'
  | _ => cases hs'

/-- What a task does to the registry and the file: nothing; it changes the registry and has
still to copy it; it takes a copy; or it writes the copy it has. A task in `delete_data` has
the copy to take, or has changed nothing. -/
theorem Task.Step.persist {x : Writer (String → Option Record)} (h : Step platform c p e c' p')
    (hx : x = .dirty ∨
      x = .idle ∧ ∀ record, p'.stage = .deleting record → c'.records = c.records) :
    (p.stage.writerWith x = .idle ∧ p'.stage.writerWith x = .idle ∧
        c'.records = c.records ∧ c'.stored = c.stored ∧
        c'.copies = c.copies ∧ c'.written = c.written) ∨
    ((∀ copy number, p.stage.writerWith x ≠ .holding copy number) ∧
        p'.stage.writerWith x = .dirty ∧
        c'.stored = c.stored ∧ c'.copies = c.copies ∧ c'.written = c.written) ∨
    (p.stage.writerWith x = .dirty ∧ p'.stage.writerWith x = .holding c.records (c.copies + 1) ∧
        c' = { c with copies := c.copies + 1 }) ∨
    ∃ copy number, p.stage.writerWith x = .holding copy number ∧ p'.stage.writerWith x = .idle ∧
      (e = .written true ∧ c' = { c with stored := copy, written := max c.written number } ∨
        e = .written false ∧ c' = c) := by
  have hdeletes : ∀ record, p.stage.writerWith x = .idle → p'.stage = .deleting record →
      c'.stored = c.stored → c'.copies = c.copies → c'.written = c.written →
      (p.stage.writerWith x = .idle ∧ p'.stage.writerWith x = .idle ∧
        c'.records = c.records ∧ c'.stored = c.stored ∧
        c'.copies = c.copies ∧ c'.written = c.written) ∨
      (∀ copy number, p.stage.writerWith x ≠ .holding copy number) ∧
        p'.stage.writerWith x = .dirty ∧
        c'.stored = c.stored ∧ c'.copies = c.copies ∧ c'.written = c.written := by
    intro record hp hp' hst hc hw
    have hx' : p'.stage.writerWith x = x := by rw [hp']; rfl
    rcases hx with rfl | ⟨rfl, hsame⟩
    · exact .inr ⟨by rw [hp]; nofun, hx', hst, hc, hw⟩
    · exact .inl ⟨hp, hx', hsame record hp', hst, hc, hw⟩
  cases h with
  | signalled _ _ hs =>
    refine .inl ⟨by rw [hs]; rfl, rfl, App.records_signal .., App.stored_signal ..,
      App.copies_signal .., App.written_signal ..⟩
  | statusSet _ _ hs => exact .inr (.inl ⟨by rw [hs]; nofun, rfl, rfl, rfl, rfl⟩)
  | copied _ hs => exact .inr (.inr (.inl ⟨by rw [hs]; rfl, rfl, rfl⟩))
  | wrote copy number next hs =>
    refine .inr (.inr (.inr ⟨copy, number, by rw [hs]; rfl, ?_, .inl ⟨rfl, rfl⟩⟩))
    cases next <;> rfl
  | notWritten copy number next hs =>
    refine .inr (.inr (.inr ⟨copy, number, by rw [hs]; rfl, ?_, .inr ⟨rfl, rfl⟩⟩))
    cases next <;> rfl
  | removed mode d hs =>
    have hkeep : mode ≠ .dataOnly →
        ((c.signal p.id .cancelled).modify p.id (Handle.remove mode)).records = c.records := by
      intro hm
      rw [App.records_modify fun d _ => if_neg hm, App.records_signal]
    cases mode with
    | dataOnly =>
      exact (hdeletes _ (by rw [hs]; rfl) rfl (App.stored_signal ..) (App.copies_signal ..)
        (App.written_signal ..)).imp_right .inl
    | list =>
      exact .inl ⟨by rw [hs]; rfl, rfl, hkeep nofun, App.stored_signal .., App.copies_signal ..,
        App.written_signal ..⟩
    | listAndData =>
      exact .inl ⟨by rw [hs]; rfl, rfl, hkeep nofun, App.stored_signal .., App.copies_signal ..,
        App.written_signal ..⟩
  | dropped mode _ hs =>
    cases mode with
    | list => exact .inr (.inl ⟨by rw [hs]; nofun, rfl, rfl, rfl, rfl⟩)
    | listAndData => exact (hdeletes _ (by rw [hs]; rfl) rfl rfl rfl rfl).imp_right .inl
    | dataOnly => exact (hdeletes _ (by rw [hs]; rfl) rfl rfl rfl rfl).imp_right .inl
  | deleted _ hs =>
    refine .inr (.inl ⟨?_, rfl, rfl, rfl, rfl⟩)
    rw [hs]
    rcases hx with rfl | ⟨rfl, -⟩ <;> nofun
  | added _ hs => exact .inr (.inl ⟨by rw [hs]; nofun, rfl, rfl, rfl, rfl⟩)
  | finished _ hs => exact .inr (.inl ⟨by rw [hs]; nofun, rfl, rfl, rfl, rfl⟩)
  | failed _ hs => exact .inl ⟨writer_of_canFail hs, rfl, rfl, rfl, rfl, rfl⟩
  | unanswered _ _ _ _ hs =>
    have hidle : p.stage.writerWith x = .idle := by rw [hs]; rfl
    exact .inl ⟨hidle, hidle, rfl, rfl, rfl, rfl⟩
  | sessionEnded hs =>
    have hidle : p.stage.writerWith x = .idle := by rw [hs]; rfl
    exact .inl ⟨hidle, hidle, rfl, rfl, rfl, rfl⟩
  | published _ _ _ _ _ _ hs =>
    exact .inl ⟨by rw [hs]; rfl, rfl, App.records_modify fun d _ => rfl, rfl, rfl, rfl⟩
  | _ => exact .inl ⟨by simp_all [Stage.writerWith], rfl, rfl, rfl, rfl, rfl⟩

/-! ## The registry and its file as a store of snapshots -/

/-- Replacing a task replaces its writer. -/
theorem writer_set {x : Writer (String → Option Record)} {launch k : Nat} {l : List Task}
    (p' : Task) (hp : l[k]? = some p) (hl : p.launch = launch) (hl' : p'.launch = launch) :
    (l.map (Task.writer x launch))[k]? = some (p.stage.writerWith x) ∧
      (l.set k p').map (Task.writer x launch) =
        (l.map (Task.writer x launch)).set k (p'.stage.writerWith x) := by
  constructor
  · rw [List.getElem?_map, hp, Option.map_some, Task.writer, if_pos hl]
  · rw [List.map_set, Task.writer, if_pos hl']

/-- Through `f`, what `restore` makes of the file is the file. -/
theorem restore_agree {f : Record → Record} {stored : String → Option Record}
    (h : Restores f stored) (id : String) :
    (stored id).map f = ((restore stored id).map Handle.record).map f := by
  rw [restore]
  cases hr : stored id with
  | none => rfl
  | some r => exact congrArg some (h id r hr).symm

section Snapshots

variable {x : Writer (String → Option Record)}

/-- A new task has nothing to write. -/
theorem snapshot_command (s : GuiState) (command : Command) :
    GuiState.snapshot x ⟨{ s.shared with spawned := s.shared.spawned + 1 },
        s.procs ++ [command.task s.shared]⟩ =
      { s.snapshot x with writers := (s.snapshot x).writers ++ [.idle] } := by
  have hnew : (command.task s.shared).writer x s.shared.launch = .idle := by
    rw [Task.writer]
    cases command <;> exact if_pos rfl
  rw [← hnew]
  simp only [GuiState.snapshot, List.map_append, List.map_singleton]
  rfl

/-- A launch forgets what the tasks before it were about to write. -/
theorem snapshot_relaunch {s : GuiState} (hn : Numbered s) :
    GuiState.snapshot x ⟨s.shared.relaunch, s.procs⟩ =
      ⟨s.shared.relaunch.records, s.shared.stored, s.shared.copies + 1, s.shared.copies + 1,
        (s.snapshot x).writers.map fun _ => .idle⟩ := by
  have hwriters : s.procs.map (Task.writer x s.shared.relaunch.launch) =
      (s.snapshot x).writers.map fun _ => .idle := by
    rw [GuiState.snapshot, List.map_map]
    exact List.map_congr_left fun q hq => if_neg (hn.launch_ne hq)
  rw [← hwriters]
  rfl

/-- A copy is held whether or not `delete_data` counts. -/
theorem Stage.holding_of_writerWith {stage : Stage} {copy : String → Option Record} {number : Nat}
    (hx : x = .dirty ∨ x = .idle) (h : stage.writerWith x = .holding copy number) :
    stage.writer = .holding copy number := by
  cases stage with
  | deleting => rcases hx with rfl | rfl <;> cases h
  | writing => exact h
  | _ => cases h

/-- A step of a task is one that a store of snapshots allows. -/
theorem Task.Step.snapshot {f : Record → Record} {s : GuiState} {k : Nat}
    (h : Step platform s.shared p e c' p') (hp : s.procs[k]? = some p)
    (hl : p.launch = s.shared.launch) (hok : InOrder s (.proc k e))
    (hx : x = .dirty ∨ x = .idle ∧ DeletesQuietly s (.proc k e)) :
    Snapshot.Step (Agree f) (s.snapshot x) (GuiState.snapshot x ⟨c', s.procs.set k p'⟩) := by
  obtain ⟨hw, hset⟩ := writer_set (x := x) p' hp hl (h.launch.2.trans hl)
  have hsnapshot : GuiState.snapshot x ⟨c', s.procs.set k p'⟩ =
      ⟨c'.records, c'.stored, c'.copies, c'.written,
        (s.snapshot x).writers.set k (p'.stage.writerWith x)⟩ := by
    rw [GuiState.snapshot, h.launch.1, hset]
    rfl
  rw [hsnapshot]
  have hquiet : x = .dirty ∨ x = .idle ∧
      ∀ record, p'.stage = .deleting record → c'.records = s.shared.records :=
    hx.imp_right fun ⟨hidle, hq⟩ => ⟨hidle, fun _ hs' => h.records_of_deleting hp hq hs'⟩
  rcases h.persist hquiet with ⟨hp₁, hp₂, hr, hst, hc, hwr⟩ | ⟨hfree, hp₂, hst, hc, hwr⟩ |
    ⟨hp₁, hp₂, rfl⟩ | ⟨copy, number, hp₁, hp₂, he⟩
  · have hsame : (s.snapshot x).writers.set k (p'.stage.writerWith x) =
        (s.snapshot x).writers := by
      obtain ⟨hlt, hget⟩ := List.getElem?_eq_some_iff.mp hw
      rw [hp₂, ← hp₁, ← hget]
      exact List.set_getElem_self hlt
    rw [hsame, hr, hst, hc, hwr]
    exact .stay
  · rw [hp₂, hst, hc, hwr]
    exact .change k _ _ hw hfree
  · rw [hp₂]
    rw [hp₁] at hw
    exact .take k hw
  · obtain ⟨hsucceeds, horder⟩ :=
      hok p hp copy number (Stage.holding_of_writerWith (hx.imp_right And.left) hp₁)
    rw [hp₁] at hw
    rcases he with ⟨-, rfl⟩ | ⟨rfl, -⟩
    · rw [hp₂]
      exact .write k copy number hw horder
    · cases hsucceeds

/-- The GUI does to the registry and the file what a store of snapshots allows. -/
theorem GuiStep.snapshot {f : Record → Record} {s s' : GuiState} {e : GuiEvent}
    (h : GuiStep platform s e s') (hn : Numbered s) (hok : InOrder s e)
    (hx : x = .dirty ∨ x = .idle ∧ DeletesQuietly s e)
    (hrestore : e = .env .relaunch → Restores f s.shared.stored) :
    Snapshot.Step (Agree f) (s.snapshot x) (s'.snapshot x) := by
  cases h with
  | command command =>
    rw [snapshot_command]
    exact .join
  | task k p p' c' e hp hl h => exact h.snapshot hp hl hok hx
  | relaunch =>
    have hagree : Agree f s.shared.stored s.shared.relaunch.records :=
      restore_agree (hrestore rfl)
    rw [snapshot_relaunch hn]
    exact .restart _ hagree

end Snapshots

/-! ## At rest -/

variable {stored : String → Option Record}

/-- What a run needs for the file to keep up with the registry, seen through `f`. -/
def KeepsUp (f : Record → Record) (s : GuiState) (e : GuiEvent) : Prop :=
  InOrder s e ∧ (e = .env .relaunch → Restores f s.shared.stored)

/-- In every run that keeps up, file and registry are in step. -/
theorem snapshot_synced {x : Writer (String → Option Record)} {f : Record → Record}
    (hstored : Restores f stored) {ok : GuiState → GuiEvent → Prop}
    (hok : ∀ s e, ok s e → KeepsUp f s e ∧ (x = .dirty ∨ x = .idle ∧ DeletesQuietly s e))
    {run : GuiRun} {s : GuiState} (hr : (guiSystem platform stored).HistoryWhere ok run s) :
    (s.snapshot x).Synced (Agree f) := by
  refine hr.state_invariant (P := fun s => (s.snapshot x).Synced (Agree f)) ?_ ?_
  · constructor
    · intro copy number hm
      cases hm
    · exact le_rfl
    · intro _ copy hm
      cases hm
    · refine fun _ => .inl ⟨fun id => ?_, rfl⟩
      exact restore_agree hstored id
  · intro s e s' hreach hs hstep h
    obtain ⟨⟨horder, hrestore⟩, hx⟩ := hok s e hstep
    refine ((gui_step_cases h).snapshot (numbered hreach) horder hx hrestore).synced ?_ hs
    exact fun v id => rfl

/-- When no task has anything to write the store of snapshots is at rest. -/
theorem snapshot_atRest {x : Writer (String → Option Record)} {s : GuiState}
    (h : ∀ q ∈ s.procs, q.launch = s.shared.launch → q.stage.writerWith x = .idle) :
    (s.snapshot x).AtRest := by
  intro w hw
  obtain ⟨q, hq, rfl⟩ := List.mem_map.mp hw
  rw [Task.writer]
  split
  · exact h q hq ‹_›
  · rfl

/-- A task that does not persist has nothing to write, `delete_data` apart. -/
theorem Stage.idle_of_not_persists {stage : Stage} (h : stage.persists = false) :
    stage.writerWith .idle = .idle := by
  cases stage <;> first | rfl | cases h

/-- What a run needs for the file to have the records of the registry whenever no `persist`
is in progress. -/
def KeepsRecords (s : GuiState) (e : GuiEvent) : Prop := KeepsUp id s e ∧ DeletesQuietly s e

/-- Whenever no `persist` is in progress, the file has the records of the registry, if copies
are written in the order they were taken, no launch finds records that `restore` changes,
and data are deleted only where that changes no record. -/
theorem persisted_at_rest (hstored : Restores id stored) {run : GuiRun} {s : GuiState}
    (hr : (guiSystem platform stored).HistoryWhere KeepsRecords run s) (hrest : NonePersists s) :
    s.shared.stored = s.shared.records := by
  have hsynced : (s.snapshot .idle).Synced (Agree id) :=
    snapshot_synced hstored (fun _ _ h => ⟨h.1, .inr ⟨rfl, h.2⟩⟩) hr
  have hidle : (s.snapshot .idle).AtRest :=
    snapshot_atRest fun q hq hl => Stage.idle_of_not_persists (hrest q hq hl)
  ext1 i
  have hagree := hsynced.atRest hidle i
  rwa [Option.map_id, id, id] at hagree

/-! ## Two commands whose writes overlap -/

instance {α : Type} (w : Writer α) : Decidable (w = .idle) :=
  match w with
  | .idle => .isTrue rfl
  | .dirty => .isFalse nofun
  | .holding _ _ => .isFalse nofun

instance (s : GuiState) : Decidable (AtRest s) :=
  inferInstanceAs (Decidable (∀ q ∈ s.procs, _ → _))

/-- The number of the copy a task is about to write. -/
def Stage.copyNumber : Stage → Option Nat
  | .writing _ number _ => some number
  | _ => none

/-- A step within one launch whose write succeeds, and is not of an older copy. -/
def keepsUpCheck (s : GuiState) : GuiEvent → Bool
  | .env _ => false
  | e => (stepping s e).all fun p =>
    !writeFails e && p.stage.copyNumber.all fun number => decide (s.shared.written ≤ number)

/-- The number of a copy that is held. -/
theorem Stage.copyNumber_of_writer {stage : Stage} {copy : String → Option Record} {number : Nat}
    (h : stage.writer = .holding copy number) : stage.copyNumber = some number := by
  cases stage with
  | writing => exact congrArg some (Writer.holding.inj h).2
  | _ => cases h

/-- The check implies `KeepsUp`. -/
theorem keepsUp_of_check {f : Record → Record} {s : GuiState} {e : GuiEvent}
    (h : keepsUpCheck s e = true) : KeepsUp f s e := by
  constructor
  · intro p hp copy number hw
    have hcheck : (stepping s e).all (fun p => !writeFails e &&
        p.stage.copyNumber.all fun number => decide (s.shared.written ≤ number)) = true := by
      cases e <;> first | exact h | cases h
    rw [Option.mem_def.mp hp, Option.all_some, Stage.copyNumber_of_writer hw, Option.all_some,
      Bool.and_eq_true] at hcheck
    exact ⟨by simpa using hcheck.1, .inl (of_decide_eq_true hcheck.2)⟩
  · rintro rfl
    cases h

instance (s : GuiState) : Decidable (NonePersists s) :=
  inferInstanceAs (Decidable (∀ q ∈ s.procs, _ → _))

/-- A check that implies `DeletesQuietly`. -/
def deletesQuietly (s : GuiState) (e : GuiEvent) : Bool :=
  (stepping s e).all fun p =>
    match p.stage with
    | .removing .dataOnly =>
      (s.shared.torrents p.id).all fun d => decide (d.record.status = .stopped)
    | .dropping mode _ => decide (mode = .list)
    | _ => true

/-- The check implies `DeletesQuietly`. -/
theorem DeletesQuietly.of_check {s : GuiState} {e : GuiEvent} (h : deletesQuietly s e = true) :
    DeletesQuietly s e := by
  constructor
  · intro p hp hs d hd
    have hp : stepping s e = some p := hp
    have hd : s.shared.torrents p.id = some d := hd
    simpa [deletesQuietly, hp, hs, hd] using h
  · intro p hp mode record hm hs
    have hp : stepping s e = some p := hp
    simp only [deletesQuietly, hp, hs, Option.all_some, decide_eq_true_eq] at h
    exact absurd h hm

/-- Both checks together imply `KeepsRecords`. -/
theorem KeepsRecords.of_check {s : GuiState} {e : GuiEvent}
    (h : (keepsUpCheck s e && deletesQuietly s e) = true) : KeepsRecords s e := by
  obtain ⟨hkeeps, hdeletes⟩ := (Bool.and_eq_true _ _).mp h
  exact ⟨keepsUp_of_check hkeeps, .of_check hdeletes⟩

/-- Task `k` deletes the data of the torrent, and has come to `delete_data`. -/
def traceDelete (k : Nat) : List GuiEvent :=
  [.spawn (.removeTorrent "1" .dataOnly), .proc k .proceed]

/-- A torrent is downloaded, cancelled and stopped, and its data are being deleted: the file
has its record as the registry has it. -/
theorem persisted_while_deleting : ∃ run s, freshGui.HistoryWhere KeepsRecords run s ∧
    NonePersists s ∧ (∃ p ∈ s.procs[2]?, p.stage matches .deleting _) ∧
    (∃ r ∈ s.shared.stored "1", r.status = .stopped) ∧ s.shared.stored = s.shared.records := by
  obtain ⟨run, s, hr, hrest, hdeleting, hs⟩ := System.HistoryWhere.exists_of_execWhile freshGui
    (P := fun s => NonePersists s ∧ (∃ p ∈ s.procs[2]?, p.stage matches .deleting _) ∧
      ∃ r ∈ s.shared.stored "1", r.status = .stopped)
    (fun s e => keepsUpCheck s e && deletesQuietly s e) (fun _ _ => KeepsRecords.of_check)
    (List.flatten [traceAdd 0, traceRun 0, traceCancel 1, traceEnd 0 false, traceDelete 2])
    (by decide +kernel)
  have hempty : Restores id fun _ => none := fun i r hr => by cases hr
  exact ⟨run, s, hr, hrest, hdeleting, hs, persisted_at_rest hempty hr hrest⟩

/-- Task `k` pauses the torrent and takes its copy of the registry. -/
def tracePauseCopy (k : Nat) : List GuiEvent :=
  [.spawn (.pauseDownload "1"), .proc k .proceed, .proc k .proceed, .proc k .proceed]

/-- Task `k` removes the torrent and its data, and has come to `delete_data`. -/
def traceRemoveData (k : Nat) : List GuiEvent :=
  [.spawn (.removeTorrent "1" .listAndData), .proc k .proceed, .proc k .proceed]

/-- The copy that was taken first is written last, and the file is left behind; and while the
data of a removed torrent are deleted, the file has the torrent still. -/
theorem persist_overtaken :
    (∃ run s, freshGui.History run s ∧ (∀ t ∈ run, writeFails t.event = false) ∧
      NonePersists s ∧ s.shared.stored "1" ≠ s.shared.records "1") ∧
    ∃ run s, freshGui.History run s ∧ (∀ t ∈ run, writeFails t.event = false) ∧
      NonePersists s ∧ (s.shared.stored "1").isSome ∧ s.shared.records "1" = none := by
  constructor
  · obtain ⟨s, hr, hs⟩ := System.History.exists_of_exec freshGui
      (P := fun s => NonePersists s ∧ s.shared.stored "1" ≠ s.shared.records "1")
      (traceAdd 0 ++ tracePauseCopy 1 ++ traceCancel 2 ++ [.proc 1 (.written true)])
      (by decide +kernel)
    exact ⟨_, s, hr, by decide +kernel, hs⟩
  · obtain ⟨s, hr, hs⟩ := System.History.exists_of_exec freshGui
      (P := fun s => NonePersists s ∧ (s.shared.stored "1").isSome ∧ s.shared.records "1" = none)
      (traceAdd 0 ++ traceRemoveData 1) (by decide +kernel)
    exact ⟨_, s, hr, by decide +kernel, hs⟩

end Torrentina.Gui
