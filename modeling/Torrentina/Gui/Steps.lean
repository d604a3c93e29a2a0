import Torrentina.Gui.Registry

/-!
# What one step of a task can do

`Task.Step` lists every transition of a task with its guard and its successor.
Every successful call of `Task.step` is one of them, so what commands and
pipelines keep is proved by cases on `Task.Step`.
-/

namespace Torrentina.Gui

open Torrentina.Core Download Tracker

namespace App

variable (c : App) (id : String) (control : ControlState)

/-- A signal only touches the control channels. -/
theorem signal_eq :
    c.signal id control = { c with controls := (c.signal id control).controls } := by
  unfold signal
  split <;> rfl

@[simp] theorem torrents_signal : (c.signal id control).torrents = c.torrents := by
  rw [signal_eq]

@[simp] theorem stored_signal : (c.signal id control).stored = c.stored := by
  rw [signal_eq]

@[simp] theorem launch_signal : (c.signal id control).launch = c.launch := by
  rw [signal_eq]

@[simp] theorem spawned_signal : (c.signal id control).spawned = c.spawned := by
  rw [signal_eq]

@[simp] theorem copies_signal : (c.signal id control).copies = c.copies := by
  rw [signal_eq]

@[simp] theorem written_signal : (c.signal id control).written = c.written := by
  rw [signal_eq]

@[simp] theorem latest_signal : (c.signal id control).latest = c.latest := by
  rw [signal_eq]

@[simp] theorem records_signal : (c.signal id control).records = c.records := by
  ext1 id'
  rw [records, records, torrents_signal]

@[simp] theorem torrents_remove_self : (c.remove id).torrents id = none := Function.update_self ..

@[simp] theorem torrents_insert_self (h : Handle) : (c.insert id h).torrents id = some h :=
  Function.update_self ..

/-- Modifying an entry applies the change to it. -/
theorem torrents_modify_self (f : Handle → Handle) :
    (c.modify id f).torrents id = (c.torrents id).map f :=
  Function.update_self ..

variable {c id}

/-- Modifying an entry leaves the others alone. -/
theorem torrents_modify_of_ne {id' : String} (h : id' ≠ id) (f : Handle → Handle) :
    (c.modify id f).torrents id' = c.torrents id' :=
  Function.update_of_ne h ..

/-- An entry that is there is changed. -/
theorem torrents_modify_of_eq_some {h : Handle} (hc : c.torrents id = some h)
    (f : Handle → Handle) : (c.modify id f).torrents id = some (f h) := by
  rw [torrents_modify_self, hc, Option.map_some]

/-- An entry that is not there is not made. -/
theorem torrents_modify_of_eq_none (hc : c.torrents id = none) (f : Handle → Handle) :
    (c.modify id f).torrents id = none := by
  rw [torrents_modify_self, hc, Option.map_none]

/-- What an entry was before some entry was modified. -/
theorem torrents_modify_eq_some {f : Handle → Handle} {id' : String} {h' : Handle}
    (ht : (c.modify id f).torrents id' = some h') :
    ∃ h, c.torrents id' = some h ∧ h' = if id' = id then f h else h := by
  by_cases hid : id' = id
  · subst hid
    rw [torrents_modify_self] at ht
    obtain ⟨h, hc, rfl⟩ := Option.map_eq_some_iff.mp ht
    exact ⟨h, hc, (if_pos rfl).symm⟩
  · rw [torrents_modify_of_ne hid] at ht
    exact ⟨h', ht, (if_neg hid).symm⟩

end App

namespace Task

/-- The stages an error of a pipeline is returned from. -/
def canFail (stage : Stage) : Bool :=
  match stage with
  | .parsing | .announcing _ _ _ | .creating _ _ _ _ | .publishing _ _ _ _ | .running => true
  | _ => false

/-- The transitions of a task. -/
inductive Step (platform : Platform) (c : App) (p : Task) : TaskEvent → App → Task → Prop
  | signalled (control : ControlState) (status : Status)
      (hp : p.stage = .signalling control status) :
      Step platform c p .proceed (c.signal p.id control) (p.at (.settingStatus status .returns))
  | statusSet (status : Status) (next : Next) (hp : p.stage = .settingStatus status next) :
      Step platform c p .proceed (c.modify p.id (Handle.setStatus status)) (p.at (.copying next))
  | copied (next : Next) (hp : p.stage = .copying next) : Step platform c p .proceed
      { c with copies := c.copies + 1 } (p.at (.writing c.records (c.copies + 1) next))
  | wrote (copy : String → Option Record) (number : Nat) (next : Next)
      (hp : p.stage = .writing copy number next) : Step platform c p (.written true)
        { c with stored := copy, written := max c.written number }
        (p.afterPersist c next)
  | notWritten (copy : String → Option Record) (number : Nat) (next : Next)
      (hp : p.stage = .writing copy number next) :
      Step platform c p (.written false) c (p.afterPersist c next)
  | removedUnknown (mode : RemoveMode) (hp : p.stage = .removing mode)
      (hc : c.torrents p.id = none) : Step platform c p .proceed c (p.at (.returned (.ok ())))
  | removed (mode : RemoveMode) (h : Handle) (hp : p.stage = .removing mode)
      (hc : c.torrents p.id = some h) : Step platform c p .proceed
        ((c.signal p.id .cancelled).modify p.id (Handle.remove mode))
        (p.at (mode.afterStop (h.remove mode).record))
  | dropped (mode : RemoveMode) (record : Record) (hp : p.stage = .dropping mode record) :
      Step platform c p .proceed (c.remove p.id) (p.at (mode.afterDrop record))
  | deleted (record : Record) (hp : p.stage = .deleting record) :
      Step platform c p .proceed c (p.at (.copying .returns))
  | startedUnknown (hp : p.stage = .starting) (hc : c.torrents p.id = none) :
      Step platform c p .proceed c (p.at (.returned (.error .unknownTorrent)))
  | startedRunning (h : Handle) (hp : p.stage = .starting) (hc : c.torrents p.id = some h)
      (hr : h.coordinator.isSome = true) :
      Step platform c p .proceed c (p.at (.returned (.error .alreadyRunning)))
  | started (h : Handle) (hp : p.stage = .starting) (hc : c.torrents p.id = some h)
      (hr : h.coordinator = none) : Step platform c p .proceed (c.accept p)
        { p with
          torrent := h.record.torrentPath
          output := h.record.output
          stage := .settingStatus .downloading .spawns }
  | unreadable (r : Except Error (Metainfo × Except Error String)) (err : Error)
      (hp : p.stage = .reading)
      (hr : buildRecord platform r p.torrent p.output .downloading = .error err) :
      Step platform c p (.read r) c (p.at (.returned (.error (.unreadable err))))
  | built (r : Except Error (Metainfo × Except Error String)) (record : Record)
      (hp : p.stage = .reading)
      (hr : buildRecord platform r p.torrent p.output .downloading = .ok record) :
      Step platform c p (.read r) c { p with id := record.id, stage := .inserting record }
  | addedListed (record : Record) (h : Handle) (hp : p.stage = .inserting record)
      (hc : c.torrents p.id = some h) :
      Step platform c p .proceed c (p.at (.returned (.error .alreadyInList)))
  | added (record : Record) (hp : p.stage = .inserting record) (hc : c.torrents p.id = none) :
      Step platform c p .proceed ((c.accept p).insert p.id ⟨none, record⟩) (p.at (.copying .spawns))
  | failed (e : TaskEvent) (hp : canFail p.stage = true) : Step platform c p e c p.fail
  | parsed (r : Except Error (Metainfo × Except Error (List UInt8))) (peerId : List UInt8)
      (m : Metainfo) (infoHash : List UInt8) (hp : p.stage = .parsing)
      (hr : prepare r = .ok (m, infoHash)) :
      Step platform c p (.parsed r peerId) c (p.at (.announcing m infoHash peerId))
  | unanswered (r : Except Error AnnounceResponse) (m : Metainfo) (infoHash peerId : List UInt8)
      (hp : p.stage = .announcing m infoHash peerId) : Step platform c p (.reply r) c p
  | announced (response : AnnounceResponse) (m : Metainfo) (infoHash peerId : List UInt8)
      (hp : p.stage = .announcing m infoHash peerId) (hr : gatherPeers response.peers ≠ []) :
      Step platform c p (.reply (.ok response)) c
        (p.at (.creating m infoHash peerId (gatherPeers response.peers)))
  | created (m : Metainfo) (infoHash peerId : List UInt8) (peers : List SocketAddr)
      (hp : p.stage = .creating m infoHash peerId peers) :
      Step platform c p (.created (.ok ())) c (p.at (.publishing m infoHash peerId peers))
  | abandoned (m : Metainfo) (infoHash peerId : List UInt8) (peers : List SocketAddr)
      (hp : p.stage = .publishing m infoHash peerId peers) (hc : c.torrents p.id = none) :
      Step platform c p .proceed c (p.at .ended)
  | published (m : Metainfo) (infoHash peerId : List UInt8) (peers : List SocketAddr)
      (coordinator : Coordinator) (h : Handle) (hp : p.stage = .publishing m infoHash peerId peers)
      (hn : Coordinator.new m.info infoHash peerId = .ok coordinator)
      (hc : c.torrents p.id = some h) : Step platform c p .proceed
        { c.modify p.id (Handle.publish p.number) with
          controls := Function.update c.controls p.number coordinator.control }
        (p.at (.published peers))
  | began (peers : List SocketAddr) (hp : p.stage = .published peers) :
      Step platform c p .proceed (c.run p.number peers) (p.at .running)
  | sessionEnded (hp : p.stage = .running) (hr : (c.controls p.number).receivers ≠ 0) :
      Step platform c p .sessionEnded
        { c with
          controls := Function.update c.controls p.number (c.controls p.number).unsubscribe } p
  | joined (complete : Bool) (hp : p.stage = .running)
      (hr : (c.controls p.number).receivers = 0) : Step platform c p (.joined (.ok ()) complete) c
        (p.at (.finishing (finalStatus complete (c.controls p.number).value)))
  | finished (status : Status) (hp : p.stage = .finishing status) : Step platform c p .proceed
      (c.modify p.id (Handle.finish status)) (p.at (.copying .ends))

/-- Only the tasks of the current launch take steps, and `Step` says what they do. -/
theorem step_cases {platform : Platform} {c c' : App} {p p' : Task} {e : TaskEvent}
    (h : p.step platform c e = some (c', p')) :
    p.launch = c.launch ∧ Step platform c p e c' p' := by
  unfold Task.step at h
  split at h
  · cases h
  rename_i hlaunch
  refine ⟨not_not.mp hlaunch, ?_⟩
  split at h <;> rename_i hp
  · cases h
    exact .signalled _ _ hp
  · cases h
    exact .statusSet _ _ hp
  · cases h
    exact .copied _ hp
  · rename_i ok
    cases ok with
    | true =>
      cases h
      exact .wrote _ _ _ hp
    | false =>
      cases h
      exact .notWritten _ _ _ hp
  · split at h <;> rename_i hc
    · cases h
      exact .removedUnknown _ hp hc
    · cases h
      exact .removed _ _ hp hc
  · cases h
    exact .dropped _ _ hp
  · cases h
    exact .deleted _ hp
  · split at h <;> rename_i hc
    · cases h
      exact .startedUnknown hp hc
    · split at h <;> rename_i hr
      · cases h
        exact .startedRunning _ hp hc hr
      · cases h
        exact .started _ hp hc (by simpa using hr)
  · split at h <;> rename_i hr
    · cases h
      exact .unreadable _ _ hp hr
    · cases h
      exact .built _ _ hp hr
  · split at h <;> rename_i hc
    · cases h
      exact .addedListed _ _ hp hc
    · cases h
      exact .added _ hp hc
  · split at h <;> rename_i hr
    · cases h
      exact .failed _ (by rw [hp]; rfl)
    · cases h
      exact .parsed _ _ _ _ hp hr
  · split at h <;> rename_i hr
    · cases h
      exact .unanswered _ _ _ _ hp
    · cases h
      exact .announced _ _ _ _ hp hr
  · cases h
    exact .unanswered _ _ _ _ hp
  · cases h
    exact .failed _ (by rw [hp]; rfl)
  · cases h
    exact .created _ _ _ _ hp
  · cases h
    exact .failed _ (by rw [hp]; rfl)
  · split at h <;> rename_i hn
    · cases h
      exact .failed _ (by rw [hp]; rfl)
    · split at h <;> rename_i hc
      · cases h
        exact .abandoned _ _ _ _ hp hc
      · cases h
        exact .published _ _ _ _ _ _ hp hn hc
  · cases h
    exact .began _ hp
  · split at h <;> rename_i hr
    · cases h
    · cases h
      exact .sessionEnded hp hr
  · split at h <;> rename_i hr
    · cases h
    · split at h
      · cases h
        exact .failed _ (by rw [hp]; rfl)
      · cases h
        exact .joined _ hp (not_not.mp hr)
  · cases h
    exact .finished _ hp
  · cases h

/-! ## What a step leaves alone -/

section AfterPersist

variable (c : App) (p : Task) (next : Next)

@[simp] theorem launch_afterPersist : (p.afterPersist c next).launch = p.launch := by
  cases next <;> rfl

@[simp] theorem number_afterPersist : (p.afterPersist c next).number = p.number := by
  cases next <;> rfl

@[simp] theorem command_afterPersist : (p.afterPersist c next).command = p.command := by
  cases next <;> rfl

@[simp] theorem id_afterPersist : (p.afterPersist c next).id = p.id := by
  cases next <;> rfl

end AfterPersist

variable {platform : Platform} {c c' : App} {p p' : Task} {e : TaskEvent}

namespace Step

/-- A task runs within one launch of the app. -/
theorem launch (h : Step platform c p e c' p') : c'.launch = c.launch ∧ p'.launch = p.launch := by
  cases h with
  | wrote => exact ⟨rfl, launch_afterPersist ..⟩
  | notWritten => exact ⟨rfl, launch_afterPersist ..⟩
  | signalled => exact ⟨App.launch_signal .., rfl⟩
  | removed => exact ⟨App.launch_signal .., rfl⟩
  | _ => exact ⟨rfl, rfl⟩

/-- A task keeps its number and its command. -/
theorem number (h : Step platform c p e c' p') :
    c'.spawned = c.spawned ∧ p'.number = p.number ∧ p'.command = p.command := by
  cases h with
  | wrote => exact ⟨rfl, number_afterPersist .., command_afterPersist ..⟩
  | notWritten => exact ⟨rfl, number_afterPersist .., command_afterPersist ..⟩
  | signalled => exact ⟨App.spawned_signal .., rfl, rfl⟩
  | removed => exact ⟨App.spawned_signal .., rfl, rfl⟩
  | _ => exact ⟨rfl, rfl, rfl⟩

/-- The id of a task is fixed once the torrent file is read. -/
theorem id (h : Step platform c p e c' p') : p'.id = p.id ∨ p.stage = .reading := by
  cases h with
  | built _ _ hp => exact .inr hp
  | wrote => exact .inl (id_afterPersist ..)
  | notWritten => exact .inl (id_afterPersist ..)
  | _ => exact .inl rfl

/-- A task changes no entry but that of its id. -/
theorem torrents_of_ne (h : Step platform c p e c' p') {id : String} (hid : id ≠ p.id) :
    c'.torrents id = c.torrents id := by
  cases h with
  | signalled => rw [App.torrents_signal]
  | statusSet => exact App.torrents_modify_of_ne hid _
  | removed => rw [App.torrents_modify_of_ne hid, App.torrents_signal]
  | dropped => exact Function.update_of_ne hid ..
  | added => exact Function.update_of_ne hid ..
  | published => exact App.torrents_modify_of_ne hid _
  | finished => exact App.torrents_modify_of_ne hid _
  | _ => rfl

end Step

end Task

/-! ## Steps of the GUI -/

/-- The task an event is a step of. -/
def stepping (s : GuiState) : GuiEvent → Option Task
  | .proc k _ => s.procs[k]?
  | _ => none

/-- The task that takes the step is one of the tasks. -/
theorem mem_of_mem_stepping {s : GuiState} {e : GuiEvent} {p : Task} (h : p ∈ stepping s e) :
    p ∈ s.procs := by
  cases e with
  | proc k e => exact List.mem_of_getElem? h
  | spawn => cases h
  | env => cases h

/-- The transitions of the GUI. -/
inductive GuiStep (platform : Platform) (s : GuiState) : GuiEvent → GuiState → Prop
  | command (command : Command) : GuiStep platform s (.spawn command)
      ⟨{ s.shared with spawned := s.shared.spawned + 1 }, s.procs ++ [command.task s.shared]⟩
  | task (k : Nat) (p p' : Task) (c' : App) (e : TaskEvent) (hp : s.procs[k]? = some p)
      (hl : p.launch = s.shared.launch) (h : Task.Step platform s.shared p e c' p') :
      GuiStep platform s (.proc k e) ⟨c', s.procs.set k p'⟩
  | relaunch : GuiStep platform s (.env .relaunch) ⟨s.shared.relaunch, s.procs⟩

/-- Every step is one of the transitions. -/
theorem gui_step_cases {platform : Platform} {stored : String → Option Record} {s s' : GuiState}
    {e : GuiEvent} (h : (guiSystem platform stored).step s e = some s') :
    GuiStep platform s e s' := by
  change (gui platform).poolStep s e = some s' at h
  cases e with
  | spawn command =>
    obtain ⟨c', q, hs, rfl⟩ := PoolProgram.poolStep_spawn h
    cases hs
    exact .command command
  | proc k e =>
    obtain ⟨p, c', p', hp, hs, rfl⟩ := PoolProgram.poolStep_proc h
    obtain ⟨hl, hs⟩ := Task.step_cases hs
    exact .task k p p' c' e hp hl hs
  | env e =>
    obtain ⟨c', hs, rfl⟩ := PoolProgram.poolStep_env h
    cases e with
    | relaunch =>
      cases hs
      exact .relaunch

/-- Only tasks of the present launch take steps. -/
theorem GuiStep.launch_of_mem_stepping {platform : Platform} {s s' : GuiState} {e : GuiEvent}
    (h : GuiStep platform s e s') {p : Task} (hp : p ∈ stepping s e) :
    p.launch = s.shared.launch := by
  cases h with
  | command => cases hp
  | relaunch => cases hp
  | task k q q' c' e hq hl h =>
    obtain rfl := Option.some.inj (hq.symm.trans hp)
    exact hl

end Torrentina.Gui
