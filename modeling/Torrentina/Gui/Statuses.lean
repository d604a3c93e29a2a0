import Torrentina.Gui.Endings
import Torrentina.Gui.Persist
import Torrentina.Gui.Stopping

/-!
# Recorded statuses

`set_status` records whatever a command says, whether or not there is a pipeline
to obey it. The status of a torrent agrees with its pipelines as long as no
command records another status while no pipeline of the torrent is under way; a
completed torrent then stays complete, also over a launch that finds the file up
to date.
-/

namespace Torrentina.Gui

open Torrentina.Core Download Tracker

/-- Statuses of a torrent that is being downloaded. -/
def Status.isActive : Status → Bool
  | .downloading | .paused => true
  | _ => false

/-- `pause_download`, `resume_download` and `cancel_download`. -/
def Command.steers : Command → Bool
  | .pauseDownload _ | .resumeDownload _ | .cancelDownload _ => true
  | _ => false

/-- Where these commands can be. -/
def Stage.steering : Stage → Bool
  | .signalling _ _ | .returned _ => true
  | .settingStatus _ next | .copying next | .writing _ _ next => next == .returns
  | _ => false

/-- About to record a deletion of the data, or to drop the entry. -/
def Stage.deletes : Stage → Bool
  | .removing mode => mode == .dataOnly
  | .dropping _ _ => true
  | _ => false

/-- The status a command is about to record. -/
def Stage.commanded : Stage → Option Status
  | .settingStatus status next => if next = .returns then some status else none
  | _ => none

/-- No pipeline of the torrent is under way. -/
def Idle (s : GuiState) (id : String) : Prop := ∀ q ∈ s.procs, ¬ Unfinished s.shared id q

/-- A torrent is recorded as downloading or paused only while a pipeline of it is under way. -/
def StatusAgrees (s : GuiState) : Prop :=
  ∀ id, ∀ d ∈ s.shared.torrents id, d.record.status.isActive = true → ¬ Idle s id

/-- Pausing, resuming or cancelling a torrent without a pipeline leaves its record alone. -/
def LeavesIdle (t : Transition GuiState GuiEvent) : Prop :=
  ∀ p ∈ stepping t.pre t.event, p.command.steers = true → Idle t.pre p.id →
    t.post.shared.records p.id = t.pre.shared.records p.id

/-- A completed torrent without a pipeline stays one, unless it is started again or deleted. -/
def KeepsComplete (t : Transition GuiState GuiEvent) : Prop :=
  ∀ id, ∀ d ∈ t.pre.shared.torrents id, d.record.status = .complete → Idle t.pre id →
    (∃ d' ∈ t.post.shared.torrents id, d'.record.status = .complete ∧ Idle t.post id) ∨
      ∃ p ∈ stepping t.pre t.event, p.id = id ∧
        (Accepts t.pre.shared p ∨ p.stage.deletes = true)

/-- A command records a status while no pipeline of the torrent is under way only if it is
recorded already; copies are written in order; and the app is closed at rest. -/
structure StatusKept (s : GuiState) (e : GuiEvent) : Prop where
  command : ∀ p ∈ stepping s e, ∀ status ∈ p.stage.commanded, Idle s p.id →
    ∀ d ∈ s.shared.torrents p.id, d.record.status = status
  order : InOrder s e
  rest : e = .env .relaunch → AtRest s

/-- `pause_download`, `resume_download` and `cancel_download` come to record their status only
while a pipeline of the torrent is under way. -/
def SteersUnderWay (s : GuiState) (e : GuiEvent) : Prop :=
  ∀ p ∈ stepping s e, p.stage.commanded.isSome → ¬ Idle s p.id

/-- Commands that come while a pipeline is under way need not agree with the record. -/
theorem StatusKept.of_underWay {s : GuiState} {e : GuiEvent} (h : SteersUnderWay s e)
    (horder : InOrder s e) (hrest : e = .env .relaunch → AtRest s) : StatusKept s e where
  command p hp _ hstatus hidle := absurd hidle (h p hp (Option.isSome_of_mem hstatus))
  order := horder
  rest := hrest

/-! ## What one step does to a status -/

namespace Task.Step

variable {platform : Platform} {c c' : App} {p p' : Task} {e : TaskEvent}

/-- The status in an entry is changed by pipelines under way, by adding and by deleting the
torrent, and by the commands. -/
theorem status (h : Step platform c p e c' p') {id : String} {d' : Handle}
    (hd' : c'.torrents id = some d') :
    (∃ d, c.torrents id = some d ∧ d.record.status = d'.record.status) ∨
      id = p.id ∧ (p.stage.unfinished = true ∨ p'.stage.unfinished = true ∨
        (p.stage.deletes = true ∧ d'.record.status = .stopped) ∨
        ∃ d, c.torrents id = some d ∧ p.stage.commanded = some d'.record.status) := by
  by_cases hid : id = p.id
  · subst hid
    cases h with
    | signalled => exact .inl ⟨d', by rwa [App.torrents_signal] at hd', rfl⟩
    | statusSet status next hs =>
      obtain ⟨d, hd, rfl⟩ := App.torrents_modify_eq_some hd'
      rw [if_pos rfl, hs]
      cases next with
      | returns => exact .inr ⟨rfl, .inr (.inr (.inr ⟨d, hd, rfl⟩))⟩
      | spawns => exact .inr ⟨rfl, .inl rfl⟩
      | ends => exact .inr ⟨rfl, .inl rfl⟩
    | removed mode _ hs =>
      obtain ⟨d, hd, rfl⟩ := App.torrents_modify_eq_some hd'
      rw [App.torrents_signal] at hd
      rw [if_pos rfl, hs]
      cases mode with
      | dataOnly => exact .inr ⟨rfl, .inr (.inr (.inl ⟨rfl, rfl⟩))⟩
      | list => exact .inl ⟨d, hd, rfl⟩
      | listAndData => exact .inl ⟨d, hd, rfl⟩
    | dropped =>
      rw [App.torrents_remove_self] at hd'
      cases hd'
    | added => exact .inr ⟨rfl, .inr (.inl rfl)⟩
    | published =>
      obtain ⟨d, hd, rfl⟩ := App.torrents_modify_eq_some hd'
      rw [if_pos rfl]
      exact .inl ⟨d, hd, rfl⟩
    | finished _ hs => exact .inr ⟨rfl, .inl (by rw [hs]; rfl)⟩
    | _ => exact .inl ⟨d', hd', rfl⟩
  · rw [h.torrents_of_ne hid] at hd'
    exact .inl ⟨d', hd', rfl⟩

/-- An entry goes only with the second lock of `remove_torrent`. -/
theorem entry (h : Step platform c p e c' p') {id : String} {d : Handle}
    (hd : c.torrents id = some d) :
    (∃ d', c'.torrents id = some d') ∨ id = p.id ∧ p.stage.deletes = true := by
  by_cases hid : id = p.id
  · subst hid
    cases h with
    | signalled => exact .inl ⟨d, by rwa [App.torrents_signal]⟩
    | statusSet => exact .inl ⟨_, App.torrents_modify_of_eq_some hd _⟩
    | removed =>
      exact .inl ⟨_, App.torrents_modify_of_eq_some (by rwa [App.torrents_signal]) _⟩
    | dropped _ _ hs => exact .inr ⟨rfl, by rw [hs]; rfl⟩
    | added => exact .inl ⟨_, App.torrents_insert_self ..⟩
    | published => exact .inl ⟨_, App.torrents_modify_of_eq_some hd _⟩
    | finished => exact .inl ⟨_, App.torrents_modify_of_eq_some hd _⟩
    | _ => exact .inl ⟨d, hd⟩
  · exact .inl ⟨d, by rwa [h.torrents_of_ne hid]⟩

/-- A pipeline under way stays so until it records how it ended, or finds no entry. -/
theorem unfinished_or (h : Step platform c p e c' p') (hp : p.stage.unfinished = true) :
    p'.stage.unfinished = true ∧ p'.id = p.id ∨ p.stage.ending.isSome = true ∨
      c'.torrents p.id = none := by
  cases h with
  | statusSet _ next hs =>
    rw [hs] at hp ⊢
    cases next with
    | returns => cases hp
    | spawns => exact .inl ⟨rfl, rfl⟩
    | ends => exact .inr (.inl rfl)
  | wrote _ _ next hs =>
    rw [hs] at hp
    cases next with
    | spawns => exact .inl ⟨rfl, rfl⟩
    | returns => cases hp
    | ends => cases hp
  | notWritten _ _ next hs =>
    rw [hs] at hp
    cases next with
    | spawns => exact .inl ⟨rfl, rfl⟩
    | returns => cases hp
    | ends => cases hp
  | copied next hs =>
    rw [hs] at hp
    exact .inl ⟨hp, rfl⟩
  | finished _ hs => exact .inr (.inl (by rw [hs]; rfl))
  | abandoned _ _ _ _ _ hc => exact .inr (.inr hc)
  | failed => exact .inl ⟨rfl, rfl⟩
  | unanswered => exact .inl ⟨hp, rfl⟩
  | sessionEnded => exact .inl ⟨hp, rfl⟩
  | _ => simp_all [Stage.unfinished, Stage.inPipeline, Task.at]

end Task.Step

/-! ## What holds of every task -/

/-- A pipeline ends with a status that is not active, and the commands that steer a
pipeline do nothing else. -/
structure Task.Sane (p : Task) : Prop where
  ending : ∀ status ∈ p.stage.ending, status.isActive = false
  steering : p.command.steers = true → p.stage.steering = true

/-- A pipeline that may fail is no command about to record a status. -/
theorem steering_of_canFail {stage : Stage} (h : Task.canFail stage = true) :
    stage.steering = false := by
  cases stage <;> first | rfl | cases h

/-- A pipeline ends with a status that is not active. -/
theorem finalStatus_not_active (complete : Bool) (control : ControlState) :
    (finalStatus complete control).isActive = false := by
  unfold finalStatus
  split
  · rfl
  · split <;> rfl

variable {platform : Platform} {stored : String → Option Record}

/-- Every step of a task keeps what it is about to record sane. -/
theorem Task.Step.sane {c c' : App} {p p' : Task} {e : TaskEvent}
    (h : Step platform c p e c' p') (hp : p.Sane) : p'.Sane := by
  have hcommand := h.number.2.2
  constructor
  · cases h with
    | joined complete =>
      intro status hstatus
      obtain rfl := Option.some.inj hstatus
      exact finalStatus_not_active _ _
    | failed =>
      intro status hstatus
      obtain rfl := Option.some.inj hstatus
      rfl
    | wrote _ _ next => cases next <;> nofun
    | notWritten _ _ next => cases next <;> nofun
    | removed mode => cases mode <;> nofun
    | dropped mode => cases mode <;> nofun
    | unanswered => exact hp.ending
    | sessionEnded => exact hp.ending
    | _ => nofun
  · intro hs
    rw [hcommand] at hs
    have hold := hp.steering hs
    cases h with
    | wrote _ _ next hs => cases next <;> simp_all [Stage.steering, Task.afterPersist, Task.at]
    | notWritten _ _ next hs =>
      cases next <;> simp_all [Stage.steering, Task.afterPersist, Task.at]
    | failed _ hf =>
      rw [steering_of_canFail hf] at hold
      cases hold
    | _ => simp_all [Stage.steering, Task.at]

/-- What tasks are about to record is sane in every reachable state. -/
theorem sane {s : GuiState} (hr : (guiSystem platform stored).Reachable s) :
    ∀ q ∈ s.procs, q.Sane := by
  refine hr.invariant (P := fun s => ∀ q ∈ s.procs, q.Sane) (fun q hq => ?_) ?_
  · cases hq
  · intro s e s' _ hs h
    cases gui_step_cases h with
    | command command =>
      intro q hq
      rcases List.mem_append.mp hq with hq | hq
      · exact hs q hq
      · obtain rfl := List.mem_singleton.mp hq
        refine ⟨?_, fun hst => ?_⟩
        · cases command <;> nofun
        · cases command <;> first | rfl | cases hst
    | task k p p' c' e hp hl hstep =>
      intro q hq
      rcases PoolProgram.mem_set_proc hp hq with rfl | hq
      · exact hstep.sane (hs p (List.mem_of_getElem? hp))
      · exact hs q hq
    | relaunch => exact hs

/-- A pipeline that ends leaves no active status behind. -/
theorem Task.Step.ending_not_active {c c' : App} {p p' : Task} {e : TaskEvent}
    (h : Step platform c p e c' p') (hp : p.Sane) (hends : p.stage.ending.isSome = true)
    {d' : Handle} (hd' : c'.torrents p.id = some d') : d'.record.status.isActive = false := by
  obtain ⟨status, hstatus⟩ := Option.isSome_iff_exists.mp hends
  cases hc : c.torrents p.id with
  | none =>
    rcases h.torrents_eq_none hc with hnone | ⟨-, hins⟩
    · rw [hnone] at hd'
      cases hd'
    · obtain ⟨record, hst⟩ := Stage.exists_of_isInserting hins
      rw [hst] at hends
      cases hends
  | some d =>
    obtain ⟨d'', hd'', hst, -⟩ := h.ending hstatus hc
    obtain rfl := Option.some.inj (hd'.symm.trans hd'')
    rw [hst]
    exact hp.ending status hstatus

/-- A restored record is complete or stopped. -/
theorem restoreRecord_status (r : Record) :
    (restoreRecord r).status = .complete ∨ (restoreRecord r).status = .stopped := by
  unfold restoreRecord
  split
  · exact .inr rfl
  · rename_i h
    exact .inl (not_not.mp h)

/-! ## Steps of the GUI -/

/-- A pipeline under way is not gone after a step, unless it was the one that took it. -/
theorem not_idle_of_ne {s : GuiState} {id : String} {j k : Nat} {p' q : Task} {c' : App}
    (hq : s.procs[j]? = some q) (hqu : Unfinished s.shared id q) (hjk : j ≠ k)
    (hl : c'.launch = s.shared.launch) : ¬ Idle ⟨c', s.procs.set k p'⟩ id := by
  intro hidle
  have hmem : q ∈ s.procs.set k p' := by
    rw [List.mem_iff_getElem?]
    exact ⟨j, by rw [List.getElem?_set_ne hjk.symm, hq]⟩
  exact hidle q hmem ⟨hqu.1.trans hl.symm, hqu.2⟩

/-- Every step that keeps statuses keeps them in agreement with the pipelines. -/
theorem GuiStep.statusAgrees {s s' : GuiState} {e : GuiEvent} (h : GuiStep platform s e s')
    (hsane : ∀ q ∈ s.procs, q.Sane) (hok : StatusKept s e) (hs : StatusAgrees s) :
    StatusAgrees s' := by
  cases h with
  | command command =>
    intro id d hd hactive hidle
    exact hs id d hd hactive fun q hq => hidle q (List.mem_append_left _ hq)
  | task k p p' c' e hp hl h =>
    intro id d' hd' hactive
    have hself : p'.stage.unfinished = true → p'.id = id →
        ¬ Idle ⟨c', s.procs.set k p'⟩ id := by
      intro hu hid hidle
      obtain ⟨hk, -⟩ := List.getElem?_eq_some_iff.mp hp
      exact hidle p' (List.mem_set hk _) ⟨h.launch.2.trans (hl.trans h.launch.1.symm), hid, hu⟩
    by_cases hold : Idle s id
    · -- without a pipeline before, the entry was added, or a command has set its status
      have hsame : ∀ d, s.shared.torrents id = some d → d.record.status = d'.record.status →
          ¬ Idle ⟨c', s.procs.set k p'⟩ id := by
        intro d hd hst
        rw [← hst] at hactive
        exact absurd hold (hs id d hd hactive)
      rcases h.status hd' with ⟨d, hd, hst⟩ | ⟨rfl, hu | hu | ⟨-, hst⟩ | ⟨d, hd, hst⟩⟩
      · exact hsame d hd hst
      · exact absurd ⟨hl, rfl, hu⟩ (hold p (List.mem_of_getElem? hp))
      · exact hself hu (h.id_of_unfinished hu)
      · rw [hst] at hactive
        cases hactive
      · exact hsame d hd (hok.command p hp _ hst hold d hd)
    · -- a pipeline that was under way and ends has recorded its last status
      simp only [Idle, not_forall, not_not] at hold
      obtain ⟨q, hq, hqu⟩ := hold
      obtain ⟨j, hj⟩ := List.mem_iff_getElem?.mp hq
      by_cases hjk : j = k
      · subst hjk
        obtain rfl := Option.some.inj (hp.symm.trans hj)
        rcases h.unfinished_or hqu.2.2 with ⟨hu, hid⟩ | hends | hnone
        · exact hself hu (hid.trans hqu.2.1)
        · rw [← hqu.2.1] at hd'
          rw [h.ending_not_active (hsane p (List.mem_of_getElem? hp)) hends hd'] at hactive
          cases hactive
        · rw [hqu.2.1, hd'] at hnone
          cases hnone
      · exact not_idle_of_ne hj hqu hjk h.launch.1
  | relaunch =>
    intro id d hd hactive
    obtain ⟨r, -, rfl⟩ := Option.map_eq_some_iff.mp hd
    rcases restoreRecord_status r with hst | hst <;> rw [hst] at hactive <;> cases hactive

/-- A step that keeps statuses leaves the record of an idle torrent alone. -/
theorem GuiStep.leavesIdle {s s' : GuiState} {e : GuiEvent} (h : GuiStep platform s e s')
    (hsane : ∀ q ∈ s.procs, q.Sane) (hok : StatusKept s e) : LeavesIdle ⟨s, e, s'⟩ := by
  intro q hq hsteers hidle
  cases h with
  | command => cases hq
  | relaunch => cases hq
  | task k p p' c' e hp hl h =>
    obtain rfl := Option.some.inj (hp.symm.trans hq)
    have hstage := (hsane p (List.mem_of_getElem? hp)).steering hsteers
    cases h with
    | signalled => exact congrFun (App.records_signal ..) _
    | statusSet status next hs =>
      rw [hs] at hstage
      obtain rfl := eq_of_beq hstage
      -- the status that is set is the one the entry has
      have hsame := hok.command p hp status (by rw [hs]; rfl) hidle
      refine congrFun (App.records_modify fun d hd => ?_) _
      rw [← hsame d hd]
      rfl
    | failed => rfl
    | _ => simp_all [Stage.steering, App.records]

/-- Restoring does not touch a complete record. -/
theorem restoreRecord_of_complete {r : Record} (h : r.status = .complete) : restoreRecord r = r :=
  if_neg (not_not.mpr h)

/-- A step that keeps statuses keeps complete torrents complete. -/
theorem GuiStep.keepsComplete {s s' : GuiState} {e : GuiEvent} (h : GuiStep platform s e s')
    (hn : Numbered s) (hok : StatusKept s e)
    (hs : (s.snapshot .dirty).Synced (Agree restoreRecord)) :
    KeepsComplete ⟨s, e, s'⟩ := by
  intro id d hd hcomplete hidle
  cases h with
  | command command =>
    refine .inl ⟨d, hd, hcomplete, fun q hq hu => ?_⟩
    rcases List.mem_append.mp hq with hq | hq
    · exact hidle q hq hu
    · obtain rfl := List.mem_singleton.mp hq
      cases command <;> cases hu.2.2
  | task k p p' c' e hp hl h =>
    have hpm := List.mem_of_getElem? hp
    by_cases hexcept : p.id = id ∧ (Accepts s.shared p ∨ p.stage.deletes = true)
    · exact .inr ⟨p, hp, hexcept⟩
    have hnew : p'.id = id → p'.stage.unfinished = false := by
      intro hid
      rw [← Bool.not_eq_true]
      intro hu
      rcases h.unfinished with ⟨-, hback⟩ | ⟨hacc, hid', -⟩
      · obtain ⟨hpu, hid'⟩ := hback hu
        exact hidle p hpm ⟨hl, hid'.symm.trans hid, hpu⟩
      · exact hexcept ⟨hid'.symm.trans hid, .inl hacc⟩
    left
    obtain ⟨d', hd'⟩ := (h.entry hd).resolve_right fun ⟨hid, hdel⟩ => hexcept ⟨hid.symm, .inr hdel⟩
    refine ⟨d', hd', ?_, fun q hq hu => ?_⟩
    · rcases h.status hd' with ⟨d₀, hd₀, hst⟩ | ⟨rfl, hu | hu | ⟨hdel, -⟩ | ⟨-, -, hst⟩⟩
      · obtain rfl := Option.some.inj (hd₀.symm.trans hd)
        exact hst.symm.trans hcomplete
      · exact absurd ⟨hl, rfl, hu⟩ (hidle p hpm)
      · rw [hnew (h.id_of_unfinished hu)] at hu
        cases hu
      · exact absurd ⟨rfl, .inr hdel⟩ hexcept
      · exact (hok.command p hp _ hst hidle d hd).symm.trans hcomplete
    · rcases PoolProgram.mem_set_proc hp hq with rfl | hq
      · have hnot := hnew hu.2.1
        rw [hu.2.2] at hnot
        cases hnot
      · exact hidle q hq ⟨hu.1.trans h.launch.1, hu.2⟩
  | relaunch =>
    have hagree : (s.shared.stored id).map restoreRecord =
        ((s.shared.torrents id).map Handle.record).map restoreRecord :=
      hs.atRest (snapshot_atRest (hok.rest rfl)) id
    rw [Option.mem_def.mp hd, Option.map_some, Option.map_some,
      restoreRecord_of_complete hcomplete] at hagree
    obtain ⟨r, hr, hsame⟩ := Option.map_eq_some_iff.mp hagree
    refine .inl ⟨⟨none, d.record⟩, ?_, hcomplete, fun q hq hu => ?_⟩
    · change (s.shared.stored id).map _ = _
      rw [hr, Option.map_some, hsame]
    · exact absurd hu.1 (hn.launch_ne hq)

/-! ## Runs -/

/-- Seen through `restoreRecord`, restoring changes nothing. -/
theorem restores_restoreRecord (stored : String → Option Record) :
    Restores restoreRecord stored := by
  intro id r _
  rcases restoreRecord_status r with hst | hst
  · exact restoreRecord_of_complete hst
  · rw [restoreRecord, if_pos (by rw [hst]; nofun), ← hst]

/-- Statuses agree with the pipelines in every state; the commands leave a torrent without a
pipeline alone; and a completed torrent stays complete. -/
theorem status_kept {run : GuiRun} {s : GuiState}
    (hr : (guiSystem platform stored).HistoryWhere StatusKept run s) :
    StatusAgrees s ∧ ∀ t ∈ run, LeavesIdle t ∧ KeepsComplete t := by
  refine ⟨hr.state_invariant (P := StatusAgrees) ?_ ?_, fun t ht => ?_⟩
  · intro id d hd hactive
    obtain ⟨r, -, rfl⟩ := Option.map_eq_some_iff.mp hd
    rcases restoreRecord_status r with hst | hst <;> rw [hst] at hactive <;> cases hactive
  · intro s e s' hreach hs hok h
    exact (gui_step_cases h).statusAgrees (sane hreach) hok hs
  · obtain ⟨hreach, hok, h⟩ := hr.mem ht
    obtain ⟨before, after, rfl⟩ := List.append_of_mem ht
    have hsynced := snapshot_synced (x := .dirty) (restores_restoreRecord stored)
      (fun s e h => ⟨⟨h.order, fun _ => restores_restoreRecord _⟩, .inl rfl⟩) (hr.before rfl)
    have hstep := gui_step_cases h
    exact ⟨hstep.leavesIdle (sane hreach) hok, hstep.keepsComplete (numbered hreach) hok hsynced⟩

/-! ## A torrent that is paused once it is complete -/

instance (s : GuiState) (id : String) : Decidable (Idle s id) :=
  inferInstanceAs (Decidable (∀ q ∈ s.procs, _))

instance (t : Transition GuiState GuiEvent) : Decidable (LeavesIdle t) :=
  inferInstanceAs (Decidable (∀ p ∈ stepping t.pre t.event, _))

/-- Task `k` pauses the torrent. -/
def tracePause (k : Nat) : List GuiEvent := tracePauseCopy k ++ [.proc k (.written true)]

instance (s : GuiState) (e : GuiEvent) : Decidable (SteersUnderWay s e) :=
  inferInstanceAs (Decidable (∀ p ∈ stepping s e, _))

/-- A step that keeps the file up to date and sets no status of a torrent without a pipeline,
or a launch from rest. -/
def statusKeptCheck (s : GuiState) : GuiEvent → Bool
  | .env _ => decide (AtRest s)
  | e => keepsUpCheck s e && decide (SteersUnderWay s e)

/-- The check implies `StatusKept`. -/
theorem statusKept_of_check {s : GuiState} {e : GuiEvent} (h : statusKeptCheck s e = true) :
    StatusKept s e := by
  cases e with
  | env e =>
    refine .of_underWay (fun p hp => ?_) (fun p hp => ?_) fun _ => of_decide_eq_true h <;> cases hp
  | spawn command =>
    refine .of_underWay (fun p hp => ?_) (fun p hp => ?_) nofun <;> cases hp
  | proc k e =>
    obtain ⟨horder, hsteers⟩ := (Bool.and_eq_true _ _).mp h
    exact .of_underWay (of_decide_eq_true hsteers) (keepsUp_of_check (f := id) horder).1 nofun

/-- A torrent that was downloaded and is restored by a later launch is still complete. -/
theorem status_kept_relaunched : ∃ run s, freshGui.History run s ∧
    (∃ d ∈ s.shared.torrents "1", d.record.status = .complete) ∧
    StatusAgrees s ∧ ∀ t ∈ run, LeavesIdle t ∧ KeepsComplete t := by
  obtain ⟨run, s, hr, hs⟩ := System.HistoryWhere.exists_of_execWhile freshGui
    (P := fun s => ∃ d ∈ s.shared.torrents "1", d.record.status = .complete)
    statusKeptCheck (fun s e h => statusKept_of_check h)
    (traceAdd 0 ++ traceRun 0 ++ tracePause 1 ++ traceEnd 0 true ++ [.env .relaunch])
    (by decide +kernel)
  exact ⟨run, s, hr.history, hs, status_kept hr⟩

/-- Paused once it is complete, a torrent is recorded as paused without a pipeline. -/
theorem status_overwritten : ∃ run s, freshGui.History run s ∧ ¬ StatusAgrees s ∧
    ∃ t ∈ run, ¬ LeavesIdle t := by
  obtain ⟨s, hr, d, hd, hactive, hidle⟩ := System.History.exists_of_exec freshGui
    (P := fun s => ∃ d ∈ s.shared.torrents "1", d.record.status.isActive = true ∧ Idle s "1")
    (traceAdd 0 ++ traceRun 0 ++ traceEnd 0 true ++ tracePause 1) (by decide +kernel)
  exact ⟨_, s, hr, fun h => h "1" d hd hactive hidle, by decide +kernel⟩

end Torrentina.Gui
