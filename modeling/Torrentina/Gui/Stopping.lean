import Torrentina.Gui.Pipelines

/-!
# Commands that stop a torrent

`cancel_download` and `remove_torrent` reach a pipeline through the coordinator in
the entry. A pipeline that has published none is not reached; it goes on to make
its output files, and to its run unless it finds the entry gone. A coordinator
that is published before its run begins is reached in vain: nobody listens yet.
-/

namespace Torrentina.Gui

open Torrentina.Core Download Tracker

/-- The id of the torrent a command stops. -/
def Command.stops : Command → Option String
  | .cancelDownload id => some id
  | .removeTorrent id _ => some id
  | _ => none

/-- In the write that a command returns after. -/
def Stage.isLast : Stage → Bool
  | .writing _ _ next => next == .returns
  | _ => false

/-- About to look for the entry to remove. -/
def Stage.isRemoving : Stage → Bool
  | .removing _ => true
  | _ => false

/-- The command returns with its next step: from its write, or because there is no entry
to remove. -/
def Returns (c : App) (p : Task) : Prop :=
  p.stage.isLast = true ∨ p.stage.isRemoving = true ∧ c.torrents p.id = none

/-- `Storage::create` or `Coordinator::run` is ahead of the pipeline. -/
def Stage.mayStart : Stage → Bool
  | .parsing | .announcing _ _ _ | .creating _ _ _ _ | .publishing _ _ _ _ | .published _ => true
  | _ => false

/-- The next step is `Storage::create`, or begins `Coordinator::run`. -/
def Stage.starts : Stage → Bool
  | .creating _ _ _ _ | .published _ => true
  | _ => false

/-- About to look for the entry to publish the coordinator in. -/
def Stage.isPublishing : Stage → Bool
  | .publishing _ _ _ _ => true
  | _ => false

theorem Stage.starts_eq_false {stage : Stage}
    (h : stage.mayStart = false ∨ stage.isPublishing = true) : stage.starts = false := by
  cases stage <;> first | rfl | (rcases h with h | h <;> cases h)

/-- About to look whether there is an entry already. -/
def Stage.isInserting : Stage → Bool
  | .inserting _ => true
  | _ => false

theorem Stage.exists_of_isInserting {stage : Stage} (h : stage.isInserting = true) :
    ∃ record, stage = .inserting record := by
  cases stage with
  | inserting record => exact ⟨record, rfl⟩
  | _ => cases h

/-- If a command that stops a torrent returns with the first step, the second is not one in
which a pipeline that was spawned for the torrent before the command makes output files or
begins a run. -/
def Binds (t u : Transition GuiState GuiEvent) : Prop :=
  ∀ p ∈ stepping t.pre t.event, ∀ id ∈ p.command.stops, Returns t.pre.shared p →
    ∀ q ∈ t.pre.procs, q.id = id → q.stage.inPipeline = true → q.since ≤ p.number →
      ∀ q' ∈ stepping u.pre u.event, q'.number = q.number → q'.stage.starts = false

/-- Commands that stop a torrent bind its pipelines in all that follows. -/
def StopsBind (run : GuiRun) : Prop := run.Pairwise Binds

/-- A command that stops the torrent returns only when every earlier pipeline of it has begun
its run, or is about to find the entry gone. -/
def ReturnsInTime (s : GuiState) (p : Task) (id : String) : Prop :=
  Returns s.shared p →
    ∀ q ∈ s.procs, q.launch = s.shared.launch ∧ q.id = id ∧ q.since ≤ p.number →
      q.stage.mayStart = true → q.stage.isPublishing = true ∧ s.shared.torrents id = none

/-- The torrent is not added again while a pipeline of it is about to look for the entry. -/
def AddsInTime (s : GuiState) (p : Task) : Prop :=
  p.stage.isInserting = true → s.shared.torrents p.id = none →
    ∀ q ∈ s.procs, q.launch = s.shared.launch → q.id = p.id → q.stage.isPublishing = false

/-- Commands that stop a torrent, and commands that add one, come in time. -/
def StopsInTime (s : GuiState) (e : GuiEvent) : Prop :=
  ∀ p ∈ stepping s e, (∀ id ∈ p.command.stops, ReturnsInTime s p id) ∧ AddsInTime s p

/-- Pipeline `j` of the torrent makes no output files and begins no run any more. -/
def Barred (id : String) (j : Nat) (s : GuiState) : Prop :=
  ∃ q, s.procs[j]? = some q ∧ q.id = id ∧ q.stage.inPipeline = true ∧
    (q.launch = s.shared.launch → q.stage.mayStart = false ∨
      q.stage.isPublishing = true ∧ s.shared.torrents id = none)

variable {platform : Platform} {stored : String → Option Record}

namespace Task.Step

variable {c c' : App} {p p' : Task} {e : TaskEvent}

/-- A pipeline in its run does not come back to what is before it, and one that finds
no entry ends. -/
theorem mayStart (h : Step platform c p e c' p') (hp : p.stage.inPipeline = true)
    (hm : p.stage.mayStart = false ∨ p.stage.isPublishing = true ∧ c.torrents p.id = none) :
    p'.stage.mayStart = false := by
  cases h with
  | failed => rfl
  | wrote _ _ next hs =>
    cases next <;> simp_all [Stage.inPipeline, Stage.mayStart, afterPersist, Task.at]
  | notWritten _ _ next hs =>
    cases next <;> simp_all [Stage.inPipeline, Stage.mayStart, afterPersist, Task.at]
  | _ => simp_all [Stage.inPipeline, Stage.mayStart, Stage.isPublishing, Task.at]

/-- Only adding a torrent makes an entry. -/
theorem torrents_eq_none (h : Step platform c p e c' p') {id : String}
    (hc : c.torrents id = none) :
    c'.torrents id = none ∨ id = p.id ∧ p.stage.isInserting = true := by
  by_cases hid : id = p.id
  · subst hid
    cases h with
    | signalled => exact .inl (by rwa [App.torrents_signal])
    | statusSet => exact .inl (App.torrents_modify_of_eq_none hc _)
    | removed =>
      exact .inl (App.torrents_modify_of_eq_none (by rwa [App.torrents_signal]) _)
    | dropped => exact .inl (App.torrents_remove_self ..)
    | added record hs => exact .inr ⟨rfl, by rw [hs]; rfl⟩
    | published => exact .inl (App.torrents_modify_of_eq_none hc _)
    | finished => exact .inl (App.torrents_modify_of_eq_none hc _)
    | _ => exact .inl hc
  · exact .inl (by rwa [h.torrents_of_ne hid])

end Task.Step

theorem GuiStep.barred {s s' : GuiState} {e : GuiEvent} (h : GuiStep platform s e s')
    (hn : Numbered s) (hok : StopsInTime s e) {id : String} {j : Nat} (hb : Barred id j s) :
    Barred id j s' := by
  obtain ⟨q, hq, hid, hpipe, hbar⟩ := hb
  cases h with
  | command command =>
    obtain ⟨hlt, -⟩ := List.getElem?_eq_some_iff.mp hq
    exact ⟨q, by rw [List.getElem?_append_left hlt, hq], hid, hpipe, hbar⟩
  | task k p p' c' e hp hl h =>
    by_cases hjk : j = k
    · subst hjk
      obtain rfl := Option.some.inj (hp.symm.trans hq)
      obtain ⟨hpipe', hid'⟩ := h.inPipeline hpipe
      refine ⟨p', ?_, hid'.trans hid, hpipe', fun _ => .inl ?_⟩
      · rw [PoolProgram.getElem?_set_proc hp, if_pos rfl]
      · exact h.mayStart hpipe (by rw [hid]; exact hbar hl)
    · refine ⟨q, ?_, hid, hpipe, fun hql => ?_⟩
      · rw [PoolProgram.getElem?_set_proc hp, if_neg hjk, hq]
      have hql := hql.trans h.launch.1
      rcases hbar hql with hm | ⟨hpub, hnone⟩
      · exact .inl hm
      rcases h.torrents_eq_none hnone with hnone' | ⟨hidp, hins⟩
      · exact .inr ⟨hpub, hnone'⟩
      · have := (hok p hp).2 hins (hidp ▸ hnone) q (List.mem_of_getElem? hq) hql (hid.trans hidp)
        rw [hpub] at this
        cases this
  | relaunch =>
    refine ⟨q, hq, hid, hpipe, fun hql => ?_⟩
    exact absurd hql (hn.launch_ne (List.mem_of_getElem? hq))

/-- Stopping a torrent binds its pipelines, when each command that stops it returns in time. -/
theorem stop_binds {run : GuiRun} {s : GuiState}
    (hr : (guiSystem platform stored).HistoryWhere StopsInTime run s) : StopsBind run := by
  refine System.pairwise_of_split fun before t after hsplit u hu => ?_
  intro p hp id hstops hreturns q hq hid hpipe hsince q' hq' hnumber
  obtain ⟨hreach, hok, hstep⟩ := hr.mem (by rw [hsplit]; simp : t ∈ run)
  obtain ⟨j, hj⟩ := List.mem_iff_getElem?.mp hq
  have hpre : Barred id j t.pre := by
    refine ⟨q, hj, hid, hpipe, fun hql => ?_⟩
    cases hm : q.stage.mayStart with
    | false => exact .inl rfl
    | true => exact .inr ((hok p hp).1 id hstops hreturns q hq ⟨hql, hid, hsince⟩ hm)
  have hn := numbered hreach
  have hpost := (gui_step_cases hstep).barred hn hok hpre
  obtain ⟨-, hall⟩ := hr.since hsplit hpost fun s e s' hreach hb hok hs =>
    (gui_step_cases hs).barred (numbered hreach) hok hb
  obtain ⟨hreach', -, hstep'⟩ := hr.mem (by rw [hsplit]; simp [hu] : u ∈ run)
  obtain ⟨q'', hj', -, -, hbar⟩ := hall u hu
  have hget := (numbered hreach').getElem? (mem_of_mem_stepping hq')
  rw [hnumber, hn.number j q hj, hj'] at hget
  obtain rfl := Option.some.inj hget
  apply Stage.starts_eq_false
  exact (hbar ((gui_step_cases hstep').launch_of_mem_stepping hq')).imp_right And.left

/-! ## A torrent that is stopped while it announces -/

instance (c : App) (p : Task) : Decidable (Returns c p) := inferInstanceAs (Decidable (_ ∨ _))

instance (t u : Transition GuiState GuiEvent) : Decidable (Binds t u) :=
  inferInstanceAs (Decidable (∀ p ∈ stepping t.pre t.event, _))

instance (run : GuiRun) : Decidable (StopsBind run) :=
  inferInstanceAs (Decidable (run.Pairwise Binds))

instance (s : GuiState) (p : Task) (id : String) : Decidable (ReturnsInTime s p id) :=
  inferInstanceAs (Decidable (_ → _))

instance (s : GuiState) (p : Task) : Decidable (AddsInTime s p) :=
  inferInstanceAs (Decidable (_ → _))

instance (s : GuiState) (e : GuiEvent) : Decidable (StopsInTime s e) :=
  inferInstanceAs (Decidable (∀ p ∈ stepping s e, _ ∧ _))

theorem stop_binds_running : ∃ run s, freshGui.History run s ∧
    (∃ d ∈ s.shared.torrents "1", d.record.status = .stopped) ∧ StopsBind run := by
  obtain ⟨run, s, hr, hs⟩ := System.HistoryWhere.exists_of_execWhile freshGui
    (P := fun s => ∃ d ∈ s.shared.torrents "1", d.record.status = .stopped)
    (fun s e => decide (StopsInTime s e)) (fun s e h => of_decide_eq_true h)
    (traceAdd 0 ++ traceRun 0 ++ traceCancel 1 ++ traceEnd 0 false) (by decide +kernel)
  exact ⟨run, s, hr.history, hs, stop_binds hr⟩

/-- A pipeline that still announces goes on to its files and its run. -/
theorem stop_does_not_bind : ∃ run s, freshGui.History run s ∧ ¬ StopsBind run := by
  obtain ⟨s, hr⟩ := System.History.of_isSome freshGui
    (traceAdd 0 ++ traceCancel 1 ++ traceRun 0) (by decide +kernel)
  exact ⟨_, s, hr, by decide +kernel⟩

end Torrentina.Gui
