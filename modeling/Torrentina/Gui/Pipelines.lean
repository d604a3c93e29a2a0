import Torrentina.Gui.Steps

/-!
# The pipelines of one torrent

`start_torrent` and `add_torrent` go by what the registry shows: no coordinator
in the entry, or no entry. A pipeline shows there only between the publishing of
its coordinator and its end or removal, so one that still announces, and one
that was removed and winds down, is taken for none. The number of the task that
added or started a torrent last is what carries the proofs: as long as a command
is accepted only when no pipeline of the torrent is under way, every pipeline
under way has that number.
-/

namespace Torrentina.Gui

open Torrentina.Core Download Tracker

/-- In `run_pipeline` or past it. -/
def Stage.inPipeline : Stage → Bool
  | .signalling _ _ | .removing _ | .dropping _ _ | .deleting _ | .starting | .reading
  | .inserting _ | .returned _ => false
  | .settingStatus _ next | .copying next | .writing _ _ next => next == .ends
  | _ => true

/-- Between the moment `start_torrent` or `add_torrent` is accepted and the moment
the pipeline has recorded how it ended. -/
def Stage.unfinished : Stage → Bool
  | .settingStatus _ next => next != .returns
  | .copying next | .writing _ _ next => next == .spawns
  | .ended => false
  | stage => stage.inPipeline

/-- `start_torrent` finds no coordinator in the entry, or `add_torrent` no entry. -/
def Accepts (c : App) (p : Task) : Prop :=
  p.stage = .starting ∧ (∃ h, c.torrents p.id = some h ∧ h.coordinator = none) ∨
    (∃ record, p.stage = .inserting record) ∧ c.torrents p.id = none

/-- A pipeline of the torrent is under way. -/
def Unfinished (c : App) (id : String) (p : Task) : Prop :=
  p.launch = c.launch ∧ p.id = id ∧ p.stage.unfinished = true

/-- A pipeline that may fail is under way. -/
theorem unfinished_of_canFail {stage : Stage} (h : Task.canFail stage = true) :
    stage.unfinished = true := by
  cases stage <;> first | rfl | cases h

namespace Task.Step

variable {platform : Platform} {c c' : App} {p p' : Task} {e : TaskEvent}

/-- A pipeline stays the pipeline of its torrent. -/
theorem inPipeline (h : Step platform c p e c' p') (hp : p.stage.inPipeline = true) :
    p'.stage.inPipeline = true ∧ p'.id = p.id := by
  refine ⟨?_, h.id.resolve_right fun hr => by rw [hr] at hp; cases hp⟩
  cases h with
  | wrote _ _ next hs => cases next <;> simp_all [Stage.inPipeline, afterPersist, Task.at]
  | notWritten _ _ next hs => cases next <;> simp_all [Stage.inPipeline, afterPersist, Task.at]
  | _ => simp_all [Stage.inPipeline, Task.at, Task.fail]

/-- A pipeline gets under way only by being accepted, which makes its task the latest
of its torrent; no other step changes which task that is. -/
theorem unfinished (h : Step platform c p e c' p') :
    c'.latest = c.latest ∧ (p'.stage.unfinished = true → p.stage.unfinished = true ∧ p'.id = p.id) ∨
      Accepts c p ∧ p'.id = p.id ∧ c'.latest = Function.update c.latest p.id p.number := by
  cases h with
  | started hd hs hc hr => exact .inr ⟨.inl ⟨hs, hd, hc, hr⟩, rfl, rfl⟩
  | added record hs hc => exact .inr ⟨.inr ⟨⟨record, hs⟩, hc⟩, rfl, rfl⟩
  | wrote _ _ next hs =>
    cases next <;> simp_all [Stage.unfinished, Stage.inPipeline, afterPersist, Task.at]
  | notWritten _ _ next hs =>
    cases next <;> simp_all [Stage.unfinished, Stage.inPipeline, afterPersist, Task.at]
  | failed e hs => exact .inl ⟨rfl, fun _ => ⟨unfinished_of_canFail hs, rfl⟩⟩
  | unanswered => exact .inl ⟨rfl, fun hu => ⟨hu, rfl⟩⟩
  | removed mode =>
    refine .inl ⟨App.latest_signal .., fun hu => ?_⟩
    cases mode <;> cases hu
  | dropped mode =>
    refine .inl ⟨rfl, fun hu => ?_⟩
    cases mode <;> cases hu
  | _ => simp_all [Stage.unfinished, Stage.inPipeline, Task.at, App.modify, App.run]

/-- A pipeline under way keeps the torrent it is for. -/
theorem id_of_unfinished (h : Step platform c p e c' p') (hu : p'.stage.unfinished = true) :
    p'.id = p.id := by
  rcases h.unfinished with ⟨-, hback⟩ | ⟨-, hid, -⟩
  · exact (hback hu).2
  · exact hid

/-- A coordinator enters the registry only when its own pipeline publishes it. -/
theorem coordinator (h : Step platform c p e c' p') {id : String} {d' : Handle} {k : Nat}
    (ht : c'.torrents id = some d') (hk : d'.coordinator = some k) :
    (∃ d, c.torrents id = some d ∧ d.coordinator = some k) ∨
      id = p.id ∧ k = p.number ∧ p'.id = p.id ∧ ∃ peers, p'.stage = .published peers := by
  by_cases hid : id = p.id
  · subst hid
    have hkeeps : ∀ (c : App) (f : Handle → Handle),
        (∀ d, (f d).coordinator = d.coordinator ∨ (f d).coordinator = none) →
        (c.modify p.id f).torrents p.id = some d' →
        ∃ d, c.torrents p.id = some d ∧ d.coordinator = some k := by
      intro c f hf ht
      obtain ⟨d, hd, rfl⟩ := App.torrents_modify_eq_some ht
      rw [if_pos rfl] at hk
      refine ⟨d, hd, ?_⟩
      rcases hf d with hsame | hnone
      · rwa [hsame] at hk
      · rw [hnone] at hk
        cases hk
    cases h with
    | signalled => exact .inl ⟨d', by rwa [App.torrents_signal] at ht, hk⟩
    | statusSet => exact .inl (hkeeps c (Handle.setStatus _) (fun _ => .inl rfl) ht)
    | removed mode =>
      obtain ⟨d, hd, hdk⟩ := hkeeps _ (Handle.remove mode) (fun _ => .inr rfl) ht
      exact .inl ⟨d, by rwa [App.torrents_signal] at hd, hdk⟩
    | dropped =>
      rw [App.torrents_remove_self] at ht
      cases ht
    | added =>
      rw [App.torrents_insert_self] at ht
      obtain rfl := Option.some.inj ht
      cases hk
    | published =>
      obtain ⟨d, hd, rfl⟩ := App.torrents_modify_eq_some ht
      rw [if_pos rfl] at hk
      exact .inr ⟨rfl, (Option.some.inj hk).symm, rfl, _, rfl⟩
    | finished => exact .inl (hkeeps c (Handle.finish _) (fun _ => .inr rfl) ht)
    | _ => exact .inl ⟨d', ht, hk⟩
  · rw [h.torrents_of_ne hid] at ht
    exact .inl ⟨d', ht, hk⟩

end Task.Step

/-- Tasks are numbered in order, no task is of a launch to come, and a coordinator
in an entry belongs to a pipeline of that torrent. -/
structure Numbered (s : GuiState) : Prop where
  spawned : s.shared.spawned = s.procs.length
  number : ∀ k (p : Task), s.procs[k]? = some p → p.number = k
  launch : ∀ p ∈ s.procs, p.launch ≤ s.shared.launch
  coordinator : ∀ id d k, s.shared.torrents id = some d → d.coordinator = some k →
    ∃ p, s.procs[k]? = some p ∧ p.id = id ∧ p.stage.inPipeline = true

variable {platform : Platform} {stored : String → Option Record}

/-- A restored torrent has no coordinator. -/
theorem restore_coordinator {id : String} {d : Handle} (h : restore stored id = some d) :
    d.coordinator = none := by
  obtain ⟨r, -, rfl⟩ := Option.map_eq_some_iff.mp h
  rfl

/-- Every step keeps the tasks numbered in the order they were spawned. -/
theorem GuiStep.numbered {s s' : GuiState} {e : GuiEvent} (h : GuiStep platform s e s')
    (hs : Numbered s) : Numbered s' := by
  cases h with
  | command command =>
    constructor
    · rw [List.length_append, hs.spawned]
      rfl
    · intro k p hp
      rw [List.getElem?_append] at hp
      split at hp
      · exact hs.number k p hp
      · obtain ⟨hk, -⟩ := List.getElem?_eq_some_iff.mp hp
        obtain rfl := List.mem_singleton.mp (List.mem_of_getElem? hp)
        rw [List.length_singleton] at hk
        change s.shared.spawned = k
        rw [hs.spawned]
        omega
    · intro p hp
      rcases List.mem_append.mp hp with hp | hp
      · exact hs.launch p hp
      · obtain rfl := List.mem_singleton.mp hp
        exact le_rfl
    · intro id d k hd hk
      obtain ⟨p, hp, hrest⟩ := hs.coordinator id d k hd hk
      obtain ⟨hlt, -⟩ := List.getElem?_eq_some_iff.mp hp
      exact ⟨p, by rw [List.getElem?_append_left hlt, hp], hrest⟩
  | task k p p' c' e hp hl h =>
    constructor
    · rw [List.length_set, h.number.1, hs.spawned]
    · intro j q hq
      rw [PoolProgram.getElem?_set_proc hp] at hq
      split at hq
      · rename_i hj
        obtain rfl := Option.some.inj hq
        rw [h.number.2.1, hs.number k p hp, hj]
      · exact hs.number j q hq
    · intro q hq
      rw [h.launch.1]
      rcases PoolProgram.mem_set_proc hp hq with rfl | hq
      · rw [h.launch.2]
        exact hs.launch p (List.mem_of_getElem? hp)
      · exact hs.launch q hq
    · intro id d' j hd' hj
      rcases h.coordinator hd' hj with ⟨d, hd, hdj⟩ | ⟨rfl, rfl, hid, peers, hstage⟩
      · obtain ⟨q, hq, hqid, hqp⟩ := hs.coordinator id d j hd hdj
        by_cases hjk : j = k
        · subst hjk
          obtain rfl := Option.some.inj (hp.symm.trans hq)
          refine ⟨p', ?_, ?_⟩
          · rw [PoolProgram.getElem?_set_proc hp, if_pos rfl]
          · obtain ⟨hp', hid'⟩ := h.inPipeline hqp
            exact ⟨hid'.trans hqid, hp'⟩
        · refine ⟨q, ?_, hqid, hqp⟩
          rw [PoolProgram.getElem?_set_proc hp, if_neg hjk, hq]
      · refine ⟨p', ?_, hid, by rw [hstage]; rfl⟩
        rw [hs.number k p hp, PoolProgram.getElem?_set_proc hp, if_pos rfl]
  | relaunch =>
    refine ⟨hs.spawned, hs.number, fun p hp => (hs.launch p hp).trans (Nat.le_succ _), ?_⟩
    intro id d k hd hk
    rw [restore_coordinator hd] at hk
    cases hk

/-- Tasks are numbered in the order they were spawned. -/
theorem numbered {s : GuiState} (hr : (guiSystem platform stored).Reachable s) : Numbered s := by
  refine hr.invariant ?_ fun s e s' _ hs h => (gui_step_cases h).numbered hs
  constructor
  · rfl
  · intro k p hp
    cases hp
  · intro p hp
    cases hp
  · intro id d k hd hk
    rw [restore_coordinator hd] at hk
    cases hk

/-- No task is of the launch that comes next. -/
theorem Numbered.launch_ne {s : GuiState} (hn : Numbered s) {p : Task} (hp : p ∈ s.procs) :
    p.launch ≠ s.shared.relaunch.launch :=
  (Nat.lt_succ_of_le (hn.launch p hp)).ne

/-- A task is found at its number. -/
theorem Numbered.getElem? {s : GuiState} (hn : Numbered s) {p : Task} (hp : p ∈ s.procs) :
    s.procs[p.number]? = some p := by
  obtain ⟨k, hk⟩ := List.mem_iff_getElem?.mp hp
  rwa [hn.number k p hk]

/-! ## One pipeline at a time -/

/-- `start_torrent` and `add_torrent` are accepted only while no pipeline of the
torrent is under way. -/
def Alone (s : GuiState) (e : GuiEvent) : Prop :=
  ∀ p ∈ stepping s e, Accepts s.shared p → ∀ q ∈ s.procs, ¬ Unfinished s.shared p.id q

/-- A pipeline under way is of the task that added or started its torrent last. -/
def Sole (s : GuiState) : Prop :=
  ∀ q ∈ s.procs, ∀ id, Unfinished s.shared id q → s.shared.latest id = q.number

/-- A step that starts pipelines alone keeps each the only one of its torrent. -/
theorem GuiStep.sole {s s' : GuiState} {e : GuiEvent} (h : GuiStep platform s e s')
    (hn : Numbered s) (hok : Alone s e) (hs : Sole s) : Sole s' := by
  cases h with
  | command command =>
    intro q hq id hu
    rcases List.mem_append.mp hq with hq | hq
    · exact hs q hq id hu
    · obtain rfl := List.mem_singleton.mp hq
      cases command <;> cases hu.2.2
  | task k p p' c' e hp hl h =>
    intro q hq id hu
    have hlaunch := h.launch.1
    rcases h.unfinished with ⟨hlatest, hback⟩ | ⟨hacc, hid, hlatest⟩
    · rw [hlatest]
      rcases PoolProgram.mem_set_proc hp hq with rfl | hq
      · obtain ⟨hpu, hid⟩ := hback hu.2.2
        rw [h.number.2.1]
        exact hs p (List.mem_of_getElem? hp) id ⟨hl, hid ▸ hu.2.1, hpu⟩
      · exact hs q hq id ⟨hu.1.trans hlaunch, hu.2⟩
    · rw [hlatest]
      rcases PoolProgram.mem_set_proc hp hq with rfl | hq
      · rw [← hu.2.1, hid, Function.update_self, h.number.2.1]
      · have hu : Unfinished s.shared id q := ⟨hu.1.trans hlaunch, hu.2⟩
        have hne : id ≠ p.id := by
          rintro rfl
          exact hok p hp hacc q hq hu
        rw [Function.update_of_ne hne]
        exact hs q hq id hu
  | relaunch =>
    intro q hq id hu
    exact absurd hu.1 (hn.launch_ne hq)

/-- In a run that starts pipelines alone each is the only one of its torrent. -/
theorem sole {run : GuiRun} {s : GuiState}
    (hr : (guiSystem platform stored).HistoryWhere Alone run s) : Sole s := by
  refine hr.state_invariant (fun q hq => ?_) fun s e s' hreach hs hok h => ?_
  · cases hq
  · exact (gui_step_cases h).sole (numbered hreach) hok hs

/-- Two pipelines of one torrent that are under way are one. -/
theorem Sole.eq {s : GuiState} (hs : Sole s) (hn : Numbered s) {id : String} {i j : Nat}
    {p q : Task} (hp : s.procs[i]? = some p) (hq : s.procs[j]? = some q)
    (hpu : Unfinished s.shared id p) (hqu : Unfinished s.shared id q) : i = j := by
  have hpl := hs p (List.mem_of_getElem? hp) id hpu
  have hql := hs q (List.mem_of_getElem? hq) id hqu
  rw [← hn.number i p hp, ← hn.number j q hq, ← hpl, ← hql]

/-! ## Where a published coordinator is found -/

/-- Between the publishing of the coordinator and the recording of the final status. -/
def Stage.isPublished : Stage → Bool
  | .published _ | .running | .finishing _ => true
  | _ => false

/-- A pipeline that has published its coordinator is under way. -/
theorem Stage.unfinished_of_isPublished {stage : Stage} (h : stage.isPublished = true) :
    stage.unfinished = true := by
  cases stage <;> first | rfl | cases h

/-- At the lock of `start_torrent` or `add_torrent`. -/
def Stage.locksToStart : Stage → Bool
  | .starting | .inserting _ => true
  | _ => false

/-- At one of the locks of `remove_torrent`. -/
def Stage.locksToRemove : Stage → Bool
  | .removing _ | .dropping _ _ => true
  | _ => false

/-- The entry of the torrent has the coordinator of the pipeline. -/
def InHandle (c : App) (p : Task) : Prop :=
  ∃ d, c.torrents p.id = some d ∧ d.coordinator = some p.number

/-- A coordinator leaves its entry by the locks of `remove_torrent`, or because a pipeline
of the torrent publishes its own or records how it ended. -/
theorem Task.Step.inHandle {platform : Platform} {c c' : App} {p p' q : Task} {e : TaskEvent}
    (h : Step platform c p e c' p') (hq : InHandle c q) :
    InHandle c' q ∨ p.id = q.id ∧ (p.stage.unfinished = true ∨ p.stage.locksToRemove = true) := by
  obtain ⟨d, hd, hdq⟩ := hq
  by_cases hid : q.id = p.id
  · have hmod : ∀ (c : App) (f : Handle → Handle), c.torrents q.id = some d →
        (f d).coordinator = d.coordinator → InHandle (c.modify p.id f) q := by
      intro c f hd hf
      refine ⟨f d, ?_, hf.trans hdq⟩
      rw [← hid, App.torrents_modify_self, hd]
      rfl
    cases h with
    | signalled => exact .inl ⟨d, by rwa [App.torrents_signal], hdq⟩
    | statusSet => exact .inl (hmod c _ hd rfl)
    | removed mode d' hs => exact .inr ⟨hid.symm, .inr (by rw [hs]; rfl)⟩
    | dropped mode record hs => exact .inr ⟨hid.symm, .inr (by rw [hs]; rfl)⟩
    | added record hs hc =>
      rw [← hid, hd] at hc
      cases hc
    | published _ _ _ _ _ _ hs => exact .inr ⟨hid.symm, .inl (by rw [hs]; rfl)⟩
    | finished _ hs => exact .inr ⟨hid.symm, .inl (by rw [hs]; rfl)⟩
    | _ => exact .inl ⟨d, hd, hdq⟩
  · exact .inl ⟨d, by rwa [h.torrents_of_ne hid], hdq⟩

/-- `start_torrent` and `add_torrent` take their lock only while every pipeline of the torrent
that is under way has published its coordinator. -/
def StartsApart (s : GuiState) (e : GuiEvent) : Prop :=
  ∀ p ∈ stepping s e, p.stage.locksToStart = true →
    ∀ q ∈ s.procs, Unfinished s.shared p.id q → q.stage.isPublished = true

/-- `remove_torrent` takes its locks only while no pipeline of the torrent is between the
publishing of its coordinator and the recording of its final status. -/
def RemovesApart (s : GuiState) (e : GuiEvent) : Prop :=
  ∀ p ∈ stepping s e, p.stage.locksToRemove = true →
    ∀ q ∈ s.procs, Unfinished s.shared p.id q → q.stage.isPublished = false

/-- A published coordinator is in its entry until its pipeline records how it ended. -/
def Bound (s : GuiState) : Prop :=
  ∀ q ∈ s.procs, q.launch = s.shared.launch → q.stage.isPublished = true → InHandle s.shared q

/-- A published coordinator makes `start_torrent` and `add_torrent` refuse. -/
theorem StartsApart.alone {s : GuiState} {e : GuiEvent} (hok : StartsApart s e) (hb : Bound s) :
    Alone s e := by
  intro p hp hacc q hq hu
  have hlock : p.stage.locksToStart = true := by
    rcases hacc with ⟨hs, -⟩ | ⟨⟨record, hs⟩, -⟩ <;> rw [hs] <;> rfl
  obtain ⟨d, hd, hdq⟩ := hb q hq hu.1 (hok p hp hlock q hq hu)
  rw [hu.2.1] at hd
  rcases hacc with ⟨-, d', hd', hnone⟩ | ⟨-, hnone⟩
  · obtain rfl := Option.some.inj (hd.symm.trans hd')
    cases hdq.symm.trans hnone
  · cases hd.symm.trans hnone

/-- A pipeline's own steps keep its coordinator where they find it. -/
theorem Task.Step.bound_own {platform : Platform} {c c' : App} {p p' : Task} {e : TaskEvent}
    (h : Step platform c p e c' p') (hb : p.stage.isPublished = true → InHandle c p)
    (hp' : p'.stage.isPublished = true) : InHandle c' p' := by
  cases h with
  | published m infoHash peerId peers coordinator d hs hn hc =>
    refine ⟨d.publish p.number, ?_, rfl⟩
    change (c.modify p.id (Handle.publish p.number)).torrents p.id = _
    rw [App.torrents_modify_self, hc]
    rfl
  | began peers hs => exact hb (by rw [hs]; rfl)
  | sessionEnded hs hr => exact hb hp'
  | joined complete hs hr => exact hb (by rw [hs]; rfl)
  | unanswered _ _ _ _ hs => exact hb hp'
  | wrote _ _ next => cases next <;> cases hp'
  | notWritten _ _ next => cases next <;> cases hp'
  | removed mode => cases mode <;> cases hp'
  | dropped mode => cases mode <;> cases hp'
  | _ => cases hp'

/-- A step that removes apart keeps published coordinators in their entries. -/
theorem GuiStep.bound {s s' : GuiState} {e : GuiEvent} (h : GuiStep platform s e s')
    (hn : Numbered s) (hs : Sole s) (hok : RemovesApart s e) (hb : Bound s) : Bound s' := by
  cases h with
  | command command =>
    intro q hq hql hq'
    rcases List.mem_append.mp hq with hq | hq
    · exact hb q hq hql hq'
    · obtain rfl := List.mem_singleton.mp hq
      cases command <;> cases hq'
  | task k p p' c' e hp hl h =>
    intro q hq hql hq'
    obtain ⟨j, hj⟩ := List.mem_iff_getElem?.mp hq
    rw [PoolProgram.getElem?_set_proc hp] at hj
    by_cases hjk : j = k
    · rw [if_pos hjk] at hj
      obtain rfl := Option.some.inj hj
      exact h.bound_own (hb p (List.mem_of_getElem? hp) hl) hq'
    rw [if_neg hjk] at hj
    have hqm := List.mem_of_getElem? hj
    have hql : q.launch = s.shared.launch := hql.trans h.launch.1
    have hqu := Stage.unfinished_of_isPublished hq'
    rcases h.inHandle (hb q hqm hql hq') with hin | ⟨hid, hpu | hlock⟩
    · exact hin
    -- another pipeline of the torrent that is under way would be this one
    · exact absurd (hs.eq hn hj hp ⟨hql, hid.symm, hqu⟩ ⟨hl, rfl, hpu⟩) hjk
    · cases (hok p hp hlock q hqm ⟨hql, hid.symm, hqu⟩).symm.trans hq'
  | relaunch =>
    intro q hq hql
    exact absurd hql (hn.launch_ne hq)

/-- When the commands that start a torrent, and the one that removes it, take their locks. -/
def OneAtATime (s : GuiState) (e : GuiEvent) : Prop := StartsApart s e ∧ RemovesApart s e

/-- In a run of one pipeline at a time each is the only one of its torrent, and its coordinator
is in the entry once published. -/
theorem sole_bound {run : GuiRun} {s : GuiState}
    (hr : (guiSystem platform stored).HistoryWhere OneAtATime run s) : Sole s ∧ Bound s := by
  refine hr.state_invariant (P := fun s => Sole s ∧ Bound s) ?_ ?_
  · refine ⟨fun q hq => ?_, fun q hq => ?_⟩ <;> cases hq
  · intro s e s' hreach hs hok h
    have hn := numbered hreach
    have hstep := gui_step_cases h
    exact ⟨hstep.sole hn (hok.1.alone hs.2) hs.1, hstep.bound hn hs.1 hok.2 hs.2⟩

/-- With the output files in hand: about to make them, or writing to them. -/
def Stage.writesOutput : Stage → Bool
  | .creating _ _ _ _ | .publishing _ _ _ _ | .published _ | .running => true
  | _ => false

/-- The pipeline writes the output files of its torrent. -/
def WritesOutput (c : App) (id : String) (p : Task) : Prop :=
  p.launch = c.launch ∧ p.id = id ∧ p.stage.writesOutput = true

/-- A pipeline that writes the output files is under way. -/
theorem WritesOutput.unfinished {c : App} {id : String} {p : Task} (h : WritesOutput c id p) :
    Unfinished c id p := by
  obtain ⟨hl, hid, hw⟩ := h
  refine ⟨hl, hid, ?_⟩
  cases hs : p.stage <;> rw [hs] at hw <;> first | rfl | cases hw

/-- A torrent has one pipeline at a time: one that writes its files, and one coordinator in
`Coordinator::run`, which is the one in its entry. -/
theorem one_pipeline {run : GuiRun} {s : GuiState}
    (hr : (guiSystem platform stored).HistoryWhere OneAtATime run s) :
    (∀ id (i j : Nat) (p q : Task), s.procs[i]? = some p → s.procs[j]? = some q →
      Unfinished s.shared id p → Unfinished s.shared id q → i = j) ∧
    (∀ id (i j : Nat) (p q : Task), s.procs[i]? = some p → s.procs[j]? = some q →
      WritesOutput s.shared id p → WritesOutput s.shared id q → i = j) ∧
    ∀ q ∈ s.procs, q.launch = s.shared.launch → q.stage = .running → InHandle s.shared q := by
  obtain ⟨hs, hb⟩ := sole_bound hr
  have hn := numbered ⟨run, hr.history⟩
  refine ⟨fun id i j p q hp hq hpu hqu => ?_, fun id i j p q hp hq hpw hqw => ?_,
    fun q hq hl hrunning => ?_⟩
  · exact hs.eq hn hp hq hpu hqu
  · exact hs.eq hn hp hq hpw.unfinished hqw.unfinished
  · exact hb q hq hl (by rw [hrunning]; rfl)

/-! ## Runs of a torrent of one file -/

/-- The GUI with an empty registry. -/
abbrev freshGui : System GuiState GuiEvent := guiSystem .unix fun _ => none

/-- The answer of a tracker that knows one peer. -/
def oneResponse : AnnounceResponse where
  interval := 0
  peers := [.v4 0 0]
  seeders := none
  leechers := none

/-- Task `k` adds the torrent and comes to the start of its pipeline. -/
def traceAdd (k : Nat) : List GuiEvent :=
  [.spawn (.addTorrent "t" "/dl"), .proc k (.read (.ok (loneMetainfo "a", .ok "1"))),
    .proc k .proceed, .proc k .proceed, .proc k (.written true)]

/-- Task `k` starts the torrent and comes to the start of its pipeline. -/
def traceStart (k : Nat) : List GuiEvent :=
  [.spawn (.startTorrent "1"), .proc k .proceed, .proc k .proceed, .proc k .proceed,
    .proc k (.written true)]

/-- Pipeline `k` reads its file, announces, makes the output files, publishes its coordinator
and begins its run. -/
def traceRun (k : Nat) : List GuiEvent :=
  [.proc k (.parsed (.ok (loneMetainfo "a", .ok [])) []), .proc k (.reply (.ok oneResponse)),
    .proc k (.created (.ok ())), .proc k .proceed, .proc k .proceed]

/-- The run of pipeline `k` ends, and the pipeline records how. -/
def traceEnd (k : Nat) (complete : Bool) : List GuiEvent :=
  [.proc k .sessionEnded, .proc k (.joined (.ok ()) complete), .proc k .proceed, .proc k .proceed,
    .proc k (.written true)]

/-- Task `k` removes the torrent from the list. -/
def traceRemove (k : Nat) : List GuiEvent :=
  [.spawn (.removeTorrent "1" .list), .proc k .proceed, .proc k .proceed, .proc k .proceed,
    .proc k (.written true)]

/-- Task `k` cancels the torrent. -/
def traceCancel (k : Nat) : List GuiEvent :=
  [.spawn (.cancelDownload "1"), .proc k .proceed, .proc k .proceed, .proc k .proceed,
    .proc k (.written true)]

def Stage.isRunning : Stage → Bool
  | .running => true
  | _ => false

instance (stage : Stage) : Decidable (stage = .running) :=
  decidable_of_iff (stage.isRunning = true) (by cases stage <;> simp [Stage.isRunning])

instance (c : App) (id : String) (p : Task) : Decidable (Unfinished c id p) :=
  inferInstanceAs (Decidable (_ ∧ _ ∧ _))

instance (c : App) (id : String) (p : Task) : Decidable (WritesOutput c id p) :=
  inferInstanceAs (Decidable (_ ∧ _ ∧ _))

instance (c : App) (p : Task) : Decidable (InHandle c p) :=
  decidable_of_iff ((c.torrents p.id).any fun d => d.coordinator == some p.number)
    (by simp [InHandle, Option.any_eq_true])

instance (s : GuiState) (e : GuiEvent) : Decidable (OneAtATime s e) :=
  inferInstanceAs (Decidable ((∀ p ∈ stepping s e, _ → ∀ q ∈ s.procs, _ → _) ∧
    ∀ p ∈ stepping s e, _ → ∀ q ∈ s.procs, _ → _))

/-- A torrent is added and runs; it is started in vain, ends, is started again and ends; it is
removed, added again and runs. -/
def addedTwice : List GuiEvent :=
  List.flatten [traceAdd 0, traceRun 0, [.spawn (.startTorrent "1"), .proc 1 .proceed],
    traceEnd 0 false, traceStart 2, traceRun 2, traceEnd 2 true, traceRemove 3, traceAdd 4,
    traceRun 4]

/-- The running coordinator of the torrent that was added again is in its entry, and no other
of its pipelines is under way. -/
theorem one_pipeline_added : ∃ s : GuiState,
    (∃ p ∈ s.procs[1]?, p.stage matches .returned (.error .alreadyRunning)) ∧
    ∃ q, s.procs[4]? = some q ∧ q.stage = .running ∧ Unfinished s.shared "1" q ∧
      InHandle s.shared q ∧
      ∀ (i : Nat) (p : Task), s.procs[i]? = some p → Unfinished s.shared "1" p → i = 4 := by
  obtain ⟨run, s, hr, hrefused, q, hq, hrunning, hu⟩ :=
    System.HistoryWhere.exists_of_execWhile freshGui
      (P := fun s => (∃ p ∈ s.procs[1]?, p.stage matches .returned (.error .alreadyRunning)) ∧
        ∃ q ∈ s.procs[4]?, q.stage = .running ∧ Unfinished s.shared "1" q)
      (fun s e => decide (OneAtATime s e)) (fun s e h => of_decide_eq_true h) addedTwice
      (by decide +kernel)
  obtain ⟨hone, -, hin⟩ := one_pipeline hr
  exact ⟨s, hrefused, q, hq, hrunning, hu,
    hin q (List.mem_of_getElem? hq) hu.1 hrunning, fun i p hp hpu => hone "1" i 4 p q hp hq hpu hu⟩

/-- Started while its pipeline still announces, a torrent has two pipelines. Both write
its files, and the coordinator of one is out of reach. -/
theorem two_pipelines : ∃ run s, freshGui.History run s ∧
    ∃ p ∈ s.procs[0]?, ∃ q ∈ s.procs[1]?,
      (Unfinished s.shared "1" p ∧ Unfinished s.shared "1" q) ∧
      (WritesOutput s.shared "1" p ∧ WritesOutput s.shared "1" q) ∧
      p.stage = .running ∧ (s.shared.controls p.number).receivers ≠ 0 ∧ ¬ InHandle s.shared p :=
  ⟨_, System.History.exists_of_exec freshGui
    (traceAdd 0 ++ traceStart 1 ++ traceRun 0 ++ traceRun 1) (by decide +kernel)⟩

end Torrentina.Gui
