import Torrentina.Gui.Pipelines

/-!
# How pipelines end

A pipeline ends with the lock under which it records its status, in `run_pipeline`
or in the error branch of `spawn_pipeline`. It looks the entry up by the id alone.
An entry belongs to the task that added or started it last, so the end of a
pipeline is its own business exactly when it finds no entry of another task, or
finds there what it is about to write.
-/

namespace Torrentina.Gui

open Torrentina.Core

/-- The status a pipeline is about to record as its last. -/
def Stage.ending : Stage → Option Status
  | .finishing status => some status
  | .settingStatus status next => if next = .ends then some status else none
  | _ => none

/-- Whether the coordinator of the entry is cleared along with it. -/
def Stage.clears : Stage → Bool
  | .finishing _ => true
  | _ => false

/-- A pipeline that ends leaves the coordinator and the status of an entry alone
that was added, or started, after it. -/
def EndsOwn (t : Transition GuiState GuiEvent) : Prop :=
  ∀ p ∈ stepping t.pre t.event, p.stage.ending.isSome → t.pre.shared.latest p.id ≠ p.number →
    ∀ d ∈ t.pre.shared.torrents p.id, ∃ d' ∈ t.post.shared.torrents p.id,
      d'.coordinator = d.coordinator ∧ d'.record.status = d.record.status

/-- A pipeline that ends finds no entry that was added, or started, after it, or one
that shows what it would write. -/
def EndsQuietly (s : GuiState) (e : GuiEvent) : Prop :=
  ∀ p ∈ stepping s e, ∀ status ∈ p.stage.ending, s.shared.latest p.id ≠ p.number →
    ∀ d ∈ s.shared.torrents p.id,
      d.record.status = status ∧ (p.stage.clears = true → d.coordinator = none)

theorem ending_of_canFail {stage : Stage} (h : Task.canFail stage = true) :
    stage.ending = none := by
  cases stage <;> first | rfl | cases h

/-- What a pipeline writes to the entry when it ends. -/
theorem Task.Step.ending {platform : Platform} {c c' : App} {p p' : Task} {e : TaskEvent}
    (h : Step platform c p e c' p') {status : Status} (hp : p.stage.ending = some status)
    {d : Handle} (hd : c.torrents p.id = some d) :
    ∃ d', c'.torrents p.id = some d' ∧ d'.record.status = status ∧
      d'.coordinator = if p.stage.clears then none else d.coordinator := by
  cases h with
  | statusSet status' next hs =>
    rw [hs] at hp ⊢
    rw [Stage.ending] at hp
    split at hp
    · obtain rfl := Option.some.inj hp
      exact ⟨_, App.torrents_modify_of_eq_some hd _, rfl, rfl⟩
    · cases hp
  | finished status' hs =>
    rw [hs] at hp ⊢
    obtain rfl := Option.some.inj hp
    exact ⟨_, App.torrents_modify_of_eq_some hd _, rfl, rfl⟩
  | failed e hs =>
    rw [ending_of_canFail hs] at hp
    cases hp
  | _ => simp_all [Stage.ending]

theorem Stage.unfinished_of_ending {stage : Stage} (h : stage.ending.isSome = true) :
    stage.unfinished = true := by
  cases stage with
  | settingStatus status next => cases next <;> first | rfl | cases h
  | finishing => rfl
  | _ => cases h

variable {platform : Platform} {stored : String → Option Record}

/-- One end leaves an entry of a later task alone exactly when there is nothing to change. -/
theorem GuiStep.endsOwn_iff {s s' : GuiState} {e : GuiEvent} (h : GuiStep platform s e s') :
    EndsOwn ⟨s, e, s'⟩ ↔ EndsQuietly s e := by
  cases h with
  | command => exact iff_of_true (fun p hp => by cases hp) (fun p hp => by cases hp)
  | relaunch => exact iff_of_true (fun p hp => by cases hp) (fun p hp => by cases hp)
  | task k p p' c' e hp hl h =>
    have hsame : ∀ q, q ∈ stepping s (.proc k e) ↔ q = p := by
      intro q
      rw [stepping, hp]
      exact Option.mem_some_iff.trans eq_comm
    constructor
    · intro hown q hq status hstatus hne d hd
      obtain rfl := (hsame q).mp hq
      obtain ⟨d', hd', hcoord, hst⟩ := hown q hq (Option.isSome_of_mem hstatus) hne d hd
      obtain ⟨d'', hd'', hst', hcoord'⟩ := h.ending hstatus hd
      obtain rfl := Option.some.inj (hd'.symm.trans hd'')
      refine ⟨hst.symm.trans hst', fun hclears => ?_⟩
      rw [← hcoord, hcoord', if_pos hclears]
    · intro hquiet q hq hends hne d hd
      obtain rfl := (hsame q).mp hq
      obtain ⟨status, hstatus⟩ := Option.isSome_iff_exists.mp hends
      obtain ⟨hst, hclears⟩ := hquiet q hq status hstatus hne d hd
      obtain ⟨d', hd', hst', hcoord'⟩ := h.ending hstatus hd
      refine ⟨d', hd', ?_, hst'.trans hst.symm⟩
      rw [hcoord']
      split
      · rename_i hc
        exact (hclears hc).symm
      · rfl

/-- The pipelines of a run leave entries of later tasks alone exactly when each finds
nothing to change there. -/
theorem ends_own_iff {run : GuiRun} {s : GuiState}
    (hr : (guiSystem platform stored).History run s) :
    (∀ t ∈ run, EndsOwn t) ↔ ∀ t ∈ run, EndsQuietly t.pre t.event :=
  forall₂_congr fun _ ht => (gui_step_cases (hr.mem ht).2.2).endsOwn_iff

/-- A pipeline that is the only one of its torrent under way ends as the latest. -/
theorem Sole.endsQuietly {s s' : GuiState} {e : GuiEvent} (hs : Sole s)
    (h : GuiStep platform s e s') : EndsQuietly s e := by
  intro p hp status hstatus hne
  have hl := h.launch_of_mem_stepping hp
  have hunfinished := Stage.unfinished_of_ending (Option.isSome_of_mem hstatus)
  exact absurd (hs p (mem_of_mem_stepping hp) p.id ⟨hl, rfl, hunfinished⟩) hne

/-- The pipelines of a run leave entries of later tasks alone when commands are accepted
only while no pipeline of the torrent is under way. -/
theorem ends_own {run : GuiRun} {s : GuiState}
    (hr : (guiSystem platform stored).HistoryWhere Alone run s) : ∀ t ∈ run, EndsOwn t := by
  refine (ends_own_iff hr.history).mpr fun t ht => ?_
  obtain ⟨before, after, hsplit⟩ := List.append_of_mem ht
  exact (sole (hr.before hsplit)).endsQuietly (gui_step_cases (hr.mem ht).2.2)

instance (t : Transition GuiState GuiEvent) : Decidable (EndsOwn t) :=
  inferInstanceAs (Decidable (∀ p ∈ stepping t.pre t.event, _))

instance (s : GuiState) (e : GuiEvent) : Decidable (EndsQuietly s e) :=
  inferInstanceAs (Decidable (∀ p ∈ stepping s e, _))

/-- `Accepts`, as it is computed. -/
def accepts (c : App) (p : Task) : Bool :=
  match p.stage with
  | .starting => (c.torrents p.id).any fun d => d.coordinator.isNone
  | .inserting _ => (c.torrents p.id).isNone
  | _ => false

theorem Accepts.eq_true {c : App} {p : Task} (h : Accepts c p) : accepts c p = true := by
  rcases h with ⟨hs, d, hd, hnone⟩ | ⟨⟨record, hs⟩, hc⟩
  · simp [accepts, hs, hd, hnone]
  · simp [accepts, hs, hc]

/-- A check that implies `Alone`. -/
def alone (s : GuiState) (e : GuiEvent) : Bool :=
  (stepping s e).all fun p => !accepts s.shared p ||
    s.procs.all fun q => !decide (Unfinished s.shared p.id q)

theorem Alone.of_check (s : GuiState) (e : GuiEvent) (h : alone s e = true) : Alone s e := by
  intro p hp hacc q hq
  have hp : stepping s e = some p := hp
  simp only [alone, hp, Option.all_some, hacc.eq_true, Bool.not_true, Bool.false_or,
    List.all_eq_true] at h
  simpa using h q hq

/-- A pipeline ends that finds an entry which was added, or started, after it. -/
def EndsLate (t : Transition GuiState GuiEvent) : Prop :=
  ∃ p ∈ stepping t.pre t.event, p.stage.ending.isSome ∧
    t.pre.shared.latest p.id ≠ p.number ∧ (t.pre.shared.torrents p.id).isSome

instance (t : Transition GuiState GuiEvent) : Decidable (EndsLate t) :=
  inferInstanceAs (Decidable (∃ p ∈ stepping t.pre t.event, _))

/-- A running torrent is removed and its pipeline ends without an entry; it is added again and
runs to its end, and is started once more. -/
def removedAndRestarted : List GuiEvent :=
  List.flatten [traceAdd 0, traceRun 0, traceRemove 1, traceEnd 0 false, traceAdd 2, traceRun 2,
    traceEnd 2 false, traceStart 3, traceRun 3, traceEnd 3 true]

/-- A running torrent is removed and added again while its pipeline winds down; the new
download is cancelled and ends, and then the old pipeline ends. -/
def cancelledBoth : List GuiEvent :=
  List.flatten [traceAdd 0, traceRun 0, traceRemove 1, traceAdd 2, traceRun 2, traceCancel 3,
    traceEnd 2 false, traceEnd 0 false]

/-- Three pipelines of a torrent end one after the other, the last as the owner of its
completed entry. Where an old pipeline ends in the entry of a new one, it may find there what it
would write. -/
theorem ends_own_restarted : (∃ run s, freshGui.HistoryWhere Alone run s ∧
      s.shared.latest "1" = 3 ∧ (∃ d ∈ s.shared.torrents "1", d.record.status = .complete) ∧
      ∀ t ∈ run, EndsOwn t) ∧
    ∃ run s, freshGui.History run s ∧ (∃ t ∈ run, EndsLate t) ∧ ∀ t ∈ run, EndsOwn t := by
  constructor
  · obtain ⟨run, s, hr, hlatest, hcomplete⟩ := System.HistoryWhere.exists_of_execWhile freshGui
      (P := fun s => s.shared.latest "1" = 3 ∧
        ∃ d ∈ s.shared.torrents "1", d.record.status = .complete)
      alone Alone.of_check removedAndRestarted (by decide +kernel)
    exact ⟨run, s, hr, hlatest, hcomplete, ends_own hr⟩
  · obtain ⟨s, hr⟩ := System.History.of_isSome freshGui cancelledBoth (by decide +kernel)
    exact ⟨_, s, hr, by decide +kernel, (ends_own_iff hr).mpr (by decide +kernel)⟩

/-- A torrent that is removed and added again while its pipeline winds down is left without
a coordinator, and recorded as stopped, by the end of that pipeline. -/
theorem end_clobbers_entry : ∃ run s, freshGui.History run s ∧ ∃ t ∈ run, ¬ EndsOwn t := by
  obtain ⟨s, hr⟩ := System.History.of_isSome freshGui
    (traceAdd 0 ++ traceRun 0 ++ traceRemove 1 ++ traceAdd 2 ++ traceRun 2 ++ traceEnd 0 false)
    (by decide +kernel)
  exact ⟨_, s, hr, by decide +kernel⟩

end Torrentina.Gui
