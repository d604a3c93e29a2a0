import Mathlib.Data.List.Basic

/-!
# Labelled transition systems with recorded histories

A system is a guarded, executable successor function: a disabled event has no
successor. A history records every transition with the state before and after
it, so a statement about a whole run is a statement about a list. Histories may
be restricted to transitions that meet a side condition, which is how a
property that only some runs enjoy is stated without changing the system.
-/

namespace Torrentina.Core

/-- An initial state and a guarded successor function. -/
structure System (σ ε : Type*) where
  /-- The state every run starts from. -/
  init : σ
  /-- The successor of a state under an event, absent when the event is disabled. -/
  step : σ → ε → Option σ

/-- One executed transition: the state before, the event and the state after. -/
structure Transition (σ ε : Type*) where
  /-- The state the event fired in. -/
  pre : σ
  /-- The event that fired. -/
  event : ε
  /-- The state the event led to. -/
  post : σ

namespace System

variable {σ ε : Type*}

/-- Execute a list of events, failing at the first disabled one. -/
def exec (sys : System σ ε) (s : σ) : List ε → Option σ
  | [] => some s
  | e :: es => (sys.step s e).bind fun s' => sys.exec s' es

/-- Execute a list of events, failing also at the first one that does not pass a check. -/
def execWhile (sys : System σ ε) (check : σ → ε → Bool) (s : σ) : List ε → Option σ
  | [] => some s
  | e :: es => if check s e then (sys.step s e).bind fun s' => sys.execWhile check s' es else none

/-- The transitions of executing a list of events, up to the first disabled one. -/
def recorded (sys : System σ ε) (s : σ) : List ε → List (Transition σ ε)
  | [] => []
  | e :: es =>
    match sys.step s e with
    | some s' => ⟨s, e, s'⟩ :: sys.recorded s' es
    | none => []

theorem exec_eq_execWhile (sys : System σ ε) (s : σ) (es : List ε) :
    sys.exec s es = sys.execWhile (fun _ _ => true) s es := by
  induction es generalizing s with
  | nil => rfl
  | cons e es ih =>
    rw [exec, execWhile, if_pos rfl]
    congr 1
    funext s'
    exact ih s'

/-- A recorded run from the initial state whose transitions all satisfy `ok`. -/
inductive HistoryWhere (sys : System σ ε) (ok : σ → ε → Prop) :
    List (Transition σ ε) → σ → Prop
  | nil : HistoryWhere sys ok [] sys.init
  | snoc {h : List (Transition σ ε)} {s s' : σ} {e : ε} : HistoryWhere sys ok h s → ok s e →
      sys.step s e = some s' → HistoryWhere sys ok (h ++ [⟨s, e, s'⟩]) s'

/-- A recorded run with no side condition. -/
def History (sys : System σ ε) : List (Transition σ ε) → σ → Prop :=
  sys.HistoryWhere fun _ _ => True

/-- A state some run ends in. -/
def Reachable (sys : System σ ε) (s : σ) : Prop := ∃ h, sys.History h s

variable {sys : System σ ε} {ok : σ → ε → Prop}

/-- Forgetting the side condition leaves an ordinary run. -/
theorem HistoryWhere.history {h : List (Transition σ ε)} {s : σ}
    (hh : sys.HistoryWhere ok h s) : sys.History h s := by
  induction hh with
  | nil => exact .nil
  | snoc _ _ hs ih => exact .snoc ih trivial hs

/-- A weaker side condition holds of the same run. -/
theorem HistoryWhere.mono {ok' : σ → ε → Prop} (hweak : ∀ s e, ok s e → ok' s e)
    {h : List (Transition σ ε)} {s : σ} (hh : sys.HistoryWhere ok h s) :
    sys.HistoryWhere ok' h s := by
  induction hh with
  | nil => exact .nil
  | snoc _ hok hs ih => exact .snoc ih (hweak _ _ hok) hs

/-- A run whose transitions all satisfy a side condition. -/
theorem History.where {h : List (Transition σ ε)} {s : σ} (hh : sys.History h s)
    (hok : ∀ t ∈ h, ok t.pre t.event) : sys.HistoryWhere ok h s := by
  induction hh with
  | nil => exact .nil
  | snoc _ _ hs ih =>
    refine .snoc (ih fun t ht => hok t (List.mem_append_left _ ht)) ?_ hs
    exact hok _ (List.mem_append_right _ (List.mem_singleton_self _))

/-- An invariant that may read the history holds along every restricted run. -/
theorem HistoryWhere.invariant {P : List (Transition σ ε) → σ → Prop} (hinit : P [] sys.init)
    (hstep : ∀ h s e s', sys.HistoryWhere ok h s → P h s → ok s e → sys.step s e = some s' →
      P (h ++ [⟨s, e, s'⟩]) s')
    {h : List (Transition σ ε)} {s : σ} (hh : sys.HistoryWhere ok h s) : P h s := by
  induction hh with
  | nil => exact hinit
  | snoc hh hok hs ih => exact hstep _ _ _ _ hh ih hok hs

/-- A state predicate kept by every permitted step holds along every restricted run. -/
theorem HistoryWhere.state_invariant {P : σ → Prop} (hinit : P sys.init)
    (hstep : ∀ s e s', sys.Reachable s → P s → ok s e → sys.step s e = some s' → P s')
    {h : List (Transition σ ε)} {s : σ} (hh : sys.HistoryWhere ok h s) : P s :=
  hh.invariant (P := fun _ s => P s) hinit
    fun h s e s' hr hp hok hs => hstep s e s' ⟨h, hr.history⟩ hp hok hs

/-- The unrestricted form of the invariant rule. -/
theorem Reachable.invariant {P : σ → Prop} (hinit : P sys.init)
    (hstep : ∀ s e s', sys.Reachable s → P s → sys.step s e = some s' → P s')
    {s : σ} (hr : sys.Reachable s) : P s := by
  obtain ⟨h, hh⟩ := hr
  exact hh.state_invariant hinit fun s e s' hr hp _ hs => hstep s e s' hr hp hs

theorem Reachable.init : sys.Reachable sys.init := ⟨[], .nil⟩

theorem Reachable.step {s s' : σ} {e : ε} (hr : sys.Reachable s) (hs : sys.step s e = some s') :
    sys.Reachable s' := by
  obtain ⟨h, hh⟩ := hr
  exact ⟨_, .snoc hh trivial hs⟩

/-- Executing checked events extends a history by one transition for each of them. -/
theorem HistoryWhere.execWhile (check : σ → ε → Bool) (hcheck : ∀ s e, check s e = true → ok s e)
    {h : List (Transition σ ε)} {s s' : σ} (hh : sys.HistoryWhere ok h s) (es : List ε)
    (he : sys.execWhile check s es = some s') :
    ∃ h', sys.HistoryWhere ok (h ++ h') s' ∧ h'.length = es.length := by
  induction es generalizing h s with
  | nil =>
    obtain rfl : s = s' := Option.some.inj he
    exact ⟨[], by rwa [List.append_nil], rfl⟩
  | cons e es ih =>
    unfold System.execWhile at he
    split at he
    · rename_i hc
      obtain ⟨t, ht, he'⟩ := Option.bind_eq_some_iff.mp he
      obtain ⟨h', hh', hl⟩ := ih (.snoc hh (hcheck s e hc) ht) he'
      exact ⟨⟨s, e, t⟩ :: h', by simpa using hh', by simp [hl]⟩
    · cases he

theorem History.exec {h : List (Transition σ ε)} {s s' : σ} (hh : sys.History h s) (es : List ε)
    (he : sys.exec s es = some s') :
    ∃ h', sys.History (h ++ h') s' ∧ h'.length = es.length := by
  rw [exec_eq_execWhile] at he
  exact HistoryWhere.execWhile _ (fun _ _ _ => trivial) hh es he

/-- A run extended by what a checked execution records is a run. -/
theorem HistoryWhere.recorded (check : σ → ε → Bool) (hcheck : ∀ s e, check s e = true → ok s e)
    {h : List (Transition σ ε)} {s s' : σ} (hh : sys.HistoryWhere ok h s) (es : List ε)
    (he : sys.execWhile check s es = some s') :
    sys.HistoryWhere ok (h ++ sys.recorded s es) s' := by
  induction es generalizing h s with
  | nil =>
    obtain rfl : s = s' := Option.some.inj he
    rwa [System.recorded, List.append_nil]
  | cons e es ih =>
    unfold System.execWhile at he
    split at he
    · rename_i hc
      obtain ⟨t, ht, he'⟩ := Option.bind_eq_some_iff.mp he
      have hrest := ih (.snoc hh (hcheck s e hc) ht) he'
      rw [System.recorded, ht]
      simpa using hrest
    · cases he

/-- A run extended by what an execution records is a run. -/
theorem History.recorded {h : List (Transition σ ε)} {s s' : σ} (hh : sys.History h s)
    (es : List ε) (he : sys.exec s es = some s') : sys.History (h ++ sys.recorded s es) s' := by
  rw [exec_eq_execWhile] at he
  exact HistoryWhere.recorded _ (fun _ _ _ => trivial) hh es he

/-- What is recorded are the executed events. -/
theorem event_mem_of_recorded {s : σ} {es : List ε} {t : Transition σ ε}
    (h : t ∈ sys.recorded s es) : t.event ∈ es := by
  induction es generalizing s with
  | nil => cases h
  | cons e es ih =>
    rw [System.recorded] at h
    split at h
    · rcases List.mem_cons.mp h with rfl | h
      · exact List.mem_cons_self
      · exact List.mem_cons_of_mem _ (ih h)
    · cases h

/-- What an execution from the initial state records is a run. -/
theorem History.ofExec (es : List ε) {s : σ} (he : sys.exec sys.init es = some s) :
    sys.History (sys.recorded sys.init es) s :=
  History.recorded .nil es he

variable (sys) in
/-- What an execution to a state with a property records is a run to such a state. -/
theorem History.exists_of_exec {P : σ → Prop} [DecidablePred P] (es : List ε)
    (h : (sys.exec sys.init es).any (fun s => decide (P s)) = true) :
    ∃ s, sys.History (sys.recorded sys.init es) s ∧ P s := by
  obtain ⟨s, hs, hp⟩ := (Option.any_eq_true ..).mp h
  exact ⟨s, .ofExec es hs, of_decide_eq_true hp⟩

variable (sys) in
/-- Events that pass a check and execute to a state with a property are a run to such a
state. -/
theorem HistoryWhere.exists_of_execWhile {P : σ → Prop} [DecidablePred P] (check : σ → ε → Bool)
    (hcheck : ∀ s e, check s e = true → ok s e) (es : List ε)
    (h : (sys.execWhile check sys.init es).any (fun s => decide (P s)) = true) :
    ∃ run s, sys.HistoryWhere ok run s ∧ P s := by
  obtain ⟨s, hs, hp⟩ := (Option.any_eq_true ..).mp h
  obtain ⟨run, hr, -⟩ := HistoryWhere.execWhile check hcheck .nil es hs
  exact ⟨_, s, hr, of_decide_eq_true hp⟩

variable (sys) in
/-- Events that pass a check and execute are a run; what its records and its last state are
found to satisfy holds of that run. -/
theorem HistoryWhere.exists_run {P : List (Transition σ ε) → σ → Prop}
    [∀ run s, Decidable (P run s)] (check : σ → ε → Bool)
    (hcheck : ∀ s e, check s e = true → ok s e) (es : List ε)
    (h : (sys.execWhile check sys.init es).any
      (fun s => decide (P (sys.recorded sys.init es) s)) = true) :
    ∃ run s, sys.HistoryWhere ok run s ∧ P run s := by
  obtain ⟨s, hs, hp⟩ := (Option.any_eq_true ..).mp h
  exact ⟨_, s, HistoryWhere.recorded check hcheck .nil es hs, of_decide_eq_true hp⟩

variable (sys) in
/-- What an execution records is a run to some state. -/
theorem History.of_isSome (es : List ε) (h : (sys.exec sys.init es).isSome = true) :
    ∃ s, sys.History (sys.recorded sys.init es) s := by
  obtain ⟨s, hs⟩ := Option.isSome_iff_exists.mp h
  exact ⟨s, .ofExec es hs⟩

/-- Executing from a reachable state ends in a reachable state. -/
theorem Reachable.exec {s s' : σ} (hr : sys.Reachable s) (es : List ε)
    (he : sys.exec s es = some s') : sys.Reachable s' := by
  obtain ⟨h, hh⟩ := hr
  obtain ⟨h', hh', -⟩ := History.exec hh es he
  exact ⟨_, hh'⟩

/-- The part of a run before one of its transitions is a run to that transition. -/
theorem HistoryWhere.before {h before after : List (Transition σ ε)} {t : Transition σ ε} {s : σ}
    (hh : sys.HistoryWhere ok h s) (hsplit : h = before ++ t :: after) :
    sys.HistoryWhere ok before t.pre := by
  induction hh generalizing after with
  | nil => simp at hsplit
  | snoc hh hok hs ih =>
    rcases List.eq_nil_or_concat after with rfl | ⟨after', u, rfl⟩
    · obtain ⟨rfl, ht⟩ := List.append_inj' hsplit rfl
      obtain rfl := List.head_eq_of_cons_eq ht
      exact hh
    · rw [List.concat_eq_append, ← List.cons_append, ← List.append_assoc] at hsplit
      exact ih (List.append_inj' hsplit rfl).1

/-- A relation between each transition of a run and the later ones, read off where the
run is split. -/
theorem pairwise_of_split {α : Type*} {R : α → α → Prop} {l : List α}
    (h : ∀ before a after, l = before ++ a :: after → ∀ b ∈ after, R a b) : l.Pairwise R := by
  induction l with
  | nil => exact .nil
  | cons a l ih =>
    refine .cons (h [] a l rfl) (ih fun before b after hsplit => h (a :: before) b after ?_)
    rw [hsplit, List.cons_append]

/-- What holds after one transition of a run, and is kept by every permitted step, holds
before each later transition and at the end. -/
theorem HistoryWhere.since {P : σ → Prop} {h before after : List (Transition σ ε)}
    {t : Transition σ ε} {s : σ} (hh : sys.HistoryWhere ok h s)
    (hsplit : h = before ++ t :: after) (ht : P t.post)
    (hkeep : ∀ s e s', sys.Reachable s → P s → ok s e → sys.step s e = some s' → P s') :
    P s ∧ ∀ u ∈ after, P u.pre := by
  induction hh generalizing after with
  | nil => simp at hsplit
  | snoc hh hok hs ih =>
    rcases List.eq_nil_or_concat after with rfl | ⟨after', u, rfl⟩
    · obtain ⟨-, hu⟩ := List.append_inj' hsplit rfl
      obtain rfl := List.head_eq_of_cons_eq hu
      exact ⟨ht, nofun⟩
    · rw [List.concat_eq_append, ← List.cons_append, ← List.append_assoc] at hsplit
      obtain ⟨hbefore, hu⟩ := List.append_inj' hsplit rfl
      obtain rfl := List.head_eq_of_cons_eq hu
      obtain ⟨hp, hall⟩ := ih hbefore
      refine ⟨hkeep _ _ _ ⟨_, hh.history⟩ hp hok hs, fun v hv => ?_⟩
      rw [List.concat_eq_append] at hv
      rcases List.mem_append.mp hv with hv | hv
      · exact hall v hv
      · obtain rfl := List.mem_singleton.mp hv
        exact hp

/-- What holds after one transition of a run holds at its end, or a later transition ended
it. -/
theorem HistoryWhere.holds_or_ended {P : σ → Prop} {h before after : List (Transition σ ε)}
    {t : Transition σ ε} {s : σ} (hh : sys.HistoryWhere ok h s)
    (hsplit : h = before ++ t :: after) (ht : P t.post) :
    P s ∨ ∃ u ∈ after, P u.pre ∧ ¬P u.post := by
  induction hh generalizing after with
  | nil => simp at hsplit
  | snoc hh hok hs ih =>
    rcases List.eq_nil_or_concat after with rfl | ⟨after', u, rfl⟩
    · obtain ⟨-, hu⟩ := List.append_inj' hsplit rfl
      obtain rfl := List.head_eq_of_cons_eq hu
      exact .inl ht
    · rw [List.concat_eq_append, ← List.cons_append, ← List.append_assoc] at hsplit
      obtain ⟨hbefore, hu⟩ := List.append_inj' hsplit rfl
      obtain rfl := List.head_eq_of_cons_eq hu
      rw [List.concat_eq_append]
      rcases ih hbefore with hp | ⟨w, hw, hend⟩
      · rw [or_iff_not_imp_left]
        exact fun hp' => ⟨_, List.mem_append_right _ List.mem_cons_self, hp, hp'⟩
      · exact .inr ⟨w, List.mem_append_left _ hw, hend⟩

/-- Every transition of a run was enabled, and the run restricted to its past is a run. -/
theorem HistoryWhere.mem {h : List (Transition σ ε)} {s : σ} (hh : sys.HistoryWhere ok h s)
    {t : Transition σ ε} (ht : t ∈ h) :
    sys.Reachable t.pre ∧ ok t.pre t.event ∧ sys.step t.pre t.event = some t.post := by
  induction hh with
  | nil => simp at ht
  | snoc hh hok hs ih =>
    rcases List.mem_append.mp ht with ht | ht
    · exact ih ht
    · obtain rfl := List.mem_singleton.mp ht
      exact ⟨⟨_, hh.history⟩, hok, hs⟩

end System

end Torrentina.Core
