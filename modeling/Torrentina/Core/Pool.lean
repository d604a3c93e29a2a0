import Torrentina.Core.System
import Mathlib.Algebra.Ring.Nat

/-!
# Processes over a shared state

A pool is a shared state and a list of processes, each with its own local
state. A step spawns a process, runs one atomic section of one process, or is a
step of the environment, which sees the shared state only. The rules below
lift what one section does to every reachable pool: an invariant of each process
together with the shared state, and the change of a count over the processes.
-/

namespace Torrentina.Core

/-- A shared state and the processes over it, in the order they were spawned. -/
structure Pool (σ π : Type*) where
  shared : σ
  procs : List π

/-- The events of a pool. -/
inductive PoolEvent (ρ ε η : Type*)
  | spawn (arg : ρ)
  | proc (k : Nat) (e : ε)
  | env (e : η)

/-- What spawning, one section of a process and the environment do. -/
structure PoolProgram (σ π ρ ε η : Type*) where
  spawn : σ → ρ → Option (σ × π)
  step : σ → π → ε → Option (σ × π)
  env : σ → η → Option σ

namespace PoolProgram

variable {σ π ρ ε η : Type*}

/-- One step of a pool. -/
def poolStep (P : PoolProgram σ π ρ ε η) (s : Pool σ π) : PoolEvent ρ ε η → Option (Pool σ π)
  | .spawn a => (P.spawn s.shared a).map fun r => ⟨r.1, s.procs ++ [r.2]⟩
  | .proc k e => s.procs[k]?.bind fun p =>
    (P.step s.shared p e).map fun r => ⟨r.1, s.procs.set k r.2⟩
  | .env e => (P.env s.shared e).map fun σ' => ⟨σ', s.procs⟩

/-- The transition system of a program, from a shared state with no process. -/
def system (P : PoolProgram σ π ρ ε η) (init : σ) : System (Pool σ π) (PoolEvent ρ ε η) where
  init := ⟨init, []⟩
  step := P.poolStep

variable {P : PoolProgram σ π ρ ε η} {s s' : Pool σ π}

theorem poolStep_spawn {a : ρ} (h : P.poolStep s (.spawn a) = some s') :
    ∃ σ' p, P.spawn s.shared a = some (σ', p) ∧ s' = ⟨σ', s.procs ++ [p]⟩ := by
  obtain ⟨⟨σ', p⟩, hs, h⟩ := Option.map_eq_some_iff.mp h
  exact ⟨σ', p, hs, h.symm⟩

theorem poolStep_proc {k : Nat} {e : ε} (h : P.poolStep s (.proc k e) = some s') :
    ∃ p σ' p', s.procs[k]? = some p ∧ P.step s.shared p e = some (σ', p') ∧
      s' = ⟨σ', s.procs.set k p'⟩ := by
  obtain ⟨p, hp, h⟩ := Option.bind_eq_some_iff.mp h
  obtain ⟨⟨σ', p'⟩, hs, h⟩ := Option.map_eq_some_iff.mp h
  exact ⟨p, σ', p', hp, hs, h.symm⟩

theorem poolStep_env {e : η} (h : P.poolStep s (.env e) = some s') :
    ∃ σ', P.env s.shared e = some σ' ∧ s' = ⟨σ', s.procs⟩ := by
  obtain ⟨σ', hs, h⟩ := Option.map_eq_some_iff.mp h
  exact ⟨σ', hs, h.symm⟩

/-- A section of one process leaves the others as they are. -/
theorem getElem?_set_proc {l : List π} {k : Nat} {p p' : π} (hp : l[k]? = some p) (j : Nat) :
    (l.set k p')[j]? = if j = k then some p' else l[j]? := by
  obtain ⟨hk, -⟩ := List.getElem?_eq_some_iff.mp hp
  rw [List.getElem?_set]
  by_cases hj : k = j
  · subst hj
    rw [if_pos rfl, if_pos hk, if_pos rfl]
  · rw [if_neg hj, if_neg fun h => hj h.symm]

theorem mem_set_proc {l : List π} {k : Nat} {p p' q : π} (hp : l[k]? = some p)
    (hq : q ∈ l.set k p') : q = p' ∨ q ∈ l := by
  obtain ⟨j, hj⟩ := List.mem_iff_getElem?.mp hq
  rw [getElem?_set_proc hp] at hj
  by_cases hjk : j = k
  · rw [if_pos hjk] at hj
    exact .inl (Option.some.inj hj).symm
  · rw [if_neg hjk] at hj
    exact .inr (List.mem_of_getElem? hj)

/-- A count over the processes changes by what the stepping process contributes. -/
theorem countP_set_proc (f : π → Bool) {l : List π} {k : Nat} {p p' : π}
    (hp : l[k]? = some p) :
    (l.set k p').countP f + (f p).toNat = l.countP f + (f p').toNat := by
  induction l generalizing k with
  | nil => simp at hp
  | cons a l ih =>
    cases k with
    | zero =>
      obtain rfl := Option.some.inj hp
      rw [List.set_cons_zero, List.countP_cons, List.countP_cons]
      cases f a <;> cases f p' <;> simp
    | succ k =>
      have h := ih (k := k) hp
      rw [List.set_cons_succ, List.countP_cons, List.countP_cons]
      omega

/-- A sum over the processes changes by what the stepping process contributes. -/
theorem sum_set_proc (f : π → Nat) {l : List π} {k : Nat} {p q : π} (hp : l[k]? = some p) :
    ((l.set k q).map f).sum + f p = (l.map f).sum + f q := by
  induction l generalizing k with
  | nil => simp at hp
  | cons a l ih =>
    cases k with
    | zero =>
      obtain rfl := Option.some.inj hp
      simp only [List.set_cons_zero, List.map_cons, List.sum_cons]
      omega
    | succ k =>
      have h := ih (k := k) hp
      simp only [List.set_cons_succ, List.map_cons, List.sum_cons]
      omega

/-- A process is unchanged by every step that is not its own. -/
theorem getElem?_procs_of_other {e : PoolEvent ρ ε η} (h : P.poolStep s e = some s') {k : Nat}
    (he : ∀ ev, e ≠ .proc k ev) {p : π} (hp : s.procs[k]? = some p) :
    s'.procs[k]? = some p := by
  cases e with
  | spawn a =>
    obtain ⟨σ', q, -, rfl⟩ := poolStep_spawn h
    obtain ⟨hk, -⟩ := List.getElem?_eq_some_iff.mp hp
    rw [List.getElem?_append_left hk, hp]
  | proc j ev =>
    obtain ⟨q, σ', q', hq, -, rfl⟩ := poolStep_proc h
    rw [getElem?_set_proc hq, if_neg, hp]
    rintro rfl
    exact he ev rfl
  | env ev =>
    obtain ⟨σ', -, rfl⟩ := poolStep_env h
    exact hp

/-- A side condition on the sections of single processes, as one on the events of a pool. -/
def EveryStep (ok : σ → π → ε → Prop) (s : Pool σ π) (e : PoolEvent ρ ε η) : Prop :=
  ∀ k ev p, e = .proc k ev → s.procs[k]? = some p → ok s.shared p ev

/-- An invariant `G` of the shared state and `I` of each process against it,
kept by spawning, by a section of the process itself that meets `ok`, by such a
section of another process, and by the environment. -/
structure InductiveWhere (P : PoolProgram σ π ρ ε η) (ok : σ → π → ε → Prop) (G : σ → Prop)
    (I : σ → π → Prop) : Prop where
  spawn : ∀ c a c' p, G c → P.spawn c a = some (c', p) →
    G c' ∧ I c' p ∧ ∀ q, I c q → I c' q
  step : ∀ c p e c' p', G c → I c p → ok c p e → P.step c p e = some (c', p') →
    G c' ∧ I c' p' ∧ ∀ q, I c q → I c' q
  env : ∀ c e c', G c → P.env c e = some c' → G c' ∧ ∀ q, I c q → I c' q

/-- The unrestricted form of `InductiveWhere`. -/
structure Inductive (P : PoolProgram σ π ρ ε η) (G : σ → Prop) (I : σ → π → Prop) : Prop where
  spawn : ∀ c a c' p, G c → P.spawn c a = some (c', p) →
    G c' ∧ I c' p ∧ ∀ q, I c q → I c' q
  step : ∀ c p e c' p', G c → I c p → P.step c p e = some (c', p') →
    G c' ∧ I c' p' ∧ ∀ q, I c q → I c' q
  env : ∀ c e c', G c → P.env c e = some c' → G c' ∧ ∀ q, I c q → I c' q

variable {ok : σ → π → ε → Prop} {G : σ → Prop} {I : σ → π → Prop} {init : σ}

/-- Such an invariant is kept by every step of the pool that meets the side condition. -/
theorem InductiveWhere.poolStep (hI : P.InductiveWhere ok G I) {e : PoolEvent ρ ε η}
    (hok : EveryStep ok s e) (h : P.poolStep s e = some s')
    (hs : G s.shared ∧ ∀ p ∈ s.procs, I s.shared p) :
    G s'.shared ∧ ∀ p ∈ s'.procs, I s'.shared p := by
  obtain ⟨hG, hall⟩ := hs
  cases e with
  | spawn a =>
    obtain ⟨σ', p', hs, rfl⟩ := poolStep_spawn h
    obtain ⟨hG', hnew, hold⟩ := hI.spawn s.shared a σ' p' hG hs
    refine ⟨hG', fun p hp => ?_⟩
    rcases List.mem_append.mp hp with hp | hp
    · exact hold p (hall p hp)
    · obtain rfl := List.mem_singleton.mp hp
      exact hnew
  | proc k e =>
    obtain ⟨p, σ', p', hp, hs, rfl⟩ := poolStep_proc h
    obtain ⟨hG', hown, hother⟩ :=
      hI.step s.shared p e σ' p' hG (hall p (List.mem_of_getElem? hp)) (hok k e p rfl hp) hs
    refine ⟨hG', fun q hq => ?_⟩
    rcases mem_set_proc hp hq with rfl | hq
    · exact hown
    · exact hother q (hall q hq)
  | env e =>
    obtain ⟨σ', hs, rfl⟩ := poolStep_env h
    obtain ⟨hG', hother⟩ := hI.env s.shared e σ' hG hs
    exact ⟨hG', fun p hp => hother p (hall p hp)⟩

/-- Such an invariant holds along every run whose sections meet the side condition. -/
theorem InductiveWhere.history (hI : P.InductiveWhere ok G I) (h0 : G init)
    {run : List (Transition (Pool σ π) (PoolEvent ρ ε η))}
    (hr : (P.system init).HistoryWhere (EveryStep ok) run s) :
    G s.shared ∧ ∀ p ∈ s.procs, I s.shared p := by
  refine hr.state_invariant (P := fun s => G s.shared ∧ ∀ p ∈ s.procs, I s.shared p) ?_ ?_
  · refine ⟨h0, fun p hp => ?_⟩
    cases hp
  · intro s e s' _ hs hok h
    exact hI.poolStep hok h hs

/-- Such an invariant holds in every reachable pool. -/
theorem Inductive.reachable (hI : P.Inductive G I) (h0 : G init)
    (hr : (P.system init).Reachable s) : G s.shared ∧ ∀ p ∈ s.procs, I s.shared p := by
  have hw : P.InductiveWhere (fun _ _ _ => True) G I :=
    ⟨hI.spawn, fun c p e c' p' hG hp _ => hI.step c p e c' p' hG hp, hI.env⟩
  refine hr.invariant (P := fun s => G s.shared ∧ ∀ p ∈ s.procs, I s.shared p) ?_ ?_
  · refine ⟨h0, fun p hp => ?_⟩
    cases hp
  · intro s e s' _ hs h
    exact hw.poolStep (fun _ _ _ _ _ => trivial) h hs

end PoolProgram

end Torrentina.Core
