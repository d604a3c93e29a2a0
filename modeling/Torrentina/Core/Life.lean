import Torrentina.Core.Pool

/-!
# The life of one process

A run of a pool, seen from one of its processes, is the list of the sections
that process ran, each with the shared state it met and left. Statements about
what a process does over time are statements about this list. The rule below
lifts an invariant of the list and the process to every run; the sections may
be restricted by a side condition that reads what the process did before.
-/

namespace Torrentina.Core

namespace PoolProgram

variable {σ π ρ ε η : Type*}

/-- The section process `k` ran in a transition of the pool. -/
def ownStep (k : Nat) (t : Transition (Pool σ π) (PoolEvent ρ ε η)) :
    Option (Transition (σ × π) ε) :=
  match t.event with
  | .proc j e =>
    if j = k then
      t.pre.procs[k]?.bind fun p => t.post.procs[k]?.map fun p' =>
        ⟨(t.pre.shared, p), e, (t.post.shared, p')⟩
    else none
  | _ => none

/-- The sections process `k` ran, in order. -/
def life (k : Nat) (run : List (Transition (Pool σ π) (PoolEvent ρ ε η))) :
    List (Transition (σ × π) ε) :=
  run.filterMap (ownStep k)

theorem life_snoc (k : Nat) (run : List (Transition (Pool σ π) (PoolEvent ρ ε η)))
    (t : Transition (Pool σ π) (PoolEvent ρ ε η)) :
    life k (run ++ [t]) = life k run ++ (ownStep k t).toList := by
  rw [life, List.filterMap_append, List.filterMap_cons]
  cases ownStep k t <;> rfl

/-- What is not a section of the process adds nothing to its life. -/
theorem life_snoc_other {k : Nat} {run : List (Transition (Pool σ π) (PoolEvent ρ ε η))}
    {t : Transition (Pool σ π) (PoolEvent ρ ε η)} (h : ∀ e, t.event ≠ .proc k e) :
    life k (run ++ [t]) = life k run := by
  have hnone : ownStep k t = none := by
    unfold ownStep
    split
    · rename_i j e he
      refine if_neg fun hj => ?_
      subst hj
      exact h e he
    · rfl
  rw [life_snoc, hnone, Option.toList_none, List.append_nil]

theorem ownStep_proc {s : Pool σ π} {σ' : σ} {k : Nat} {e : ε} {p p' : π}
    (hp : s.procs[k]? = some p) :
    ownStep k (⟨s, .proc k e, ⟨σ', s.procs.set k p'⟩⟩ :
        Transition (Pool σ π) (PoolEvent ρ ε η)) =
      some ⟨(s.shared, p), e, (σ', p')⟩ := by
  have hnew : (s.procs.set k p')[k]? = some p' := by
    rw [getElem?_set_proc hp, if_pos rfl]
  simp only [ownStep, if_true, hp, hnew, Option.bind_some, Option.map_some]

variable {P : PoolProgram σ π ρ ε η} {init : σ}

/-- Before it is spawned a process has no life. -/
theorem life_eq_nil {run : List (Transition (Pool σ π) (PoolEvent ρ ε η))} {s : Pool σ π}
    (hr : (P.system init).History run s) {k : Nat} (hk : s.procs.length ≤ k) :
    life k run = [] := by
  revert hk
  refine hr.invariant (P := fun run s => s.procs.length ≤ k → life k run = []) (fun _ => rfl) ?_
  intro run s e s' _ ih _ hstep hk
  cases e with
  | spawn a =>
    obtain ⟨σ', q, -, rfl⟩ := poolStep_spawn hstep
    rw [life_snoc_other fun e he => by cases he]
    rw [List.length_append] at hk
    exact ih (Nat.le_of_add_right_le hk)
  | proc j ev =>
    obtain ⟨q, σ', q', hq, -, rfl⟩ := poolStep_proc hstep
    obtain ⟨hlt, -⟩ := List.getElem?_eq_some_iff.mp hq
    rw [List.length_set] at hk
    have hne : j ≠ k := by omega
    rw [life_snoc_other fun e he => hne (PoolEvent.proc.inj he).1]
    exact ih hk
  | env ev =>
    obtain ⟨σ', -, rfl⟩ := poolStep_env hstep
    rw [life_snoc_other fun e he => by cases he]
    exact ih hk

/-- An invariant `J` of what a process did and what it is. It starts with the
process, and a section that meets `ok` keeps it; `G` and `I` are an invariant of
the pool that may be used. -/
structure InductiveLife (P : PoolProgram σ π ρ ε η) (G : σ → Prop) (I : σ → π → Prop)
    (ok : List (Transition (σ × π) ε) → Transition (σ × π) ε → Prop)
    (J : List (Transition (σ × π) ε) → π → Prop) : Prop where
  spawn : ∀ c a c' p, G c → P.spawn c a = some (c', p) → J [] p
  step : ∀ l c p e c' p', G c → I c p → J l p → P.step c p e = some (c', p') →
    ok l ⟨(c, p), e, (c', p')⟩ → J (l ++ [⟨(c, p), e, (c', p')⟩]) p'

variable {G : σ → Prop} {I : σ → π → Prop}
  {ok : List (Transition (σ × π) ε) → Transition (σ × π) ε → Prop}
  {J : List (Transition (σ × π) ε) → π → Prop}

/-- Such an invariant holds of every process in every run in which each section
of the process meets the side condition. -/
theorem InductiveLife.history (hJ : P.InductiveLife G I ok J) (hI : P.Inductive G I)
    (h0 : G init) {run : List (Transition (Pool σ π) (PoolEvent ρ ε η))} {s : Pool σ π}
    (hr : (P.system init).History run s) {k : Nat}
    (hok : ∀ before t after, life k run = before ++ t :: after → ok before t) {p : π}
    (hp : s.procs[k]? = some p) : J (life k run) p := by
  revert hok p
  refine hr.invariant (P := fun run s =>
    (∀ before t after, life k run = before ++ t :: after → ok before t) →
      ∀ p, s.procs[k]? = some p → J (life k run) p) ?_ ?_
  · intro _ p hp
    cases hp
  intro run s e s' hrun ih _ hstep hok p hp
  obtain ⟨hG, hall⟩ := hI.reachable h0 ⟨run, hrun⟩
  cases e with
  | spawn a =>
    obtain ⟨σ', q, hs, rfl⟩ := poolStep_spawn hstep
    rw [life_snoc_other fun e he => by cases he] at hok ⊢
    rw [List.getElem?_append] at hp
    split at hp
    · exact ih hok p hp
    · rename_i hk
      obtain rfl := List.mem_singleton.mp (List.mem_of_getElem? hp)
      rw [life_eq_nil hrun (Nat.le_of_not_lt hk)]
      exact hJ.spawn s.shared a σ' p hG hs
  | proc j ev =>
    obtain ⟨q, σ', q', hq, hs, rfl⟩ := poolStep_proc hstep
    by_cases hj : j = k
    · subst hj
      rw [life_snoc, ownStep_proc hq, Option.toList_some] at hok ⊢
      rw [getElem?_set_proc hq, if_pos rfl] at hp
      obtain rfl := Option.some.inj hp
      have hold := ih (fun before t after hsplit =>
        hok before t (after ++ [_]) (by rw [hsplit, List.append_assoc, List.cons_append])) q hq
      exact hJ.step (life j run) s.shared q ev σ' q' hG (hall q (List.mem_of_getElem? hq)) hold hs
        (hok (life j run) _ [] rfl)
    · rw [life_snoc_other fun e he => hj (PoolEvent.proc.inj he).1] at hok ⊢
      rw [getElem?_set_proc hq, if_neg fun h => hj h.symm] at hp
      exact ih hok p hp
  | env ev =>
    obtain ⟨σ', -, rfl⟩ := poolStep_env hstep
    rw [life_snoc_other fun e he => by cases he] at hok ⊢
    exact ih hok p hp

end PoolProgram

end Torrentina.Core
