import Torrentina.Core.System

/-!
# Counting steps and projecting runs

Two rules about runs. A quantity that no step raises, and that every step of
one kind lowers, bounds how many steps of that kind a run has. A system each of
whose steps is a step of another one, or invisible in it, reaches only states of
the other one.
-/

namespace Torrentina.Core.System

variable {σ ε τ δ : Type*} {sys : System σ ε} {ok : σ → ε → Prop}

theorem countP_snoc (own : ε → Bool) (h : List (Transition σ ε)) (s s' : σ) (e : ε) :
    List.countP (fun t => own t.event) (h ++ [⟨s, e, s'⟩]) =
      h.countP (fun t => own t.event) + (own e).toNat := by
  rw [List.countP_append, List.countP_singleton]
  cases own e <;> rfl

/-- A variant bounds the number of the steps that lower it. -/
theorem HistoryWhere.countP_le (own : ε → Bool) (measure : σ → Nat)
    (hstep : ∀ h s e s', sys.HistoryWhere ok h s → ok s e → sys.step s e = some s' →
      measure s' + (own e).toNat ≤ measure s)
    {h : List (Transition σ ε)} {s : σ} (hh : sys.HistoryWhere ok h s) :
    h.countP (fun t => own t.event) + measure s ≤ measure sys.init := by
  induction hh with
  | nil => exact Nat.le_of_eq (Nat.zero_add _)
  | snoc hh hok hs ih =>
    have hle := hstep _ _ _ _ hh hok hs
    rw [countP_snoc]
    omega

/-- After a transition that establishes `P`, a variant bounds the number of the steps that lower
it, as long as only events are met that keep `P`. -/
theorem HistoryWhere.countP_since {P : σ → Prop} {quiet : ε → Prop} (own : ε → Bool)
    (measure : σ → Nat) {h before after : List (Transition σ ε)} {t : Transition σ ε} {s : σ}
    (hh : sys.HistoryWhere ok h s) (hsplit : h = before ++ t :: after) (ht : P t.post)
    (hquiet : ∀ u ∈ after, quiet u.event)
    (hstep : ∀ s e s', sys.Reachable s → P s → quiet e → sys.step s e = some s' →
      P s' ∧ measure s' + (own e).toNat ≤ measure s) :
    P s ∧ after.countP (fun t => own t.event) + measure s ≤ measure t.post := by
  induction hh generalizing after with
  | nil => simp at hsplit
  | @snoc _ s s' e hh hok hs ih =>
    rcases List.eq_nil_or_concat after with rfl | ⟨after', u, rfl⟩
    · obtain ⟨-, hu⟩ := List.append_inj' hsplit rfl
      obtain rfl := List.head_eq_of_cons_eq hu
      exact ⟨ht, Nat.le_of_eq (Nat.zero_add _)⟩
    · rw [List.concat_eq_append, ← List.cons_append, ← List.append_assoc] at hsplit
      obtain ⟨hbefore, hu⟩ := List.append_inj' hsplit rfl
      obtain rfl := List.head_eq_of_cons_eq hu
      rw [List.concat_eq_append] at hquiet
      obtain ⟨hp, hle⟩ := ih hbefore fun u hu => hquiet u (List.mem_append_left _ hu)
      have hlast := hquiet ⟨s, e, s'⟩ (List.mem_append_right _ List.mem_cons_self)
      obtain ⟨hp', hle'⟩ := hstep s e s' ⟨_, hh.history⟩ hp hlast hs
      refine ⟨hp', ?_⟩
      rw [List.concat_eq_append, countP_snoc]
      omega

/-- What a system shows of another one is reachable there. -/
theorem Reachable.project {sys' : System τ δ} (view : σ → τ) (hinit : view sys.init = sys'.init)
    (hstep : ∀ s e s', sys.step s e = some s' →
      view s' = view s ∨ ∃ d, sys'.step (view s) d = some (view s'))
    {s : σ} (hr : sys.Reachable s) : sys'.Reachable (view s) := by
  refine hr.invariant (P := fun s => sys'.Reachable (view s)) (hinit ▸ .init) ?_
  intro s e s' _ hv hs
  rcases hstep s e s' hs with heq | ⟨d, hd⟩
  · rw [heq]
    exact hv
  · exact hv.step hd

end Torrentina.Core.System
