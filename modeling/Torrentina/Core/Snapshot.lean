import Mathlib.Data.List.Basic
import Mathlib.Order.MinMax

/-!
# Snapshots that are written later

Several writers change a value under a lock. After a change a writer takes a copy
under the lock, and it writes the copy to the store when it has let go of the
lock. Copies are numbered in the order they were taken. The store is up to date
whenever no writer is busy, if no copy is written over a later one; a restart
takes the value from the store, up to a relation `R`.
-/

namespace Torrentina.Core

/-- What a writer has still to do. -/
inductive Writer (α : Type*)
  | idle
  | dirty
  | holding (copy : α) (number : Nat)

/-- The value, the store, and the writers between them. -/
structure Snapshot (α : Type*) where
  current : α
  stored : α
  copies : Nat
  written : Nat
  writers : List (Writer α)

namespace Snapshot

variable {α : Type*} {R : α → α → Prop} {s s' : Snapshot α}

/-- The transitions of a store whose copies are written in order. -/
inductive Step (R : α → α → Prop) (s : Snapshot α) : Snapshot α → Prop
  | stay : Step R s s
  | join : Step R s { s with writers := s.writers ++ [.idle] }
  | change (k : Nat) (w : Writer α) (v : α) (hw : s.writers[k]? = some w)
      (hfree : ∀ copy number, w ≠ .holding copy number) :
      Step R s { s with current := v, writers := s.writers.set k .dirty }
  | take (k : Nat) (hw : s.writers[k]? = some .dirty) :
      Step R s { s with
        copies := s.copies + 1
        writers := s.writers.set k (.holding s.current (s.copies + 1)) }
  | write (k : Nat) (copy : α) (number : Nat) (hw : s.writers[k]? = some (.holding copy number))
      (horder : s.written ≤ number ∨ copy = s.stored) :
      Step R s { s with
        stored := copy
        written := max s.written number
        writers := s.writers.set k .idle }
  | restart (v : α) (hv : R s.stored v) :
      Step R s ⟨v, s.stored, s.copies + 1, s.copies + 1, s.writers.map fun _ => .idle⟩

/-- No change is without a copy of it. -/
def Copied (s : Snapshot α) : Prop := ∀ w ∈ s.writers, w ≠ .dirty

/-- No writer is busy. -/
def AtRest (s : Snapshot α) : Prop := ∀ w ∈ s.writers, w = .idle

/-- The newest copy is the current value, and it is in the store or about to be written. -/
structure Synced (R : α → α → Prop) (s : Snapshot α) : Prop where
  number : ∀ copy number, .holding copy number ∈ s.writers → number ≤ s.copies
  written : s.written ≤ s.copies
  newest : s.Copied → ∀ copy, .holding copy s.copies ∈ s.writers → copy = s.current
  stored : s.Copied → (R s.stored s.current ∧ s.written = s.copies) ∨
    ∃ copy, .holding copy s.copies ∈ s.writers

theorem Synced.atRest (h : Synced R s) (hrest : s.AtRest) : R s.stored s.current := by
  have hcopied : s.Copied := fun w hw => by
    rw [hrest w hw]
    nofun
  rcases h.stored hcopied with ⟨hr, -⟩ | ⟨copy, hm⟩
  · exact hr
  · cases hrest _ hm

/-- After a writer has moved, each writer is that one, or was there before. -/
theorem mem_set {l : List (Writer α)} {k : Nat} {w w' v : Writer α} (hw : l[k]? = some w) :
    v ∈ l.set k w' ↔ v = w' ∨ ∃ j, j ≠ k ∧ l[j]? = some v := by
  obtain ⟨hk, -⟩ := List.getElem?_eq_some_iff.mp hw
  rw [List.mem_iff_getElem?]
  constructor
  · rintro ⟨j, hj⟩
    rw [List.getElem?_set] at hj
    split at hj
    · exact .inl (Option.some.inj hj).symm
    · rename_i hne
      exact .inr ⟨j, fun h => hne h.symm, hj⟩
  · rintro (rfl | ⟨j, hne, hj⟩)
    · exact ⟨k, by rw [List.getElem?_set_self hk]⟩
    · exact ⟨j, by rw [List.getElem?_set_ne hne.symm, hj]⟩

/-- A writer that did not move, of those there are after the move. -/
theorem mem_set_of_ne {l : List (Writer α)} {k : Nat} {w w' v : Writer α} (hw : l[k]? = some w)
    (hne : v ≠ w) (hv : v ∈ l) : v ∈ l.set k w' := by
  obtain ⟨j, hj⟩ := List.mem_iff_getElem?.mp hv
  refine (mem_set hw).mpr (.inr ⟨j, ?_, hj⟩)
  rintro rfl
  exact hne (Option.some.inj (hj.symm.trans hw))

theorem mem_of_mem_set {l : List (Writer α)} {k : Nat} {w w' v : Writer α} (hw : l[k]? = some w)
    (hv : v ∈ l.set k w') (hne : v ≠ w') : v ∈ l := by
  rcases (mem_set hw).mp hv with h | ⟨j, -, hj⟩
  · exact absurd h hne
  · exact List.mem_of_getElem? hj

/-- The writer that moves is not dirty afterwards, and no other writer is, so none but the
one that moved was. -/
theorem Copied.of_set {k : Nat} {w w' : Writer α} (hw : s.writers[k]? = some w) (hne : w ≠ .dirty)
    (h : ∀ v ∈ s.writers.set k w', v ≠ .dirty) : s.Copied := by
  intro v hv
  rintro rfl
  exact h .dirty (mem_set_of_ne hw hne.symm hv) rfl

/-- A writer that joins has nothing to write. -/
theorem Synced.join (hs : Synced R s) : Synced R { s with writers := s.writers ++ [.idle] } := by
  have hmem : ∀ copy number, .holding copy number ∈ s.writers ++ [.idle] →
      .holding copy number ∈ s.writers := by
    intro copy number hm
    rcases List.mem_append.mp hm with hm | hm
    · exact hm
    · cases List.mem_singleton.mp hm
  have hcopied : (∀ w ∈ s.writers ++ [.idle], w ≠ .dirty) → s.Copied :=
    fun h w hw => h w (List.mem_append_left _ hw)
  constructor
  · exact fun copy number hm => hs.number copy number (hmem copy number hm)
  · exact hs.written
  · exact fun h copy hm => hs.newest (hcopied h) copy (hmem copy _ hm)
  · intro h
    refine (hs.stored (hcopied h)).imp_right fun ⟨copy, hm⟩ => ?_
    exact ⟨copy, List.mem_append_left _ hm⟩

/-- The writer that changed the value has still to copy it. -/
theorem Synced.change (hs : Synced R s) {k : Nat} {w : Writer α} (hw : s.writers[k]? = some w)
    (v : α) : Synced R { s with current := v, writers := s.writers.set k .dirty } := by
  have hdirty : ¬ Copied { s with current := v, writers := s.writers.set k .dirty } :=
    fun h => h .dirty ((mem_set hw).mpr (.inl rfl)) rfl
  constructor
  · exact fun copy number hm => hs.number copy number (mem_of_mem_set hw hm nofun)
  · exact hs.written
  · exact fun h => absurd h hdirty
  · exact fun h => absurd h hdirty

/-- The copy that is taken is the newest one, and the current value. -/
theorem Synced.take (hs : Synced R s) {k : Nat} (hw : s.writers[k]? = some .dirty) :
    Synced R { s with
      copies := s.copies + 1
      writers := s.writers.set k (.holding s.current (s.copies + 1)) } := by
  constructor
  · intro copy number hm
    rcases (mem_set hw).mp hm with heq | ⟨j, -, hj⟩
    · cases heq
      exact le_rfl
    · exact (hs.number copy number (List.mem_of_getElem? hj)).trans (Nat.le_succ _)
  · exact hs.written.trans (Nat.le_succ _)
  · intro _ copy hm
    rcases (mem_set hw).mp hm with heq | ⟨j, -, hj⟩
    · cases heq
      rfl
    · -- no copy before this one has its number
      have hle := hs.number copy _ (List.mem_of_getElem? hj)
      exact absurd hle (Nat.not_succ_le_self _)
  · exact fun _ => .inr ⟨s.current, (mem_set hw).mpr (.inl rfl)⟩

/-- A copy that is written is the newest one, or an older one while the newest has still
to be written, or what is in the store. -/
theorem Synced.write (hrefl : ∀ v, R v v) (hs : Synced R s) {k : Nat} {copy : α} {number : Nat}
    (hw : s.writers[k]? = some (.holding copy number))
    (horder : s.written ≤ number ∨ copy = s.stored) :
    Synced R { s with
      stored := copy
      written := max s.written number
      writers := s.writers.set k .idle } := by
  have hm := List.mem_of_getElem? hw
  have hle := hs.number copy number hm
  have hcopied : Copied { s with
      stored := copy, written := max s.written number, writers := s.writers.set k .idle } →
      s.Copied := Copied.of_set hw nofun
  constructor
  · exact fun copy number hm => hs.number copy number (mem_of_mem_set hw hm nofun)
  · exact max_le hs.written hle
  · exact fun h copy hm => hs.newest (hcopied h) copy (mem_of_mem_set hw hm nofun)
  · intro h
    have hc := hcopied h
    rcases hle.eq_or_lt with rfl | hlt
    · refine .inl ⟨?_, max_eq_right hs.written⟩
      change R copy s.current
      rw [hs.newest hc copy hm]
      exact hrefl _
    · rcases hs.stored hc with ⟨hr, hwritten⟩ | ⟨copy', hm'⟩
      · obtain rfl := horder.resolve_left (by omega)
        exact .inl ⟨hr, by rw [max_eq_left (by omega), hwritten]⟩
      · refine .inr ⟨copy', mem_set_of_ne hw ?_ hm'⟩
        intro heq
        exact hlt.ne (Writer.holding.inj heq).2.symm

/-- A restart leaves no writer with anything to write. -/
theorem Synced.restart {v : α} (hv : R s.stored v) :
    Synced R ⟨v, s.stored, s.copies + 1, s.copies + 1, s.writers.map fun _ => .idle⟩ := by
  have hidle : ∀ (copy : α) (number : Nat),
      Writer.holding copy number ∉ s.writers.map fun _ => Writer.idle := by
    intro copy number hm
    obtain ⟨_, -, h⟩ := List.mem_map.mp hm
    cases h
  constructor
  · exact fun copy number hm => absurd hm (hidle copy number)
  · exact le_rfl
  · exact fun _ copy hm => absurd hm (hidle copy _)
  · exact fun _ => .inl ⟨hv, rfl⟩

theorem Step.synced (hrefl : ∀ v, R v v) (h : Step R s s') (hs : Synced R s) : Synced R s' := by
  cases h with
  | stay => exact hs
  | join => exact hs.join
  | change k w v hw => exact hs.change hw v
  | take k hw => exact hs.take hw
  | write k copy number hw horder => exact hs.write hrefl hw horder
  | restart v hv => exact .restart hv

end Snapshot

end Torrentina.Core
