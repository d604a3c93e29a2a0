import Mathlib.Algebra.BigOperators.Group.Finset.Basic
import Mathlib.Algebra.Order.BigOperators.Group.Finset
import Mathlib.Data.List.Basic

/-!
# Tilings of an interval

Half-open intervals, given by where they start and how long they are, that
follow one another without gap from zero to a total. None is empty, so every
position below the total lies in exactly one of them.
-/

namespace Torrentina.Core

/-- The intervals `[start i, start i + length i)` for `i < n` tile `[0, total)` in order. -/
structure Tiles (start length : Nat → Nat) (n total : Nat) : Prop where
  first : start 0 = 0
  next : ∀ i, i + 1 < n → start i + length i = start (i + 1)
  last : ∀ i, i + 1 = n → start i + length i = total
  pos : ∀ i, i < n → 0 < length i
  nonempty : 0 < n

/-- The intervals `[start i, start i + length i)` for `i < n` partition `[0, total)` in order. -/
structure Partitions (start length : Nat → Nat) (n total : Nat) : Prop where
  cover : ∀ p, p < total → ∃! i, i < n ∧ start i ≤ p ∧ p < start i + length i
  inside : ∀ i, i < n → start i + length i ≤ total
  ordered : ∀ i j, i < j → j < n → start i + length i ≤ start j

namespace Tiles

variable {start length : Nat → Nat} {n total : Nat}

/-- Tiles that come earlier end earlier. -/
theorem add_le_start (h : Tiles start length n total) {i j : Nat} (hij : i < j) (hj : j < n) :
    start i + length i ≤ start j := by
  induction j with
  | zero => exact absurd hij (Nat.not_lt_zero i)
  | succ j ih =>
    rcases Nat.lt_succ_iff_lt_or_eq.mp hij with hlt | rfl
    · have hstep := h.next j hj
      have hle := ih hlt (by omega)
      omega
    · exact Nat.le_of_eq (h.next i hj)

theorem add_le_total (h : Tiles start length n total) {i : Nat} (hi : i < n) :
    start i + length i ≤ total := by
  have hn := h.nonempty
  have hlast := h.last (n - 1) (by omega)
  by_cases he : i = n - 1
  · rw [he]
    exact Nat.le_of_eq hlast
  · have hle : start i + length i ≤ start (n - 1) := h.add_le_start (by omega) (by omega)
    omega

/-- A position below the end of tile `i` lies in a tile up to `i`. -/
theorem exists_mem_of_lt (h : Tiles start length n total) {i p : Nat} (hi : i < n)
    (hp : p < start i + length i) : ∃ j, j ≤ i ∧ start j ≤ p ∧ p < start j + length j := by
  induction i with
  | zero => exact ⟨0, Nat.le_refl 0, by rw [h.first]; omega, hp⟩
  | succ i ih =>
    by_cases hle : start (i + 1) ≤ p
    · exact ⟨i + 1, Nat.le_refl _, hle, hp⟩
    · have hstep := h.next i hi
      obtain ⟨j, hj, hmem⟩ := ih (by omega) (by omega)
      exact ⟨j, by omega, hmem⟩

/-- Every position belongs to exactly one tile. -/
theorem existsUnique_mem (h : Tiles start length n total) {p : Nat} (hp : p < total) :
    ∃! i, i < n ∧ start i ≤ p ∧ p < start i + length i := by
  have hn := h.nonempty
  have hlast := h.last (n - 1) (by omega)
  obtain ⟨i, hi, hmem⟩ := h.exists_mem_of_lt (i := n - 1) (p := p) (by omega) (by omega)
  refine ⟨i, ⟨by omega, hmem⟩, ?_⟩
  rintro j ⟨hj, hjp⟩
  rcases Nat.lt_trichotomy j i with hlt | rfl | hlt
  · have hle := h.add_le_start hlt (by omega)
    omega
  · rfl
  · have hle := h.add_le_start hlt hj
    omega

theorem partitions (h : Tiles start length n total) : Partitions start length n total where
  cover _ := h.existsUnique_mem
  inside _ := h.add_le_total
  ordered _ _ := h.add_le_start

/-! ### Sums of tiles -/

theorem sum_range (h : Tiles start length n total) {m : Nat} (hm : m < n) :
    ∑ i ∈ Finset.range m, length i = start m := by
  induction m with
  | zero => rw [Finset.sum_range_zero, h.first]
  | succ m ih => rw [Finset.sum_range_succ, ih (Nat.lt_of_succ_lt hm), h.next m hm]

/-- All the tiles together are as long as the whole. -/
theorem sum_length (h : Tiles start length n total) :
    ∑ i ∈ Finset.range n, length i = total := by
  obtain ⟨m, rfl⟩ : ∃ m, n = m + 1 := Nat.exists_eq_add_one.mpr h.nonempty
  rw [Finset.sum_range_succ, h.sum_range (Nat.lt_succ_self m), h.last m rfl]

variable {s : Finset Nat}

/-- Some of the tiles are no longer than the whole. -/
theorem sum_le (h : Tiles start length n total) (hs : s ⊆ Finset.range n) :
    ∑ i ∈ s, length i ≤ total := by
  rw [← h.sum_length]
  exact Finset.sum_le_sum_of_subset hs

/-- Only all of the tiles are as long as the whole. -/
theorem sum_eq_iff (h : Tiles start length n total) (hs : s ⊆ Finset.range n) :
    ∑ i ∈ s, length i = total ↔ s = Finset.range n := by
  constructor
  · intro he
    refine hs.antisymm fun i hi => ?_
    by_contra hno
    rw [← h.sum_length] at he
    refine (Finset.sum_lt_sum_of_subset hs hi hno (h.pos i (Finset.mem_range.mp hi)) ?_).ne he
    exact fun _ _ _ => Nat.zero_le _
  · rintro rfl
    exact h.sum_length

end Tiles

end Torrentina.Core
