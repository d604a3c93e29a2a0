import Mathlib.Algebra.Order.Floor.Div
import Mathlib.Data.List.Basic

/-!
# Fixed-width chunks

Cutting a list into chunks of one width, dropping what is left over, as
`chunks_exact` does, or keeping it as a shorter chunk, as `chunks` does.
Concatenated entries of that width are cut into themselves.
-/

namespace Torrentina.Core

variable {α : Type}

/-- `slice::chunks_exact`. -/
def chunksExact (width : Nat) (xs : List α) : List (List α) :=
  (List.range (xs.length / width)).map fun i => (xs.drop (i * width)).take width

/-- `slice::chunks`. -/
def chunks (width : Nat) (xs : List α) : List (List α) :=
  (List.range (xs.length ⌈/⌉ width)).map fun i => (xs.drop (i * width)).take width

theorem chunksExact_append {width : Nat} (hw : 0 < width) {chunk : List α}
    (hc : chunk.length = width) (rest : List α) :
    chunksExact width (chunk ++ rest) = chunk :: chunksExact width rest := by
  have hlen : (chunk ++ rest).length / width = rest.length / width + 1 := by
    rw [List.length_append, hc, Nat.add_div_left _ hw]
  rw [chunksExact, hlen, List.range_succ_eq_map, List.map_cons, List.map_map, Nat.zero_mul,
    List.drop_zero, List.take_left' hc]
  congr 1
  apply List.map_congr_left
  intro i _
  change ((chunk ++ rest).drop ((i + 1) * width)).take width = _
  rw [Nat.add_mul, Nat.one_mul, Nat.add_comm, ← List.drop_drop, List.drop_left' hc]

/-- Concatenated entries of the width are its chunks. -/
theorem chunksExact_flatten {width : Nat} (hw : 0 < width) {entries : List (List α)}
    (h : ∀ e ∈ entries, e.length = width) : chunksExact width entries.flatten = entries := by
  induction entries with
  | nil => simp [chunksExact]
  | cons e es ih =>
    obtain ⟨he, hes⟩ := List.forall_mem_cons.mp h
    rw [List.flatten_cons, chunksExact_append hw he, ih hes]

end Torrentina.Core
