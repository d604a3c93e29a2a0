import Mathlib.Data.Finset.Insert

/-!
# Pushing what was not seen before

A loop that keeps a set of what it has seen, and pushes a value only when it is
new to the set, keeps the first occurrence of every value, in order.
-/

namespace Torrentina.Core

variable {α : Type*} [DecidableEq α]

/-- `if seen.insert(a) { out.push(a) }`. -/
def pushNew (acc : Finset α × List α) (a : α) : Finset α × List α :=
  if a ∈ acc.1 then acc else (insert a acc.1, acc.2 ++ [a])

/-- The loop pushes the first occurrence of everything that was not seen before it. -/
theorem foldl_pushNew (seen : Finset α) (out l : List α) :
    (l.foldl pushNew (seen, out)).2 = out ++ (l.filter fun a => a ∉ seen).eraseDups := by
  induction l generalizing seen out with
  | nil => simp
  | cons a l ih =>
    rw [List.foldl_cons, pushNew]
    by_cases ha : a ∈ seen
    · rw [if_pos ha, ih, List.filter_cons_of_neg (by simpa using ha)]
    · rw [if_neg ha, ih, List.filter_cons_of_pos (by simpa using ha), List.eraseDups_cons,
        List.filter_filter, List.append_assoc, List.singleton_append]
      congr 3
      refine List.filter_congr fun b _ => ?_
      simp only [Finset.mem_insert, not_or, Bool.decide_and, decide_not]
      rfl

/-- From the empty set on, it keeps the first occurrences. -/
theorem foldl_pushNew_empty (l : List α) : (l.foldl pushNew (∅, [])).2 = l.eraseDups := by
  rw [foldl_pushNew, List.nil_append, List.filter_eq_self.mpr (by simp)]

/-- Nothing is kept of the empty list only. -/
theorem eraseDups_eq_nil_iff {l : List α} : l.eraseDups = [] ↔ l = [] := by
  cases l with
  | nil => simp
  | cons a l => simp [List.eraseDups_cons]

end Torrentina.Core
