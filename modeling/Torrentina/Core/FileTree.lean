import Mathlib.Data.List.Infix
import Mathlib.Logic.Function.Basic

/-!
# Deleting files

A file tree without links, as the locations that hold a file. A location is the
list of names that lead to it from a root. Removing a directory removes every
file below its location; it fails, and removes nothing, where the location holds
a file.
-/

namespace Torrentina.Core

/-- Which locations hold a file. -/
abbrev FileTree (κ : Type*) := List κ → Bool

namespace FileTree

variable {κ : Type*} [DecidableEq κ]

/-- `remove_file`; a location without a file is left as it is. -/
def removeFile (tree : FileTree κ) (l : List κ) : FileTree κ := Function.update tree l false

/-- `remove_dir_all`. -/
def removeDirAll (tree : FileTree κ) (l : List κ) : FileTree κ :=
  if tree l then tree else fun k => tree k && !l.isPrefixOf k

/-- Removing several files one after another. -/
def removeFiles (tree : FileTree κ) (ls : List (List κ)) : FileTree κ := ls.foldl removeFile tree

theorem removeFiles_eq_true_iff {tree : FileTree κ} {ls : List (List κ)} {k : List κ} :
    tree.removeFiles ls k = true ↔ tree k = true ∧ k ∉ ls := by
  induction ls generalizing tree with
  | nil => simp [removeFiles]
  | cons l ls ih =>
    have hcons : tree.removeFiles (l :: ls) k = (tree.removeFile l).removeFiles ls k := rfl
    rw [hcons, ih, List.mem_cons, not_or, removeFile]
    by_cases hk : k = l
    · rw [hk, Function.update_self]
      simp
    · rw [Function.update_of_ne hk, and_iff_right hk]

theorem removeDirAll_eq_true_iff {tree : FileTree κ} {l k : List κ} :
    tree.removeDirAll l k = true ↔ tree k = true ∧ (tree l = true ∨ ¬ l <+: k) := by
  unfold removeDirAll
  split
  · rename_i hl
    simp [hl]
  · rename_i hl
    simp [hl, ← List.isPrefixOf_iff_prefix]

end FileTree

end Torrentina.Core
