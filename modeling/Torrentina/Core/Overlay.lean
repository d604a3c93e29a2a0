import Mathlib.Data.List.Basic
import Mathlib.Order.Basic

/-!
# Positioned writes on a byte stream cut into files

`overlay o a d l` is what the stretch `l` of a stream, which begins at position
`o`, looks like after the data `d` was written at position `a`. Positions
outside the data are kept. It splits over concatenation, so a write that
straddles files is the same write on the concatenation of the files. `writeAt`
is the write one file receives, with the gap behind its end filled.
-/

namespace Torrentina.Core

variable {α : Type*}

/-- The stretch `l` at position `o` of a stream after `d` was written at position `a`. -/
def overlay (o a : Nat) (d l : List α) : List α :=
  l.mapIdx fun p x => if a ≤ o + p then (d[o + p - a]?).getD x else x

/-- A positioned write into one file: seek, then write, filling a gap with `zero`. -/
def writeAt (zero : α) (l : List α) (off : Nat) (d : List α) : List α :=
  (l ++ List.replicate (off - l.length) zero).take off ++ d ++ l.drop (off + d.length)

@[simp] theorem length_overlay (o a : Nat) (d l : List α) :
    (overlay o a d l).length = l.length := by
  simp [overlay]

theorem getElem?_overlay (o a : Nat) (d l : List α) (p : Nat) :
    (overlay o a d l)[p]? =
      l[p]?.map fun x => if a ≤ o + p then (d[o + p - a]?).getD x else x := by
  simp [overlay]

/-- A position the data covers holds the data. -/
theorem getElem?_overlay_of_mem {o a p : Nat} {d l : List α} (hp : p < l.length) (ha : a ≤ o + p)
    (hd : o + p < a + d.length) : (overlay o a d l)[p]? = d[o + p - a]? := by
  have hlt : o + p - a < d.length := by omega
  rw [getElem?_overlay, List.getElem?_eq_getElem hp, Option.map_some, if_pos ha,
    List.getElem?_eq_getElem hlt, Option.getD_some]

/-- A position the data does not cover is kept. -/
theorem getElem?_overlay_of_not_mem {o a p : Nat} {d l : List α}
    (h : o + p < a ∨ a + d.length ≤ o + p) : (overlay o a d l)[p]? = l[p]? := by
  rw [getElem?_overlay]
  cases l[p]? with
  | none => rfl
  | some x =>
    rw [Option.map_some]
    rcases h with h | h
    · rw [if_neg (by omega)]
    · rw [List.getElem?_eq_none (by omega), Option.getD_none, ite_self]

/-- A write on a concatenation is the write on each part at its own position. -/
theorem overlay_append (o a : Nat) (d l₁ l₂ : List α) :
    overlay o a d (l₁ ++ l₂) = overlay o a d l₁ ++ overlay (o + l₁.length) a d l₂ := by
  have hshift : ∀ i, o + (i + l₁.length) = o + l₁.length + i := by
    intro i
    omega
  simp only [overlay, List.mapIdx_append, hshift]

/-- A stretch the data does not meet is kept whole. -/
theorem overlay_of_disjoint {o a : Nat} {d l : List α}
    (h : min (a + d.length) (o + l.length) ≤ max a o) : overlay o a d l = l := by
  apply List.ext_getElem?
  intro p
  by_cases hp : p < l.length
  · exact getElem?_overlay_of_not_mem (by omega)
  · rw [List.getElem?_eq_none (by simpa using Nat.le_of_not_lt hp),
      List.getElem?_eq_none (Nat.le_of_not_lt hp)]

theorem getElem?_writeAt {zero : α} {l d : List α} {off : Nat} (h : off + d.length ≤ l.length)
    (p : Nat) : (writeAt zero l off d)[p]? =
      if off ≤ p ∧ p < off + d.length then d[p - off]? else l[p]? := by
  have hpad : l ++ List.replicate (off - l.length) zero = l := by
    rw [Nat.sub_eq_zero_of_le (by omega), List.replicate_zero, List.append_nil]
  rw [writeAt, hpad, List.append_assoc]
  by_cases h1 : p < off
  · rw [List.getElem?_append_left (by simp; omega), List.getElem?_take_of_lt h1, if_neg (by omega)]
  rw [List.getElem?_append_right (by simp; omega), List.length_take, Nat.min_eq_left (by omega)]
  by_cases h2 : p < off + d.length
  · rw [List.getElem?_append_left (by omega), if_pos (by omega)]
  · rw [List.getElem?_append_right (by omega), List.getElem?_drop, if_neg (by omega)]
    congr 1
    omega

/-- The write a file at position `o` receives is its part of the write on the stream. -/
theorem writeAt_eq_overlay {zero : α} {o a : Nat} {d l : List α}
    (h : max a o < min (a + d.length) (o + l.length)) :
    writeAt zero l (max a o - o)
      ((d.drop (max a o - a)).take (min (a + d.length) (o + l.length) - max a o)) =
      overlay o a d l := by
  have hlen : ((d.drop (max a o - a)).take
      (min (a + d.length) (o + l.length) - max a o)).length =
      min (a + d.length) (o + l.length) - max a o := by
    rw [List.length_take, List.length_drop]
    omega
  apply List.ext_getElem?
  intro p
  rw [getElem?_writeAt (by rw [hlen]; omega), hlen]
  by_cases hp : max a o - o ≤ p ∧ p < max a o - o + (min (a + d.length) (o + l.length) - max a o)
  · rw [if_pos hp, getElem?_overlay_of_mem (by omega) (by omega) (by omega),
      List.getElem?_take_of_lt (by omega), List.getElem?_drop]
    congr 1
    omega
  · rw [if_neg hp]
    by_cases hl : p < l.length
    · rw [getElem?_overlay_of_not_mem (by omega)]
    · rw [List.getElem?_eq_none (Nat.le_of_not_lt hl),
        List.getElem?_eq_none (by simpa using Nat.le_of_not_lt hl)]

/-! ## Consecutive files -/

/-- The write on each of several files that follow one another from position `o`. -/
def overlayAll (a : Nat) (d : List α) : (o : Nat) → List (List α) → List (List α)
  | _, [] => []
  | o, f :: fs => overlay o a d f :: overlayAll a d (o + f.length) fs

/-- Writing each file separately writes their concatenation. -/
theorem flatten_overlayAll (a : Nat) (d : List α) (o : Nat) (fs : List (List α)) :
    (overlayAll a d o fs).flatten = overlay o a d fs.flatten := by
  induction fs generalizing o with
  | nil => simp [overlayAll, overlay]
  | cons f fs ih => rw [overlayAll, List.flatten_cons, ih, List.flatten_cons, overlay_append]

@[simp] theorem map_length_overlayAll (a : Nat) (d : List α) (o : Nat) (fs : List (List α)) :
    (overlayAll a d o fs).map List.length = fs.map List.length := by
  induction fs generalizing o with
  | nil => rfl
  | cons f fs ih => rw [overlayAll, List.map_cons, List.map_cons, length_overlay, ih]

/-! ## Reading a range back -/

/-- The written range reads back as the data. -/
theorem read_overlay_self {a : Nat} {d l : List α} (h : a + d.length ≤ l.length) :
    ((overlay 0 a d l).drop a).take d.length = d := by
  apply List.ext_getElem?
  intro p
  by_cases hp : p < d.length
  · rw [List.getElem?_take_of_lt hp, List.getElem?_drop,
      getElem?_overlay_of_mem (by omega) (by omega) (by omega)]
    congr 1
    omega
  · rw [List.getElem?_eq_none (by simp; omega), List.getElem?_eq_none (by omega)]

/-- A range the data does not meet reads back as before. -/
theorem read_overlay_of_disjoint {a b n : Nat} {d l : List α}
    (h : a + d.length ≤ b ∨ b + n ≤ a) :
    ((overlay 0 a d l).drop b).take n = (l.drop b).take n := by
  apply List.ext_getElem?
  intro p
  by_cases hp : p < n
  · rw [List.getElem?_take_of_lt hp, List.getElem?_take_of_lt hp, List.getElem?_drop,
      List.getElem?_drop, getElem?_overlay_of_not_mem (by omega)]
  · rw [List.getElem?_eq_none (by simp; omega), List.getElem?_eq_none (by simp; omega)]

end Torrentina.Core
