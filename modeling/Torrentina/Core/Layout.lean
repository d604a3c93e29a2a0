import Mathlib.Data.List.Basic

/-!
# Packets of fixed layout

A packet that is a row of fields, each of a known width, is cut back into them.
-/

namespace Torrentina.Core

variable {α : Type*}

/-- The fields of the given widths at the front of a packet. -/
def fields : List Nat → List α → List (List α)
  | [], _ => []
  | w :: ws, packet => packet.take w :: fields ws (packet.drop w)

/-- Cutting a row of fields at their widths gives the fields back. -/
theorem fields_flatten {widths : List Nat} {row : List (List α)}
    (h : row.map List.length = widths) (rest : List α) :
    fields widths (row.flatten ++ rest) = row := by
  subst h
  induction row with
  | nil => rfl
  | cons field row ih =>
    rw [List.map_cons, fields, List.flatten_cons, List.append_assoc, List.take_left,
      List.drop_left, ih]

end Torrentina.Core
