import Mathlib.Data.List.MinMax
import Mathlib.Data.Prod.Lex

/-!
# Scans for a least key

A scan keeps the best element so far with its key beside it, skips what it is told to
skip, and replaces the best one by a strictly smaller key only. Over an increasing
list it finds the least pair of key and element.
-/

namespace Torrentina.Core

variable {α β : Type*}

/-- One iteration of a scan for the least key among the elements that are kept. -/
def scanStep [LT β] [DecidableLT β] (keep : α → Bool) (key : α → β) (best : Option (β × α))
    (a : α) : Option (β × α) :=
  if keep a then
    match best with
    | none => some (key a, a)
    | some (b, m) => if key a < b then some (key a, a) else some (b, m)
  else best

section Scan

variable [Preorder β] [DecidableLT β] (keep : α → Bool) (key : α → β)

/-- What the scan holds is an element with its own key. -/
theorem scanStep_pair (best : Option α) (a : α) :
    scanStep keep key (best.map fun m => (key m, m)) a =
      (if keep a then List.argAux (fun b c => key b < key c) best a else best).map
        fun m => (key m, m) := by
  unfold scanStep
  split
  · cases best with
    | none => rfl
    | some m =>
      simp only [Option.map_some, List.argAux]
      split <;> rfl
  · rfl

theorem foldl_scanStep_pair (l : List α) (best : Option α) :
    l.foldl (scanStep keep key) (best.map fun m => (key m, m)) =
      ((l.filter keep).foldl (List.argAux fun b c => key b < key c) best).map
        fun m => (key m, m) := by
  induction l generalizing best with
  | nil => rfl
  | cons a l ih =>
    rw [List.foldl_cons, scanStep_pair, ih, List.filter_cons]
    split <;> rfl

/-- The scan finds the first least key of what it keeps. -/
theorem foldl_scanStep (l : List α) :
    (l.foldl (scanStep keep key) none).map Prod.snd = (l.filter keep).argmin key := by
  have h := foldl_scanStep_pair keep key l none
  rw [Option.map_none] at h
  rw [h, Option.map_map]
  exact congrFun Option.map_id _

end Scan

/-- In an increasing list the elements come in their order. -/
theorem idxOf_le_idxOf_iff [LinearOrder α] {l : List α} (hl : l.Pairwise (· < ·)) {a b : α}
    (ha : a ∈ l) (hb : b ∈ l) : l.idxOf a ≤ l.idxOf b ↔ a ≤ b := by
  have hlt : ∀ {x y : α}, y ∈ l → l.idxOf x < l.idxOf y → x < y := by
    intro x y hy hxy
    have hly := List.idxOf_lt_length_of_mem hy
    have h := List.pairwise_iff_getElem.mp hl _ _ (hxy.trans hly) hly hxy
    rwa [List.getElem_idxOf, List.getElem_idxOf] at h
  constructor
  · intro h
    rcases h.lt_or_eq with h | h
    · exact (hlt hb h).le
    · exact ((List.idxOf_inj ha).mp h).le
  · intro h
    by_contra hba
    exact absurd (hlt ha (Nat.lt_of_not_le hba)) h.not_gt

/-- Over an increasing list, the first least key is the least pair of key and element. -/
theorem argmin_eq_some_iff_lex [LinearOrder α] [LinearOrder β] {l : List α}
    (hl : l.Pairwise (· < ·)) {key : α → β} {m : α} :
    l.argmin key = some m ↔ m ∈ l ∧ ∀ a ∈ l, toLex (key m, m) ≤ toLex (key a, a) := by
  rw [List.argmin_eq_some_iff]
  constructor
  · rintro ⟨hm, hkey, hfirst⟩
    refine ⟨hm, fun a ha => Prod.Lex.toLex_le_toLex'.mpr ⟨hkey a ha, fun he => ?_⟩⟩
    exact (idxOf_le_idxOf_iff hl hm ha).mp (hfirst a ha he.ge)
  · rintro ⟨hm, hleast⟩
    have hlex := fun a ha => Prod.Lex.toLex_le_toLex'.mp (hleast a ha)
    refine ⟨hm, fun a ha => (hlex a ha).1, fun a ha hle => ?_⟩
    exact (idxOf_le_idxOf_iff hl hm ha).mpr ((hlex a ha).2 ((hlex a ha).1.antisymm hle))

end Torrentina.Core
