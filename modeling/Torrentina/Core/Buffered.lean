import Torrentina.Core.Overlay

/-!
# Writes that are still on their way

Data handed over for a position of a stream reaches it later, in parts and in any
order. `Settling` says what is known in between: the stream holds the data, up to the
positions for which some is still on its way. Every landing keeps it, and once nothing
is on its way to the range, the range reads back as the data.
-/

namespace Torrentina.Core

/-- Data on its way to position `start` of a stream. -/
structure Stretch (α : Type*) where
  start : Nat
  data : List α
  deriving DecidableEq

namespace Stretch

variable {α : Type*} {w x : Stretch α} {a n p lo len : Nat}

/-- The stretch has data for the position. -/
def Covers (w : Stretch α) (p : Nat) : Prop := w.start ≤ p ∧ p < w.start + w.data.length

/-- The `n` elements from the `a`-th on. -/
def part (w : Stretch α) (a n : Nat) : Stretch α := ⟨w.start + a, (w.data.drop a).take n⟩

/-- What is left of the stretch without them. -/
def rest (w : Stretch α) (a n : Nat) : List (Stretch α) :=
  [⟨w.start, w.data.take a⟩, ⟨w.start + (a + n), w.data.drop (a + n)⟩].filter
    fun x => !x.data.isEmpty

/-- The stretch has data for a position of the range. -/
def Meets (w : Stretch α) (lo len : Nat) : Prop := ∃ p, lo ≤ p ∧ p < lo + len ∧ w.Covers p

/-- All of the stretch goes to the range. -/
def Inside (w : Stretch α) (lo len : Nat) : Prop :=
  lo ≤ w.start ∧ w.start + w.data.length ≤ lo + len

theorem mem_rest (h : x ∈ w.rest a n) :
    x = ⟨w.start, w.data.take a⟩ ∨ x = ⟨w.start + (a + n), w.data.drop (a + n)⟩ := by
  have hm := List.mem_of_mem_filter h
  rcases List.mem_cons.mp hm with rfl | hm
  · exact .inl rfl
  · exact .inr (List.mem_singleton.mp hm)

theorem Covers.ne_nil (h : w.Covers p) : w.data ≠ [] := by
  rintro hnil
  rw [Covers, hnil, List.length_nil] at h
  omega

/-- A part only covers positions of the whole. -/
theorem Covers.of_part (h : (w.part a n).Covers p) : w.Covers p := by
  simp only [Covers, part, List.length_take, List.length_drop] at h ⊢
  omega

/-- What is left only covers positions of the whole. -/
theorem Covers.of_rest (hx : x ∈ w.rest a n) (h : x.Covers p) : w.Covers p := by
  rcases mem_rest hx with rfl | rfl
  · simp only [Covers, List.length_take] at h ⊢
    omega
  · simp only [Covers, List.length_drop] at h ⊢
    omega

/-- A position of the whole is one of the part, or is left. -/
theorem Covers.part_or_rest (h : w.Covers p) (a n : Nat) :
    (w.part a n).Covers p ∨ ∃ x ∈ w.rest a n, x.Covers p := by
  by_cases hpart : (w.part a n).Covers p
  · exact .inl hpart
  have hleft : ∀ x ∈ [(⟨w.start, w.data.take a⟩ : Stretch α),
      ⟨w.start + (a + n), w.data.drop (a + n)⟩], x.Covers p → ∃ x ∈ w.rest a n, x.Covers p := by
    intro x hx hc
    refine ⟨x, List.mem_filter.mpr ⟨hx, ?_⟩, hc⟩
    rw [Bool.not_eq_true', List.isEmpty_eq_false_iff]
    exact hc.ne_nil
  right
  simp only [Covers, part, List.length_take, List.length_drop] at h hpart
  by_cases hlt : p < w.start + a
  · refine hleft _ List.mem_cons_self ?_
    simp only [Covers, List.length_take]
    omega
  · refine hleft _ (List.mem_cons_of_mem _ List.mem_cons_self) ?_
    simp only [Covers, List.length_drop]
    omega

/-- A part carries the data of the whole. -/
theorem getElem?_part (h : (w.part a n).Covers p) :
    (w.part a n).data[p - (w.part a n).start]? = w.data[p - w.start]? := by
  simp only [Covers, part, List.length_take, List.length_drop] at h ⊢
  rw [List.getElem?_take_of_lt (by omega), List.getElem?_drop]
  congr 1
  omega

/-- What is left carries the data of the whole. -/
theorem getElem?_rest (hx : x ∈ w.rest a n) (h : x.Covers p) :
    x.data[p - x.start]? = w.data[p - w.start]? := by
  rcases mem_rest hx with rfl | rfl
  · simp only [Covers, List.length_take] at h
    have hlt : p - w.start < a := by omega
    exact List.getElem?_take_of_lt hlt
  · simp only [Covers, List.length_drop] at h
    show (w.data.drop (a + n))[p - (w.start + (a + n))]? = _
    rw [List.getElem?_drop]
    congr 1
    omega

theorem Inside.part (h : w.Inside lo len) (hle : a + n ≤ w.data.length) :
    (w.part a n).Inside lo len := by
  simp only [Inside, Stretch.part, List.length_take, List.length_drop] at h ⊢
  omega

theorem Inside.rest (h : w.Inside lo len) (hx : x ∈ w.rest a n) : x.Inside lo len := by
  have hne : x.data ≠ [] := by
    have hkeep := (List.mem_filter.mp hx).2
    rwa [Bool.not_eq_true', List.isEmpty_eq_false_iff] at hkeep
  have hpos := List.length_pos_iff.mpr hne
  rcases mem_rest hx with rfl | rfl
  · simp only [Inside, List.length_take] at h ⊢
    omega
  · simp only [Inside, List.length_drop] at h hpos ⊢
    omega

/-- A stretch inside one range does not meet a range apart from it. -/
theorem Inside.not_meets {lo' len' : Nat} (h : w.Inside lo len)
    (hapart : lo + len ≤ lo' ∨ lo' + len' ≤ lo) : ¬w.Meets lo' len' := by
  rintro ⟨p, hlo, hhi, hc⟩
  rw [Inside] at h
  rw [Covers] at hc
  omega

end Stretch

section Land

variable {α : Type*} {ws : List (Stretch α)} {w x : Stretch α} {j a n o p : Nat}
  {content d : List α}

/-- The stretches on their way after a part of the `j`-th has landed. -/
def afterLanding (ws : List (Stretch α)) (j a n : Nat) : List (Stretch α) :=
  match ws[j]? with
  | some w => w.rest a n ++ ws.eraseIdx j
  | none => ws

/-- What is on its way was so before, or is left of the stretch that landed. -/
theorem mem_afterLanding (hw : ws[j]? = some w) (hx : x ∈ afterLanding ws j a n) :
    x ∈ w.rest a n ∨ x ∈ ws := by
  rw [afterLanding, hw, List.mem_append] at hx
  exact hx.imp_right List.mem_of_mem_eraseIdx

/-- A position that was covered is covered still, unless it has landed. -/
theorem covers_afterLanding (hw : ws[j]? = some w) (hx : x ∈ ws) (hc : x.Covers p) :
    (w.part a n).Covers p ∨ ∃ y ∈ afterLanding ws j a n, y.Covers p := by
  rw [afterLanding, hw]
  obtain ⟨k, hk⟩ := List.mem_iff_getElem?.mp hx
  by_cases hkj : k = j
  · rw [hkj, hw] at hk
    obtain rfl := Option.some.inj hk
    rcases hc.part_or_rest a n with hpart | ⟨y, hy, hcy⟩
    · exact .inl hpart
    · exact .inr ⟨y, List.mem_append_left _ hy, hcy⟩
  · have hkeep : x ∈ ws.eraseIdx j := List.mem_eraseIdx_iff_getElem?.mpr ⟨k, hkj, hk⟩
    exact .inr ⟨x, List.mem_append_right _ hkeep, hc⟩

/-- The stream holds the data at its position, up to what is still on its way, and all that
is on its way there is part of the data. -/
structure Settling (ws : List (Stretch α)) (content : List α) (o : Nat) (d : List α) :
    Prop where
  fits : o + d.length ≤ content.length
  agrees : ∀ w ∈ ws, ∀ p < d.length, w.Covers (o + p) → w.data[o + p - w.start]? = d[p]?
  covered : ∀ p < d.length, content[o + p]? = d[p]? ∨ ∃ w ∈ ws, w.Covers (o + p)

namespace Settling

/-- Data that is handed over is on its way. -/
theorem self (hfits : o + d.length ≤ content.length) (hnone : ∀ w ∈ ws, ¬w.Meets o d.length) :
    Settling (ws ++ [⟨o, d⟩]) content o d where
  fits := hfits
  agrees w hw p hp hc := by
    rcases List.mem_append.mp hw with hw | hw
    · exact absurd ⟨o + p, Nat.le_add_right o p, Nat.add_lt_add_left hp o, hc⟩ (hnone w hw)
    · obtain rfl := List.mem_singleton.mp hw
      rw [Nat.add_sub_cancel_left]
  covered p hp := by
    refine .inr ⟨⟨o, d⟩, List.mem_append_right _ List.mem_cons_self, ?_⟩
    exact ⟨Nat.le_add_right o p, Nat.add_lt_add_left hp o⟩

/-- More on its way elsewhere changes nothing. -/
theorem push (h : Settling ws content o d) (hne : ¬w.Meets o d.length) :
    Settling (ws ++ [w]) content o d where
  fits := h.fits
  agrees x hx p hp hc := by
    rcases List.mem_append.mp hx with hx | hx
    · exact h.agrees x hx p hp hc
    · obtain rfl := List.mem_singleton.mp hx
      exact absurd ⟨o + p, Nat.le_add_right o p, Nat.add_lt_add_left hp o, hc⟩ hne
  covered p hp := by
    rcases h.covered p hp with hheld | ⟨x, hx, hc⟩
    · exact .inl hheld
    · exact .inr ⟨x, List.mem_append_left _ hx, hc⟩

/-- A landing keeps the data settling. -/
theorem land (h : Settling ws content o d) (hw : ws[j]? = some w) (a n : Nat) :
    Settling (afterLanding ws j a n) (overlay 0 (w.part a n).start (w.part a n).data content)
      o d where
  fits := by
    rw [length_overlay]
    exact h.fits
  agrees x hx p hp hc := by
    rcases mem_afterLanding hw hx with hx | hx
    · rw [Stretch.getElem?_rest hx hc]
      exact h.agrees w (List.mem_of_getElem? hw) p hp (hc.of_rest hx)
    · exact h.agrees x hx p hp hc
  covered p hp := by
    by_cases hpart : (w.part a n).Covers (o + p)
    · left
      have hlt : o + p < content.length := by
        have := h.fits
        omega
      rw [getElem?_overlay_of_mem hlt (by rw [Nat.zero_add]; exact hpart.1)
        (by rw [Nat.zero_add]; exact hpart.2), Nat.zero_add, Stretch.getElem?_part hpart]
      exact h.agrees w (List.mem_of_getElem? hw) p hp hpart.of_part
    · rcases h.covered p hp with hheld | ⟨x, hx, hc⟩
      · left
        rw [getElem?_overlay_of_not_mem ?_, hheld]
        rw [Stretch.Covers] at hpart
        omega
      · exact .inr ((covers_afterLanding hw hx hc).resolve_left hpart)

/-- Once nothing is on its way to the range, it reads back as the data. -/
theorem read (h : Settling ws content o d) (hnone : ∀ w ∈ ws, ¬w.Meets o d.length) :
    (content.drop o).take d.length = d := by
  refine List.ext_getElem? fun p => ?_
  by_cases hp : p < d.length
  · rw [List.getElem?_take_of_lt hp, List.getElem?_drop]
    rcases h.covered p hp with hheld | ⟨x, hx, hc⟩
    · exact hheld
    · exact absurd ⟨o + p, Nat.le_add_right o p, Nat.add_lt_add_left hp o, hc⟩ (hnone x hx)
  · rw [List.getElem?_eq_none (by simp; omega), List.getElem?_eq_none (by omega)]

end Settling

/-- A landing that does not meet the range, or brings what is there, leaves it as it is. -/
theorem read_overlay_of_agrees {content : List α} {o m : Nat}
    (h : ∀ p < m, w.Covers (o + p) → w.data[o + p - w.start]? = content[o + p]?) :
    ((overlay 0 w.start w.data content).drop o).take m = (content.drop o).take m := by
  refine List.ext_getElem? fun p => ?_
  by_cases hp : p < m
  · rw [List.getElem?_take_of_lt hp, List.getElem?_take_of_lt hp, List.getElem?_drop,
      List.getElem?_drop]
    by_cases hc : w.Covers (o + p)
    · by_cases hlt : o + p < content.length
      · rw [getElem?_overlay_of_mem hlt (by rw [Nat.zero_add]; exact hc.1)
          (by rw [Nat.zero_add]; exact hc.2), Nat.zero_add, h p hp hc]
      · rw [List.getElem?_eq_none (by rw [length_overlay]; omega),
          List.getElem?_eq_none (by omega)]
    · refine getElem?_overlay_of_not_mem ?_
      rw [Stretch.Covers] at hc
      omega
  · rw [List.getElem?_eq_none (by simp; omega), List.getElem?_eq_none (by simp; omega)]

end Land

end Torrentina.Core
