import Torrentina.Core.Framing

/-!
# Encoded streams under an incremental decoder

A receiver sees some beginning of a stream of encoded messages; the rest is on its
way, or lost. Whatever the beginning, the decoder never fails on it: it waits, or
it splits off exactly the next message. With nothing on its way, it only waits when
every message has been split off.
-/

namespace Torrentina.Core.Framing

variable {α μ ε : Type*}

/-- An encoder whose messages the decoder splits off unchanged, whatever follows them. -/
structure Encodes (f : Framing α μ ε) (enc : μ → List α) (ok : μ → Prop) : Prop where
  empty : (f.decode []).1 = .ok none
  decode_enc : ∀ m, ok m → ∀ rest, f.decode (enc m ++ rest) = (.ok (some m), rest)

variable {f : Framing α μ ε} {enc : μ → List α} {ok : μ → Prop} {ms : List μ} {buf rest : List α}

/-- The decoder on a beginning of an encoded stream. -/
theorem Encodes.decode_beginning (h : f.Encodes enc ok) (hms : ∀ m ∈ ms, ok m)
    (hs : buf ++ rest = ms.flatMap enc) :
    (f.decode buf).1 = .ok none ∨ ∃ m ms', ms = m :: ms' ∧ (f.decode buf).1 = .ok (some m) ∧
      (f.decode buf).2 ++ rest = ms'.flatMap enc := by
  cases ms with
  | nil =>
    left
    obtain ⟨rfl, -⟩ := List.append_eq_nil_iff.mp hs
    exact h.empty
  | cons m ms' =>
    rw [List.flatMap_cons] at hs
    have hall := h.decode_enc m (hms m List.mem_cons_self) (ms'.flatMap enc)
    rw [← hs] at hall
    cases hd : (f.decode buf).1 with
    | error e =>
      have herror := f.error_append buf rest e hd
      rw [hall] at herror
      cases herror
    | ok r =>
      cases r with
      | none => exact .inl rfl
      | some m' =>
        have hsome := f.some_append buf rest m' hd
        rw [hall] at hsome
        obtain ⟨hm, hrest⟩ := Prod.mk.inj hsome
        obtain rfl := Option.some.inj (Except.ok.inj hm)
        exact .inr ⟨m, ms', rfl, rfl, hrest.symm⟩

theorem drain_eq_ok_nil_iff {s r : List α} :
    f.drain s = ([], .ok r) ↔ (f.decode s).1 = .ok none ∧ r = s := by
  cases hd : (f.decode s).1 with
  | error e => simp [f.drain_error hd]
  | ok o =>
    cases o with
    | none => simp [f.drain_none hd, eq_comm]
    | some m => simp [f.drain_some hd]

theorem drain_eq_error_nil_iff {s : List α} {e : ε} :
    f.drain s = ([], .error e) ↔ (f.decode s).1 = .error e := by
  cases hd : (f.decode s).1 with
  | error e' => simp [f.drain_error hd]
  | ok o =>
    cases o with
    | none => simp [f.drain_none hd]
    | some m => simp [f.drain_some hd]

/-- Where the decoder splits off just the encoded messages, a stream drains to some messages
when it is their encodings and then something that drains to none. -/
theorem drain_eq_iff (hdec : ∀ s m r, f.decode s = (.ok (some m), r) ↔ s = enc m ++ r ∧ ok m)
    {s : List α} {o : Except ε (List α)} : f.drain s = (ms, o) ↔
      ∃ rest, s = ms.flatMap enc ++ rest ∧ (∀ m ∈ ms, ok m) ∧ f.drain rest = ([], o) := by
  constructor
  · intro h
    induction s using Framing.drain.induct f generalizing ms with
    | case1 s hn =>
      have hs := f.drain_none hn
      obtain ⟨rfl, rfl⟩ := Prod.mk.inj (hs.symm.trans h)
      exact ⟨s, rfl, fun _ hm => (List.not_mem_nil hm).elim, hs⟩
    | case2 s m hm hlt ih =>
      obtain ⟨rfl, ho⟩ := Prod.mk.inj ((f.drain_some hm).symm.trans h)
      obtain ⟨hs, hok⟩ := (hdec s m (f.decode s).2).mp (Prod.ext hm rfl)
      obtain ⟨rest, hrest, hall, hdrain⟩ := ih (Prod.ext rfl ho)
      refine ⟨rest, ?_, List.forall_mem_cons.mpr ⟨hok, hall⟩, hdrain⟩
      rw [List.flatMap_cons, List.append_assoc, ← hrest]
      exact hs
    | case3 s e he =>
      have hs := f.drain_error he
      obtain ⟨rfl, rfl⟩ := Prod.mk.inj (hs.symm.trans h)
      exact ⟨s, rfl, fun _ hm => (List.not_mem_nil hm).elim, hs⟩
  · rintro ⟨rest, rfl, hall, hdrain⟩
    induction ms with
    | nil => exact hdrain
    | cons m ms ih =>
      obtain ⟨hok, hall⟩ := List.forall_mem_cons.mp hall
      have hm := (hdec (enc m ++ (ms.flatMap enc ++ rest)) m _).mpr ⟨rfl, hok⟩
      rw [List.flatMap_cons, List.append_assoc, f.drain_some (by rw [hm]), hm, ih hall]

end Torrentina.Core.Framing
