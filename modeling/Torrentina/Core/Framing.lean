import Mathlib.Data.List.Basic

/-!
# Incremental frame decoders

A frame decoder is called repeatedly on a growing buffer: it asks for more
bytes, splits one message off the front, or fails. Its laws say that what it
decided on a buffer does not change when more bytes arrive. From these laws
alone, the messages and the outcome of a stream do not depend on how the
stream was cut into chunks.
-/

namespace Torrentina.Core

/-- A decoder of messages `μ` with errors `ε` from a buffer over `α`, with the
buffer it leaves behind and the laws every incremental decoder obeys. -/
structure Framing (α μ ε : Type*) where
  /-- One call: the result and the buffer after it. -/
  decode : List α → Except ε (Option μ) × List α
  /-- Asking for more bytes leaves the buffer as it was. -/
  none_keeps : ∀ s, (decode s).1 = .ok none → (decode s).2 = s
  /-- A message consumes something. -/
  some_shorter : ∀ s m, (decode s).1 = .ok (some m) → (decode s).2.length < s.length
  /-- Later bytes do not change a message, they stay behind it. -/
  some_append : ∀ s t m, (decode s).1 = .ok (some m) →
    decode (s ++ t) = (.ok (some m), (decode s).2 ++ t)
  /-- Later bytes do not repair an error. -/
  error_append : ∀ s t e, (decode s).1 = .error e → (decode (s ++ t)).1 = .error e

namespace Framing

variable {α μ ε : Type*}

/-- Decode until the decoder asks for more bytes or fails: the messages, and
the leftover buffer or the error. -/
def drain (f : Framing α μ ε) (s : List α) : List μ × Except ε (List α) :=
  match h : (f.decode s).1 with
  | .ok none => ([], .ok (f.decode s).2)
  | .ok (some m) =>
    have : (f.decode s).2.length < s.length := f.some_shorter s m h
    let rest := drain f (f.decode s).2
    (m :: rest.1, rest.2)
  | .error e => ([], .error e)
termination_by s.length

/-- Receive a stream chunk by chunk, draining the buffer after each one. -/
def feed (f : Framing α μ ε) (buf : List α) : List (List α) → List μ × Except ε (List α)
  | [] => ([], .ok buf)
  | c :: cs =>
    match f.drain (buf ++ c) with
    | (ms, .ok rest) => (ms ++ (feed f rest cs).1, (feed f rest cs).2)
    | (ms, .error e) => (ms, .error e)

variable (f : Framing α μ ε)

theorem drain_none {s : List α} (h : (f.decode s).1 = .ok none) : f.drain s = ([], .ok s) := by
  rw [drain]
  split
  · rw [f.none_keeps s h]
  · rename_i hm
    simp [h] at hm
  · rename_i he
    simp [h] at he

theorem drain_some {s : List α} {m : μ} (h : (f.decode s).1 = .ok (some m)) :
    f.drain s = (m :: (f.drain (f.decode s).2).1, (f.drain (f.decode s).2).2) := by
  rw [drain]
  split
  · rename_i hn
    simp [h] at hn
  · rename_i m' hm
    obtain rfl : m = m' := by simpa [h] using hm
    rfl
  · rename_i he
    simp [h] at he

theorem drain_error {s : List α} {e : ε} (h : (f.decode s).1 = .error e) :
    f.drain s = ([], .error e) := by
  rw [drain]
  split
  · rename_i hn
    simp [h] at hn
  · rename_i hm
    simp [h] at hm
  · rename_i e' he
    obtain rfl : e = e' := by simpa [h] using he
    rfl

/-- What is left after draining asks for more bytes. -/
theorem drain_leftover {s rest : List α} {ms : List μ} (h : f.drain s = (ms, .ok rest)) :
    f.drain rest = ([], .ok rest) := by
  induction s using Framing.drain.induct f generalizing ms with
  | case1 s hn =>
    rw [f.drain_none hn] at h
    obtain ⟨-, he⟩ := Prod.mk.inj h
    cases he
    exact f.drain_none hn
  | case2 s m hm _ ih =>
    rw [f.drain_some hm] at h
    obtain ⟨-, he⟩ := Prod.mk.inj h
    exact ih (Prod.ext rfl he)
  | case3 s e he =>
    rw [f.drain_error he] at h
    simp at h

/-- Draining a longer buffer repeats the messages of the shorter one and then
drains what it left behind, unless the shorter one had already failed. -/
theorem drain_append (s t : List α) :
    f.drain (s ++ t) =
      match f.drain s with
      | (ms, .ok rest) => (ms ++ (f.drain (rest ++ t)).1, (f.drain (rest ++ t)).2)
      | (ms, .error e) => (ms, .error e) := by
  induction s using Framing.drain.induct f with
  | case1 s hn => simp [f.drain_none hn]
  | case2 s m hm _ ih =>
    have hd := f.some_append s t m hm
    rw [f.drain_some (s := s ++ t) (m := m) (by rw [hd]), f.drain_some hm, hd, ih]
    cases hr : f.drain (f.decode s).2 with
    | mk ms o => cases o <;> simp
  | case3 s e he => rw [f.drain_error he, f.drain_error (f.error_append s t e he)]

/-- The chunking of a stream changes neither its messages nor its outcome. -/
theorem feed_eq_drain {buf : List α} (hb : f.drain buf = ([], .ok buf)) (cs : List (List α)) :
    f.feed buf cs = f.drain (buf ++ cs.flatten) := by
  induction cs generalizing buf with
  | nil => simp [feed, hb]
  | cons c cs ih =>
    rw [List.flatten_cons, ← List.append_assoc, f.drain_append, feed]
    cases hd : f.drain (buf ++ c) with
    | mk ms o =>
      cases o with
      | error e => rfl
      | ok rest => simp only [ih (f.drain_leftover hd)]

/-- A stream of encoded messages, each of which decodes to itself, drains to the messages. -/
theorem drain_flatMap (enc : μ → List α) (hempty : (f.decode []).1 = .ok none) {ms : List μ}
    (henc : ∀ m ∈ ms, ∀ r, f.decode (enc m ++ r) = (.ok (some m), r)) :
    f.drain (ms.flatMap enc) = (ms, .ok []) := by
  induction ms with
  | nil => exact f.drain_none hempty
  | cons m ms ih =>
    have hm := henc m List.mem_cons_self (ms.flatMap enc)
    rw [List.flatMap_cons, f.drain_some (by rw [hm]), hm,
      ih fun m' h' => henc m' (List.mem_cons_of_mem m h')]

end Framing

end Torrentina.Core
