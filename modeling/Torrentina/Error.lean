import Mathlib.Data.List.Basic

/-!
# The crate-wide error type

Wrapped lower-level errors keep the text they display; domain errors keep their
own fields. A panic is not an error value: it unwinds the task that raised it,
so code that can panic returns a `Fault`.
-/

namespace Torrentina

/-- The crate's error enumeration. -/
inductive Error
  | io (source : String)
  | bencodeDecode (source : String)
  | invalidPiecesLength (len : Nat)
  | invalidFileLayout
  | malformedTorrent (msg : String)
  | http (source : String)
  | urlParse (source : String)
  | unsupportedScheme (scheme : String)
  | trackerFailure (reason : String)
  | invalidPeersData (len width : Nat)
  | udpProtocol (msg : String)
  | timeout
  | peerProtocol (msg : String)
  | storage (msg : String)
  deriving DecidableEq, Repr

/-- How a call can fail to produce a value: an error returned to the caller, or a panic. -/
inductive Fault
  | error (e : Error)
  | panic
  deriving DecidableEq, Repr

/-! ## Peeling fallible computations apart -/

/-- A sequence succeeds when both parts do. -/
theorem bind_eq_ok_iff {ε α β : Type} {x : Except ε α} {f : α → Except ε β} {b : β} :
    (x >>= f) = .ok b ↔ ∃ a, x = .ok a ∧ f a = .ok b := by
  cases x with
  | error e => simp [bind, Except.bind]
  | ok a => simp [bind, Except.bind]

/-- A sequence fails when its first part does, or its second after the first succeeded. -/
theorem bind_eq_error_iff {ε α β : Type} {x : Except ε α} {f : α → Except ε β} {e : ε} :
    (x >>= f) = .error e ↔ x = .error e ∨ ∃ a, x = .ok a ∧ f a = .error e := by
  cases x with
  | error e' => simp [bind, Except.bind]
  | ok a => simp [bind, Except.bind]

/-- After a success the second part decides. -/
theorem bind_of_eq_ok {ε α β : Type} {x : Except ε α} {a : α} (h : x = .ok a)
    (f : α → Except ε β) : (x >>= f) = f a := by
  rw [h]
  rfl

/-- After a failure the second part is not run. -/
theorem bind_of_eq_error {ε α β : Type} {x : Except ε α} {e : ε} (h : x = .error e)
    (f : α → Except ε β) : (x >>= f) = .error e := by
  rw [h]
  rfl

/-- What cannot fail afterwards adds no failure. -/
theorem bind_isError_iff {ε α β : Type} {x : Except ε α} {f : α → Except ε β}
    (h : ∀ a, ∃ b, f a = .ok b) : (∃ e, x >>= f = .error e) ↔ ∃ e, x = .error e := by
  cases x with
  | error e => simp [bind, Except.bind]
  | ok a =>
    obtain ⟨b, hb⟩ := h a
    simp [bind, Except.bind, hb]

/-- A mapped result is a success when the result is. -/
theorem map_eq_ok_iff {ε α β : Type*} {x : Except ε α} {f : α → β} {b : β} :
    x.map f = .ok b ↔ ∃ a, x = .ok a ∧ f a = b := by
  cases x with
  | error e => simp [Except.map]
  | ok a => simp [Except.map]

/-- A projection of the results of a `mapM` is read off its inputs. -/
theorem mapM_map {ε α β γ : Type} {fs : List α} {f : α → Except ε β} {p : β → γ} {c : α → γ}
    (hf : ∀ a b, f a = .ok b → p b = c a) {bs : List β} (h : fs.mapM f = .ok bs) :
    bs.map p = fs.map c := by
  induction fs generalizing bs with
  | nil =>
    rw [List.mapM_nil] at h
    obtain rfl := Except.ok.inj h
    rfl
  | cons a fs ih =>
    rw [List.mapM_cons] at h
    obtain ⟨b, hb, h⟩ := bind_eq_ok_iff.mp h
    obtain ⟨bs', hbs, h⟩ := bind_eq_ok_iff.mp h
    obtain rfl := Except.ok.inj h
    rw [List.map_cons, List.map_cons, hf a b hb, ih hbs]

/-- Every element of a list that was mapped succeeded. -/
theorem mapM_forall {ε α β : Type} {fs : List α} {f : α → Except ε β} {bs : List β}
    (h : fs.mapM f = .ok bs) : ∀ a ∈ fs, ∃ b, f a = .ok b := by
  induction fs generalizing bs with
  | nil => simp
  | cons a fs ih =>
    rw [List.mapM_cons] at h
    obtain ⟨b, hb, h⟩ := bind_eq_ok_iff.mp h
    obtain ⟨bs', hbs, -⟩ := bind_eq_ok_iff.mp h
    exact List.forall_mem_cons.mpr ⟨⟨b, hb⟩, ih hbs⟩

/-- `Option::ok_or_else`. -/
def okOr {ε α : Type*} (o : Option α) (e : ε) : Except ε α :=
  match o with
  | some a => .ok a
  | none => .error e

/-- `ok_or` succeeds with the value that is there. -/
theorem okOr_eq_ok_iff {ε α : Type*} {o : Option α} {e : ε} {a : α} :
    okOr o e = .ok a ↔ o = some a := by
  cases o <;> simp [okOr]

/-- `ok_or` fails with the given error when there is no value. -/
theorem okOr_eq_error_iff {ε α : Type*} {o : Option α} {e e' : ε} :
    okOr o e = .error e' ↔ o = none ∧ e = e' := by
  cases o <;> simp [okOr]

/-- A mapped error comes from an error. -/
theorem mapError_eq_error_iff {ε ε' α : Type*} {x : Except ε α} {f : ε → ε'} {e : ε'} :
    x.mapError f = .error e ↔ ∃ d, x = .error d ∧ f d = e := by
  cases x <;> simp [Except.mapError]

end Torrentina
