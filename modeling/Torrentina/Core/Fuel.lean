import Mathlib.Data.List.Basic

/-!
# Runs with fuel

Code that may not terminate, as a computation that stops when its fuel is used
up. A run meets a specification when its fuel was enough, when it fails in none
but the allowed ways, and when the value it returns is as promised; such facts
compose along the sequence of a run.
-/

namespace Torrentina.Core

/-- How a run ends without a value. -/
inductive Stop (ε : Type)
  | outOfFuel
  | failed (e : ε)
  deriving DecidableEq, Repr

variable {ε α β : Type}

/-- A computation that needs no fuel. -/
def unfuelled (x : Except ε α) : Except (Stop ε) α := x.mapError .failed

/-- The fuel was enough, a failure is an allowed one and a value is a promised one. -/
def Meets (allowed : ε → Prop) (promised : α → Prop) : Except (Stop ε) α → Prop
  | .ok a => promised a
  | .error .outOfFuel => False
  | .error (.failed e) => allowed e

variable {allowed : ε → Prop} {promised : α → Prop}

theorem meets_unfuelled {x : Except ε α} (hfail : ∀ e, x = .error e → allowed e)
    (hvalue : ∀ a, x = .ok a → promised a) : Meets allowed promised (unfuelled x) := by
  cases x with
  | error e => exact hfail e rfl
  | ok a => exact hvalue a rfl

theorem Meets.mono {weaker : α → Prop} {x : Except (Stop ε) α} (hx : Meets allowed promised x)
    (h : ∀ a, promised a → weaker a) : Meets allowed weaker x := by
  match x with
  | .ok a => exact h a hx
  | .error (.failed _) => exact hx

/-- What follows only has to meet its own specification from a promised value. -/
theorem Meets.bind {final : β → Prop} {x : Except (Stop ε) α} {f : α → Except (Stop ε) β}
    (hx : Meets allowed promised x) (hf : ∀ a, promised a → Meets allowed final (f a)) :
    Meets allowed final (x >>= f) := by
  match x with
  | .ok a => exact hf a hx
  | .error (.failed _) => exact hx

/-- Two runs that begin with the same computation agree when they agree after it. -/
theorem unfuelled_bind_congr {x : Except ε α} {f : α → Except (Stop ε) β} {g : α → Except ε β}
    (h : ∀ a, x = .ok a → f a = unfuelled (g a)) :
    (unfuelled x >>= f) = unfuelled (x >>= g) := by
  cases x with
  | error e => rfl
  | ok a => exact h a rfl

end Torrentina.Core
