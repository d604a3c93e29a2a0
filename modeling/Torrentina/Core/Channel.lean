import Mathlib.Data.List.Basic

/-!
# Channels between tasks

A watch channel keeps the last value sent, with a version that grows at every
send. A send while no receiver exists is refused and leaves the value as it is.
A receiver remembers the version it saw last; it is told of a newer version
before it is told that the sender is gone.

A queue channel delivers every value once, in order. It remembers what its
receiver has taken, so what was ever sent can be read off the channel.
-/

namespace Torrentina.Core

/-- The sender's side of a watch channel. -/
structure Watch (α : Type*) where
  value : α
  version : Nat
  receivers : Nat
  senderAlive : Bool
  deriving DecidableEq, Repr

namespace Watch

variable {α : Type*}

/-- A channel whose first receiver was dropped at once. -/
def channel (value : α) : Watch α := ⟨value, 0, 0, true⟩

/-- Send a value; without receivers the send fails and nothing changes. -/
def send (w : Watch α) (value : α) : Watch α :=
  if w.receivers = 0 then w else { w with value, version := w.version + 1 }

/-- One more receiver, which has seen the current version. -/
def subscribe (w : Watch α) : Watch α := { w with receivers := w.receivers + 1 }

/-- A receiver is dropped. -/
def unsubscribe (w : Watch α) : Watch α := { w with receivers := w.receivers - 1 }

/-- The sender is dropped. -/
def close (w : Watch α) : Watch α := { w with senderAlive := false }

/-- Poll `changed()` with the version seen last: pending, the newer version, or closed. -/
def changed (w : Watch α) (seen : Nat) : Option (Except Unit Nat) :=
  if w.version ≠ seen then some (.ok w.version)
  else if w.senderAlive then none
  else some (.error ())

end Watch

/-- A queue channel and what its receiver has taken from it. -/
structure Queue (α : Type*) where
  pending : List α
  received : List α
  receiverAlive : Bool
  deriving DecidableEq, Repr

namespace Queue

variable {α : Type*}

/-- A fresh channel. -/
def channel : Queue α := ⟨[], [], true⟩

/-- Send a value; it is lost when the receiver is gone. -/
def send (c : Queue α) (a : α) : Queue α :=
  if c.receiverAlive then { c with pending := c.pending ++ [a] } else c

/-- The receiver takes the oldest value. -/
def recv (c : Queue α) : Option (Queue α) :=
  match c.receiverAlive, c.pending with
  | true, a :: rest => some { c with pending := rest, received := c.received ++ [a] }
  | _, _ => none

/-- The receiver is dropped. -/
def close (c : Queue α) : Queue α := { c with receiverAlive := false }

/-- Everything that was put on the channel, in order. -/
def sent (c : Queue α) : List α := c.received ++ c.pending

theorem sent_send (c : Queue α) (a : α) :
    (c.send a).sent = if c.receiverAlive then c.sent ++ [a] else c.sent := by
  unfold send
  split
  · simp only [sent, List.append_assoc]
  · rfl

@[simp] theorem receiverAlive_send (c : Queue α) (a : α) :
    (c.send a).receiverAlive = c.receiverAlive := by
  unfold send
  split <;> rfl

/-- Receiving moves a value from the pending to the received ones. -/
theorem recv_eq_some {c c' : Queue α} (h : c.recv = some c') :
    c'.sent = c.sent ∧ c'.receiverAlive = c.receiverAlive := by
  unfold recv at h
  split at h
  · rename_i ha hp
    obtain rfl := Option.some.inj h
    simp [sent, hp]
  · cases h

end Queue

end Torrentina.Core
