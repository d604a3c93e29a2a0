import Mathlib.Data.List.Basic

/-!
# One socket, one responder

A client sends requests and a responder answers each request it receives once.
Requests may be lost, and overtake one another, on their way out; answers come
back in the order they were sent, as late as they like. What holds of every
request sent, and of every answer to such a request, holds of every answer
delivered.
-/

namespace Torrentina.Core

/-- A reply with the request it answers. -/
structure Answer (ρ α : Type) where
  request : ρ
  reply : α

/-- The requests on their way out and the answers on their way back. -/
structure Network (ρ α : Type) where
  sent : List ρ := []
  answers : List (Answer ρ α) := []

namespace Network

variable {ρ α : Type}

def send (net : Network ρ α) (request : ρ) : Network ρ α :=
  { net with sent := net.sent ++ [request] }

/-- The responder receives the request at `i` and answers it, correctly. -/
def answer (correct : ρ → α → Bool) (net : Network ρ α) (i : Nat) (reply : α) :
    Option (Network ρ α) :=
  net.sent[i]?.bind fun request =>
    if correct request reply then
      some { sent := net.sent.eraseIdx i, answers := net.answers ++ [⟨request, reply⟩] }
    else none

/-- The first answer reaches the client. -/
def deliver (net : Network ρ α) : Option (Answer ρ α × Network ρ α) :=
  match net.answers with
  | [] => none
  | a :: rest => some (a, { net with answers := rest })

/-- Every request meets `P`, and every answer is a correct one to such a request. -/
structure Carries (correct : ρ → α → Bool) (P : ρ → Prop) (net : Network ρ α) : Prop where
  sent : ∀ request ∈ net.sent, P request
  answers : ∀ a ∈ net.answers, P a.request ∧ correct a.request a.reply = true

variable {correct : ρ → α → Bool} {P Q : ρ → Prop} {net net' : Network ρ α}

/-- Nothing is on its way at first. -/
theorem Carries.empty : Carries correct P {} := by
  constructor <;> simp

/-- What is known of the requests may be weakened. -/
theorem Carries.imp (h : Carries correct P net) (hPQ : ∀ request, P request → Q request) :
    Carries correct Q net :=
  ⟨fun r hr => hPQ r (h.sent r hr), fun a ha => ⟨hPQ _ (h.answers a ha).1, (h.answers a ha).2⟩⟩

/-- A request for which it holds may be sent. -/
theorem Carries.send (h : Carries correct P net) {request : ρ} (hr : P request) :
    Carries correct P (net.send request) := by
  refine ⟨fun r hm => ?_, h.answers⟩
  rcases List.mem_append.mp hm with hm | hm
  · exact h.sent r hm
  · rwa [List.mem_singleton.mp hm]

/-- A request may be answered. -/
theorem Carries.answer (h : Carries correct P net) {i : Nat} {reply : α}
    (ha : net.answer correct i reply = some net') : Carries correct P net' := by
  obtain ⟨request, hi, ha⟩ := Option.bind_eq_some_iff.mp ha
  split at ha
  · rename_i hc
    obtain rfl := Option.some.inj ha
    refine ⟨fun r hm => h.sent r (List.mem_of_mem_eraseIdx hm), fun a hm => ?_⟩
    rcases List.mem_append.mp hm with hm | hm
    · exact h.answers a hm
    · rw [List.mem_singleton.mp hm]
      exact ⟨h.sent request (List.mem_of_getElem? hi), hc⟩
  · cases ha

/-- What is delivered is a correct answer to such a request. -/
theorem Carries.deliver (h : Carries correct P net) {a : Answer ρ α}
    (hd : net.deliver = some (a, net')) :
    (P a.request ∧ correct a.request a.reply = true) ∧ Carries correct P net' := by
  unfold Network.deliver at hd
  split at hd
  · cases hd
  · rename_i b rest hnet
    obtain ⟨rfl, rfl⟩ := Prod.mk.inj (Option.some.inj hd)
    refine ⟨h.answers _ (by rw [hnet]; exact List.mem_cons_self), h.sent, fun c hc => ?_⟩
    exact h.answers c (by rw [hnet]; exact List.mem_cons_of_mem _ hc)

end Network

end Torrentina.Core
