import Torrentina.Core.Variant
import Torrentina.Tracker.Server

/-!
# An announce that succeeds was registered

One call of `announce` and a tracker over a network that loses, delays, reorders
and repeats datagrams in both directions. Whatever arrives was sent, so the
connection id in an announce request is one the tracker gave out to this call,
and a call that returns a response was registered with the parameters it was
given.
-/

namespace Torrentina.Tracker.Udp

open Torrentina.Core

/-- An announce the tracker has registered, and what it replied. -/
structure Entry where
  connectionId : UInt64
  announcement : Announcement
  view : View

/-- The call, every datagram either end has sent, and what the tracker has done: the
connection ids it gave out, what it registered, and the texts it refused with. -/
structure World where
  phase : Phase
  requests : List (List UInt8) := []
  replies : List Reply := []
  issued : List UInt64 := []
  entries : List Entry := []
  refusals : List (List UInt8) := []

/-- What can happen next: a step of the call that takes no datagram; the reply at `i`
arrives; the tracker receives the request at `i` and gives out a connection id, registers
the announce, or refuses. -/
inductive WorldEvent
  | own (e : NetEvent)
  | arrive (i : Nat)
  | grant (i : Nat) (connectionId : UInt64)
  | register (i : Nat) (view : View)
  | refuse (i : Nat) (text : List UInt8)

/-- A step of the call. -/
def WorldEvent.isCall : WorldEvent → Bool
  | own _ | arrive _ => true
  | _ => false

/-- The call goes to another phase and sends datagrams. -/
def World.advance (w : World) (r : Phase × List (List UInt8)) : World :=
  { w with phase := r.1, requests := w.requests ++ r.2 }

/-- The tracker sends a reply and records what it did. -/
def World.answer (w : World) (reply : Reply) (issued : List UInt64) (entries : List Entry)
    (refusals : List (List UInt8)) : World :=
  { w with
    replies := w.replies ++ [reply]
    issued := w.issued ++ issued
    entries := w.entries ++ entries
    refusals := w.refusals ++ refusals }

/-- The request at `i`, as the tracker reads it. -/
def World.request (w : World) (i : Nat) : Option Request := w.requests[i]?.bind readRequest

/-- What the call has sent when it leaves a phase. -/
def Phase.mostSent : Phase → Nat
  | .resolving => 0
  | .exchanging .connect _ attempt => attempt + 1
  | .exchanging .announce _ attempt => maxAttempts + (attempt + 1)
  | .returned _ => 2 * maxAttempts

/-- The steps the call has left. -/
def Phase.stepsLeft : Phase → Nat
  | .resolving => 2 * maxAttempts + 1
  | .exchanging .connect _ attempt => maxAttempts - attempt + maxAttempts
  | .exchanging .announce _ attempt => maxAttempts - attempt
  | .returned _ => 0

namespace Call

/-- A step of the call by itself, with the datagrams it sends. -/
def act (c : Call) (phase : Phase) (arrived : List (List UInt8)) (e : NetEvent) :
    Option (Phase × List (List UInt8)) :=
  (c.step ⟨phase, { answers := arrived.map (Answer.mk []) }⟩ e).map fun s => (s.phase, s.net.sent)

/-- One step of the call, the network or the tracker. -/
def worldStep (c : Call) (w : World) : WorldEvent → Option World
  | .own e => (c.act w.phase [] e).map w.advance
  | .arrive i => w.replies[i]?.bind fun reply =>
    (c.act w.phase [reply.bytes] .deliver).map w.advance
  | .grant i id =>
    match w.request i with
    | some (.connect txn) => some (w.answer (.granted txn id) [id] [] [])
    | _ => none
  | .register i view =>
    match w.request i with
    | some (.announce id txn announcement) =>
      if id ∈ w.issued then
        some (w.answer (.registered txn view) [] [⟨id, announcement, view⟩] [])
      else none
    | _ => none
  | .refuse i text => (w.request i).map fun request =>
    w.answer (.refused request.txn text) [] [] [text]

/-- All runs of a call against a tracker over such a network. -/
def worldSystem (c : Call) : System World WorldEvent where
  init := { phase := .resolving }
  step := c.worldStep

/-! ## What a step of the call does -/

/-- One constructor for each way the call can go on. -/
inductive Act (c : Call) (phase : Phase) (arrived : List (List UInt8)) :
    Phase → List (List UInt8) → Prop
  | started : phase = .resolving →
    Act c phase arrived (.exchanging .connect c.connectRequest 0) [c.connectRequest]
  | resent (stage : Stage) (request : List UInt8) (attempt : Nat) :
    phase = .exchanging stage request attempt → attempt + 1 < maxAttempts →
    Act c phase arrived (.exchanging stage request (attempt + 1)) [request]
  | connected (request : List UInt8) (attempt : Nat) (datagram : List UInt8) (id : UInt64) :
    phase = .exchanging .connect request attempt → datagram ∈ arrived →
    parseConnectResponse (received datagram) c.connectTxn = .ok id →
    Act c phase arrived (.exchanging .announce (c.announceRequest id) 0) [c.announceRequest id]
  | announced (request : List UInt8) (attempt : Nat) (datagram : List UInt8) :
    phase = .exchanging .announce request attempt → datagram ∈ arrived →
    Act c phase arrived
      (.returned (parseAnnounceResponse (received datagram) c.announceTxn)) []
  | failed (e : Error) : (∀ result, phase ≠ .returned result) →
    (∀ msg, e ≠ .trackerFailure msg) →
    Act c phase arrived (.returned (.error e)) []

/-- Before the first datagram no tracker is heard. -/
theorem resolve_ne_trackerFailure (c : Call) (msg : String) :
    c.resolve ≠ .error (.trackerFailure msg) := by
  intro h
  obtain h | ⟨host, -, h⟩ := bind_eq_error_iff.mp h
  · cases (okOr_eq_error_iff.mp h).2
  obtain h | ⟨port, -, h⟩ := bind_eq_error_iff.mp h
  · cases (okOr_eq_error_iff.mp h).2
  obtain h | ⟨addrs, -, h⟩ := bind_eq_error_iff.mp h
  · obtain ⟨source, -, h⟩ := mapError_eq_error_iff.mp h
    cases h
  obtain h | ⟨server, -, h⟩ := bind_eq_error_iff.mp h
  · cases (okOr_eq_error_iff.mp h).2
  obtain h | ⟨-, -, h⟩ := bind_eq_error_iff.mp h
  · obtain ⟨source, -, h⟩ := mapError_eq_error_iff.mp h
    cases h
  obtain h | ⟨-, -, h⟩ := bind_eq_error_iff.mp h
  · obtain ⟨source, -, h⟩ := mapError_eq_error_iff.mp h
    cases h
  · cases h

/-- The connect step reports no failure of the tracker. -/
theorem parseConnectResponse_ne_trackerFailure (buf : List UInt8) (txn : UInt32)
    (msg : String) : parseConnectResponse buf txn ≠ .error (.trackerFailure msg) := by
  rcases parseConnectResponse_cases buf txn with ⟨-, h⟩ | ⟨m, h⟩
  · rw [h]
    nofun
  · rw [h]
    nofun

/-- Every step of the call is one of the transitions. -/
theorem act_cases {c : Call} {phase phase' : Phase} {arrived sent : List (List UInt8)}
    {e : NetEvent} (h : c.act phase arrived e = some (phase', sent)) :
    Act c phase arrived phase' sent := by
  obtain ⟨s', hstep, hs⟩ := Option.map_eq_some_iff.mp h
  obtain ⟨rfl, rfl⟩ := Prod.mk.inj hs
  cases step_cases hstep with
  | started server hphase => exact .started hphase
  | unresolved e hphase hresolve =>
    refine .failed e (fun result h => by cases hphase.symm.trans h) ?_
    rintro msg rfl
    exact c.resolve_ne_trackerFailure msg hresolve
  | answered i reply net hanswer => simp [Network.answer] at hanswer
  | delivered stage request attempt a net hphase hdeliver =>
    unfold Network.deliver at hdeliver
    split at hdeliver
    · cases hdeliver
    · rename_i b rest hanswers
      obtain ⟨rfl, rfl⟩ := Prod.mk.inj (Option.some.inj hdeliver)
      change arrived.map (Answer.mk []) = b :: rest at hanswers
      have hmem : b.reply ∈ arrived := by
        have hb : b ∈ arrived.map (Answer.mk []) := hanswers ▸ List.mem_cons_self
        obtain ⟨datagram, hd, rfl⟩ := List.mem_map.mp hb
        exact hd
      cases stage with
      | announce => exact .announced request attempt b.reply hphase hmem
      | connect =>
        simp only [onReply]
        split
        · rename_i id hid
          exact .connected request attempt b.reply id hphase hmem hid
        · rename_i e he
          refine .failed e (fun result h => by cases hphase.symm.trans h) ?_
          rintro msg rfl
          exact parseConnectResponse_ne_trackerFailure _ _ msg he
  | resent stage request attempt hphase hlt => exact .resent stage request attempt hphase hlt
  | timedOut stage request attempt hphase =>
    exact .failed _ (fun result h => by cases hphase.symm.trans h) (by simp)
  | failed source stage request attempt hphase =>
    exact .failed _ (fun result h => by cases hphase.symm.trans h) (by simp)

/-- One constructor for each way the world can go on. -/
inductive WorldStep (c : Call) (w : World) : WorldEvent → World → Prop
  | acted (e : WorldEvent) (arrived : List (List UInt8)) (phase : Phase)
    (sent : List (List UInt8)) : e.isCall = true →
    (∀ datagram ∈ arrived, ∃ reply ∈ w.replies, datagram = reply.bytes) →
    c.Act w.phase arrived phase sent → WorldStep c w e (w.advance (phase, sent))
  | granted (i : Nat) (txn : UInt32) (id : UInt64) : w.request i = some (.connect txn) →
    WorldStep c w (.grant i id) (w.answer (.granted txn id) [id] [] [])
  | registered (i : Nat) (id : UInt64) (txn : UInt32) (announcement : Announcement)
    (view : View) : w.request i = some (.announce id txn announcement) → id ∈ w.issued →
    WorldStep c w (.register i view)
      (w.answer (.registered txn view) [] [⟨id, announcement, view⟩] [])
  | refused (i : Nat) (request : Request) (text : List UInt8) : w.request i = some request →
    WorldStep c w (.refuse i text) (w.answer (.refused request.txn text) [] [] [text])

/-- Every step of the call or the tracker is one of the transitions. -/
theorem worldStep_cases {c : Call} {w w' : World} {e : WorldEvent}
    (h : c.worldStep w e = some w') : c.WorldStep w e w' := by
  cases e with
  | own e =>
    obtain ⟨⟨phase, sent⟩, hact, rfl⟩ := Option.map_eq_some_iff.mp h
    exact .acted _ [] phase sent rfl nofun (act_cases hact)
  | arrive i =>
    obtain ⟨reply, hreply, h⟩ := Option.bind_eq_some_iff.mp h
    obtain ⟨⟨phase, sent⟩, hact, rfl⟩ := Option.map_eq_some_iff.mp h
    refine .acted _ [reply.bytes] phase sent rfl (fun datagram hd => ?_) (act_cases hact)
    exact ⟨reply, List.mem_of_getElem? hreply, List.mem_singleton.mp hd⟩
  | grant i id =>
    simp only [worldStep] at h
    split at h
    · rename_i txn hrequest
      obtain rfl := Option.some.inj h
      exact .granted i txn id hrequest
    · cases h
  | register i view =>
    simp only [worldStep] at h
    split at h
    · rename_i id txn announcement hrequest
      split at h
      · rename_i hissued
        obtain rfl := Option.some.inj h
        exact .registered i id txn announcement view hrequest hissued
      · cases h
    · cases h
  | refuse i text =>
    obtain ⟨request, hrequest, rfl⟩ := Option.map_eq_some_iff.mp h
    exact .refused i request text hrequest

/-! ## What is known of the world -/

/-- The call's own announce. -/
def announcement (c : Call) : Announcement := c.params.announcement c.key

/-- What the call returns of the tracker is what the tracker did. -/
structure Grounded (w : World) (result : Except Error AnnounceResponse) : Prop where
  ok : ∀ resp, result = .ok resp → ∃ entry ∈ w.entries, resp = entry.view.response
  refused : ∀ msg, result = .error (.trackerFailure msg) →
    ∃ text ∈ w.refusals, msg = fromUtf8Lossy (text.take (recvBufLen - 8))

/-- Every datagram comes from what its sender did. -/
structure Known (c : Call) (w : World) : Prop where
  requests : ∀ request ∈ w.requests,
    request = c.connectRequest ∨ ∃ id ∈ w.issued, request = c.announceRequest id
  granted : ∀ txn id, .granted txn id ∈ w.replies → id ∈ w.issued
  registered : ∀ txn view, .registered txn view ∈ w.replies →
    ∃ entry ∈ w.entries, entry.view = view
  refused : ∀ txn text, .refused txn text ∈ w.replies → text ∈ w.refusals
  entries : ∀ entry ∈ w.entries,
    entry.announcement = c.announcement ∧ entry.connectionId ∈ w.issued
  repeats : ∀ stage request attempt, w.phase = .exchanging stage request attempt →
    request ∈ w.requests ∧ attempt < maxAttempts
  count : w.requests.length ≤ w.phase.mostSent
  returned : ∀ result, w.phase = .returned result → Grounded w result

/-- No phase is left with more than twice the attempts of a step. -/
theorem mostSent_le {phase : Phase}
    (h : ∀ stage request attempt, phase = .exchanging stage request attempt →
      attempt < maxAttempts) : phase.mostSent ≤ 2 * maxAttempts := by
  cases phase with
  | resolving => exact Nat.zero_le _
  | returned result => exact Nat.le_refl _
  | exchanging stage request attempt =>
    have hlt := h stage request attempt rfl
    cases stage with
    | connect =>
      simp only [Phase.mostSent]
      omega
    | announce =>
      simp only [Phase.mostSent]
      omega

variable {c : Call} {w w' : World}

/-- The call sends a request of its own. -/
theorem Known.send (hi : c.Known w) {stage : Stage} {request : List UInt8} {attempt : Nat}
    (hrequest : request = c.connectRequest ∨ ∃ id ∈ w.issued, request = c.announceRequest id)
    (hlt : attempt < maxAttempts)
    (hcount : w.requests.length + 1 ≤ (Phase.exchanging stage request attempt).mostSent) :
    c.Known (w.advance (.exchanging stage request attempt, [request])) where
  requests r hr := by
    rcases List.mem_append.mp hr with hr | hr
    · exact hi.requests r hr
    · rw [List.mem_singleton.mp hr]
      exact hrequest
  granted := hi.granted
  registered := hi.registered
  refused := hi.refused
  entries := hi.entries
  repeats stage' request' attempt' hphase := by
    obtain ⟨rfl, rfl, rfl⟩ := Phase.exchanging.inj hphase
    exact ⟨List.mem_append_right _ List.mem_cons_self, hlt⟩
  count := by
    simp only [World.advance, List.length_append, List.length_singleton]
    exact hcount
  returned result hphase := by cases hphase

/-- The call returns. -/
theorem Known.returns (hi : c.Known w) {result : Except Error AnnounceResponse}
    (hresult : Grounded w result) : c.Known (w.advance (.returned result, [])) where
  requests r hr := by
    rw [World.advance, List.append_nil] at hr
    exact hi.requests r hr
  granted := hi.granted
  registered := hi.registered
  refused := hi.refused
  entries := hi.entries
  repeats stage request attempt hphase := by cases hphase
  count := by
    have hmost := mostSent_le fun stage request attempt hphase =>
      (hi.repeats stage request attempt hphase).2
    simp only [World.advance, List.append_nil]
    exact hi.count.trans hmost
  returned result' hphase := by
    obtain rfl := Phase.returned.inj hphase
    exact ⟨hresult.ok, hresult.refused⟩

/-- The call's own steps keep what is known. -/
theorem Known.advance (hi : c.Known w) {arrived : List (List UInt8)} {phase : Phase}
    {sent : List (List UInt8)}
    (harrived : ∀ datagram ∈ arrived, ∃ reply ∈ w.replies, datagram = reply.bytes)
    (h : c.Act w.phase arrived phase sent) : c.Known (w.advance (phase, sent)) := by
  have hcount := hi.count
  cases h with
  | started hphase =>
    rw [hphase] at hcount
    exact hi.send (.inl rfl) (by decide) (Nat.succ_le_succ hcount)
  | resent stage request attempt hphase hlt =>
    rw [hphase] at hcount
    refine hi.send (hi.requests _ (hi.repeats _ _ _ hphase).1) hlt ?_
    cases stage with
    | connect => exact Nat.succ_le_succ hcount
    | announce => exact Nat.succ_le_succ hcount
  | connected request attempt datagram id hphase hd hid =>
    obtain ⟨reply, hreply, rfl⟩ := harrived datagram hd
    rcases reply.parseConnectResponse c.connectTxn with ⟨txn, id', rfl, hok⟩ | ⟨msg, herr⟩
    · obtain rfl := Except.ok.inj (hok.symm.trans hid)
      have hlt := (hi.repeats _ _ _ hphase).2
      rw [hphase] at hcount
      refine hi.send (.inr ⟨id', hi.granted txn id' hreply, rfl⟩) (by decide) ?_
      exact Nat.succ_le_succ (hcount.trans hlt)
    · cases herr.symm.trans hid
  | announced request attempt datagram hphase hd =>
    obtain ⟨reply, hreply, rfl⟩ := harrived datagram hd
    refine hi.returns ⟨fun resp hresp => ?_, fun msg hmsg => ?_⟩
    · rcases reply.parseAnnounceResponse c.announceTxn with
        ⟨view, rfl, hok⟩ | ⟨text, -, herr⟩ | ⟨msg, herr⟩
      · obtain ⟨entry, hentry, rfl⟩ := hi.registered _ view hreply
        exact ⟨entry, hentry, (Except.ok.inj (hok.symm.trans hresp)).symm⟩
      · cases herr.symm.trans hresp
      · cases herr.symm.trans hresp
    · rcases reply.parseAnnounceResponse c.announceTxn with
        ⟨view, -, hok⟩ | ⟨text, rfl, herr⟩ | ⟨msg', herr⟩
      · cases hok.symm.trans hmsg
      · have he := Error.trackerFailure.inj (Except.error.inj (herr.symm.trans hmsg))
        exact ⟨text, hi.refused _ text hreply, he.symm⟩
      · cases Except.error.inj (herr.symm.trans hmsg)
  | failed e hphase he =>
    exact hi.returns ⟨nofun, fun msg hmsg => absurd (Except.error.inj hmsg) (he msg)⟩

/-- A request of the call as the tracker reads it. -/
theorem Known.read (hi : c.Known w) {i : Nat} {request : Request}
    (h : w.request i = some request) :
    request = .connect c.connectTxn ∨
      ∃ id ∈ w.issued, request = .announce id c.announceTxn c.announcement := by
  obtain ⟨datagram, hd, hread⟩ := Option.bind_eq_some_iff.mp h
  rcases hi.requests datagram (List.mem_of_getElem? hd) with rfl | ⟨id, hid, rfl⟩
  · left
    exact Option.some.inj (hread.symm.trans (readRequest_connect c.connectTxn))
  · right
    exact ⟨id, hid, Option.some.inj (hread.symm.trans (readRequest_announce id _ _ _))⟩

/-- What a reply says is what the tracker did. -/
def Records (reply : Reply) (issued : List UInt64) (entries : List Entry)
    (refusals : List (List UInt8)) : Prop :=
  match reply with
  | .granted _ id => id ∈ issued
  | .registered _ view => ∃ entry ∈ entries, entry.view = view
  | .refused _ text => text ∈ refusals

/-- The tracker sends a reply and records what it did. -/
theorem Known.answer (hi : c.Known w) {reply : Reply} {issued : List UInt64}
    {entries : List Entry} {refusals : List (List UInt8)}
    (hrecords : Records reply issued entries refusals)
    (hentries : ∀ entry ∈ entries,
      entry.announcement = c.announcement ∧ entry.connectionId ∈ w.issued) :
    c.Known (w.answer reply issued entries refusals) where
  requests r hr := (hi.requests r hr).imp_right fun ⟨id, hid, he⟩ =>
    ⟨id, List.mem_append_left _ hid, he⟩
  granted txn id hm := by
    rcases List.mem_append.mp hm with hm | hm
    · exact List.mem_append_left _ (hi.granted txn id hm)
    · obtain rfl := List.mem_singleton.mp hm
      exact List.mem_append_right _ hrecords
  registered txn view hm := by
    rcases List.mem_append.mp hm with hm | hm
    · obtain ⟨entry, he, hview⟩ := hi.registered txn view hm
      exact ⟨entry, List.mem_append_left _ he, hview⟩
    · obtain rfl := List.mem_singleton.mp hm
      obtain ⟨entry, he, hview⟩ := hrecords
      exact ⟨entry, List.mem_append_right _ he, hview⟩
  refused txn text hm := by
    rcases List.mem_append.mp hm with hm | hm
    · exact List.mem_append_left _ (hi.refused txn text hm)
    · obtain rfl := List.mem_singleton.mp hm
      exact List.mem_append_right _ hrecords
  entries entry hm := by
    have hall : entry.announcement = c.announcement ∧ entry.connectionId ∈ w.issued := by
      rcases List.mem_append.mp hm with hm | hm
      · exact hi.entries entry hm
      · exact hentries entry hm
    exact ⟨hall.1, List.mem_append_left _ hall.2⟩
  repeats := hi.repeats
  count := hi.count
  returned result hphase := by
    obtain ⟨hok, hrefused⟩ := hi.returned result hphase
    refine ⟨fun resp hresp => ?_, fun msg hmsg => ?_⟩
    · obtain ⟨entry, he, hview⟩ := hok resp hresp
      exact ⟨entry, List.mem_append_left _ he, hview⟩
    · obtain ⟨text, ht, hmsg⟩ := hrefused msg hmsg
      exact ⟨text, List.mem_append_left _ ht, hmsg⟩

/-- Every step keeps what is known. -/
theorem Known.step {e : WorldEvent} (hi : c.Known w) (h : c.WorldStep w e w') :
    c.Known w' := by
  cases h with
  | acted e arrived phase sent he harrived hact => exact hi.advance harrived hact
  | granted i txn id hrequest => exact hi.answer List.mem_cons_self nofun
  | registered i id txn announcement view hrequest hissued =>
    refine hi.answer ⟨_, List.mem_cons_self, rfl⟩ fun entry he => ?_
    obtain rfl := List.mem_singleton.mp he
    rcases hi.read hrequest with h | ⟨id', hid, h⟩
    · cases h
    · obtain ⟨rfl, -, rfl⟩ := Request.announce.inj h
      exact ⟨rfl, hid⟩
  | refused i request text hrequest => exact hi.answer List.mem_cons_self nofun

/-- At the start nothing has been registered. -/
theorem known_init (c : Call) : c.Known c.worldSystem.init := by
  constructor <;> simp [worldSystem, Phase.mostSent]

/-- What both sides know of each other, in every reachable state. -/
theorem known_reachable (hr : c.worldSystem.Reachable w) : c.Known w :=
  hr.invariant (P := c.Known) (known_init c) fun _ _ _ _ hi h => hi.step (worldStep_cases h)

/-! ## The steps of the call -/

/-- A step of the call leaves it one step fewer. -/
theorem Act.stepsLeft_lt {phase phase' : Phase} {arrived sent : List (List UInt8)}
    (h : c.Act phase arrived phase' sent)
    (hlt : ∀ stage request attempt, phase = .exchanging stage request attempt →
      attempt < maxAttempts) : phase'.stepsLeft + 1 ≤ phase.stepsLeft := by
  cases h with
  | started hphase =>
    rw [hphase]
    exact Nat.le_refl _
  | resent stage request attempt hphase hmore =>
    rw [hphase]
    cases stage <;>
    · simp only [Phase.stepsLeft]
      omega
  | connected request attempt datagram id hphase =>
    have hattempt := hlt _ _ _ hphase
    rw [hphase]
    simp only [Phase.stepsLeft]
    omega
  | announced request attempt datagram hphase =>
    have hattempt := hlt _ _ _ hphase
    rw [hphase]
    simp only [Phase.stepsLeft]
    omega
  | failed e hphase =>
    cases phase with
    | resolving => exact Nat.succ_le_succ (Nat.zero_le _)
    | returned result => exact absurd rfl (hphase result)
    | exchanging stage request attempt =>
      have hattempt := hlt _ _ _ rfl
      cases stage <;>
      · simp only [Phase.stepsLeft]
        omega

/-- Until it has returned, the call can go on by itself. -/
theorem exists_act (c : Call) {phase : Phase} (h : ∀ result, phase ≠ .returned result) :
    ∃ e r, c.act phase [] e = some r := by
  cases phase with
  | returned result => exact absurd rfl (h result)
  | resolving =>
    refine ⟨.start, ?_⟩
    simp only [act, step]
    cases c.resolve with
    | ok server => exact ⟨_, rfl⟩
    | error e => exact ⟨_, rfl⟩
  | exchanging stage request attempt =>
    refine ⟨.elapse, ?_⟩
    simp only [act, step]
    split
    · exact ⟨_, rfl⟩
    · exact ⟨_, rfl⟩

/-- The tracker leaves the call where it is. -/
theorem WorldStep.stepsLeft_le {e : WorldEvent} (hi : c.Known w) (h : c.WorldStep w e w') :
    w'.phase.stepsLeft + e.isCall.toNat ≤ w.phase.stepsLeft := by
  cases h with
  | acted e arrived phase sent he harrived hact =>
    rw [he]
    exact hact.stepsLeft_lt fun stage request attempt hphase =>
      (hi.repeats stage request attempt hphase).2
  | granted | registered | refused => exact Nat.le_refl _

end Call

/-- A call of `announce` and a tracker agree, whatever the network loses, delays, reorders or
repeats: the tracker never registers anything but what the call was given, under a
connection id it gave out to this call; the call sends at most three datagrams in each step;
a response it returns is the reply to an announce the tracker registered; and a failure it
reports of the tracker is the text of a refusal. -/
theorem announce_was_registered (c : Call) {w : World} (hr : c.worldSystem.Reachable w) :
    (∀ entry ∈ w.entries, entry.announcement = c.params.announcement c.key ∧
      entry.connectionId ∈ w.issued) ∧
    w.requests.length ≤ 2 * maxAttempts ∧
    (∀ resp, w.phase = .returned (.ok resp) →
      ∃ entry ∈ w.entries, resp = entry.view.response ∧
        (entry.view.peers.Legible → resp.peers = entry.view.peers.addrs)) ∧
    ∀ msg, w.phase = .returned (.error (.trackerFailure msg)) →
      ∃ text ∈ w.refusals, msg = fromUtf8Lossy (text.take (recvBufLen - 8)) := by
  have hi := Call.known_reachable hr
  have hmost := Call.mostSent_le fun stage request attempt hphase =>
    (hi.repeats stage request attempt hphase).2
  refine ⟨hi.entries, hi.count.trans hmost, fun resp hphase => ?_, fun msg hphase => ?_⟩
  · obtain ⟨entry, he, hresp⟩ := (hi.returned _ hphase).ok resp rfl
    refine ⟨entry, he, hresp, fun hlegible => ?_⟩
    rw [hresp]
    exact entry.view.peers.compactPeersV4_receivedBlob_iff.mpr hlegible
  · exact (hi.returned _ hphase).refused msg rfl

/-- A swarm of one peer. -/
def sampleView : View := ⟨1800, 5, 3, .v4 [(0x01020304, 6881)]⟩

/-- The connect request is sent twice and answered twice, and so is the announce request;
the later replies come first. -/
def disorderedEvents : List WorldEvent :=
  [.own .start, .own .elapse, .grant 1 7, .grant 0 9, .arrive 1, .own .elapse,
    .register 3 sampleView, .register 2 sampleView, .arrive 3]

/-- A run in which datagrams are lost, repeated and reordered. -/
theorem announce_was_registered_disordered : ∃ w, sampleCall.worldSystem.Reachable w ∧
    w.phase = .returned (.ok sampleView.response) ∧ ∃ entry ∈ w.entries,
      entry.announcement = sampleCall.params.announcement 3 ∧
        sampleView.response.peers = entry.view.peers.addrs := by
  obtain ⟨w, hw, hphase, hviews⟩ : ∃ w : World,
      sampleCall.worldSystem.exec sampleCall.worldSystem.init disorderedEvents = some w ∧
        w.phase = .returned (.ok sampleView.response) ∧
          w.entries.map Entry.view = [sampleView, sampleView] :=
    ⟨_, rfl, rfl, rfl⟩
  have hr := System.Reachable.init.exec disorderedEvents hw
  obtain ⟨hentries, -, hok, -⟩ := announce_was_registered sampleCall hr
  obtain ⟨entry, he, -, hpeers⟩ := hok _ hphase
  have hview : entry.view = sampleView := by
    have hmem := List.mem_map_of_mem (f := Entry.view) he
    rw [hviews] at hmem
    simpa using hmem
  refine ⟨w, hr, hphase, entry, he, (hentries entry he).1, hpeers ?_⟩
  rw [hview]
  exact Nat.le_of_ble_eq_true rfl

/-- A call of `announce` comes to an end: whatever the network and the tracker do, it takes at
most seven steps, and until it has returned it can take one that waits for no datagram. -/
theorem announce_returns (c : Call) {run : List (Transition World WorldEvent)} {w : World}
    (hr : c.worldSystem.History run w) :
    run.countP (fun t => t.event.isCall) ≤ 2 * maxAttempts + 1 ∧
      ((∃ result, w.phase = .returned result) ∨
        ∃ e w', c.worldStep w (.own e) = some w') := by
  constructor
  · have hle := hr.countP_le WorldEvent.isCall (fun w => w.phase.stepsLeft)
      fun h w e w' hh _ hs =>
        (Call.worldStep_cases hs).stepsLeft_le (Call.known_reachable ⟨h, hh⟩)
    exact (Nat.le_add_right _ _).trans hle
  · by_cases hreturned : ∃ result, w.phase = .returned result
    · exact .inl hreturned
    · obtain ⟨e, r, hact⟩ := c.exists_act fun result h => hreturned ⟨result, h⟩
      refine .inr ⟨e, w.advance r, ?_⟩
      rw [Call.worldStep, hact, Option.map_some]

/-- The connect step is done in its last attempt, and the announce step is not. -/
def slowEvents : List WorldEvent :=
  [.own .start, .own .elapse, .own .elapse, .grant 0 7, .arrive 0, .own .elapse, .own .elapse,
    .own .elapse]

/-- A tracker that never answers takes all seven steps. -/
theorem announce_returns_slow : ∃ run w, sampleCall.worldSystem.History run w ∧
    w.phase = .returned (.error .timeout) ∧ run.countP (fun t => t.event.isCall) = 7 ∧
      run.countP (fun t => t.event.isCall) ≤ 2 * maxAttempts + 1 := by
  have hr : sampleCall.worldSystem.History _ _ := System.History.ofExec slowEvents rfl
  exact ⟨_, _, hr, rfl, rfl, (announce_returns sampleCall hr).1⟩

end Torrentina.Tracker.Udp
