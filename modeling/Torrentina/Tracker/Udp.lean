import Torrentina.Core.Network
import Torrentina.Core.System
import Torrentina.Tracker.Packets

/-!
# One announce over UDP

`announce` connects and then announces over one socket. Both steps are an
`exchange`, which sends its request, takes the next datagram the socket has for
its reply, and sends the request again after a timeout. The replies to the
repetitions of the connect request are still to come when the announce request
goes out, and whatever comes first is parsed as the announce reply.
-/

namespace Torrentina.Tracker.Udp

open Torrentina.Core

/-- The receive buffer of `exchange`. -/
def recvBufLen : Nat := 2048
def maxAttempts : Nat := 3

/-- What `recv` leaves of a datagram in the buffer. -/
def received (datagram : List UInt8) : List UInt8 := datagram.take recvBufLen

/-- One call of `announce`: the URL, what the system calls before the first
datagram return, the random draws and the parameters. -/
structure Call where
  host : Option String
  port : Option UInt16
  lookupHost : String → UInt16 → Except String (List SocketAddr)
  bind : String → Except String Unit
  connect : SocketAddr → Except String Unit
  connectTxn : UInt32
  announceTxn : UInt32
  key : UInt32
  params : AnnounceParams

/-- The two steps of the protocol. -/
inductive Stage
  | connect
  | announce
  deriving DecidableEq, Repr

/-- Where the call stands: before its first datagram, awaiting the reply to a
request in an attempt counted from zero, or returned. -/
inductive Phase
  | resolving
  | exchanging (stage : Stage) (request : List UInt8) (attempt : Nat)
  | returned (result : Except Error AnnounceResponse)
  deriving DecidableEq

/-- The call and what is on its way between it and the tracker. -/
structure State where
  phase : Phase
  net : Network (List UInt8) (List UInt8)

/-- What can happen next: the call resolves the tracker's address; the tracker
receives the request at `i` and answers it; the next datagram arrives; the
attempt times out; the socket fails. -/
inductive NetEvent
  | start
  | receive (i : Nat) (reply : List UInt8)
  | deliver
  | elapse
  | fail (source : String)

namespace Call

/-- Resolve the tracker's address and bind a local socket. -/
def resolve (c : Call) : Except Error SocketAddr := do
  let host ← okOr c.host (.udpProtocol "udp tracker URL has no host")
  let port ← okOr c.port (.udpProtocol "udp tracker URL has no port")
  let addrs ← (c.lookupHost host port).mapError Error.io
  let server ← okOr addrs.head? (.udpProtocol s!"could not resolve {host}:{port}")
  let bindAddr := match server with
    | .v6 _ _ => "[::]:0"
    | .v4 _ _ => "0.0.0.0:0"
  (c.bind bindAddr).mapError Error.io
  (c.connect server).mapError Error.io
  return server

def connectRequest (c : Call) : List UInt8 := buildConnectRequest c.connectTxn

def announceRequest (c : Call) (connectionId : UInt64) : List UInt8 :=
  buildAnnounceRequest connectionId c.announceTxn c.key c.params

/-- `exchange` sends its request and waits. -/
def exchange (stage : Stage) (request : List UInt8) (attempt : Nat)
    (net : Network (List UInt8) (List UInt8)) : State :=
  ⟨.exchanging stage request attempt, net.send request⟩

/-- `exchange` returns a datagram to the step that awaits it. -/
def onReply (c : Call) (stage : Stage) (reply : List UInt8)
    (net : Network (List UInt8) (List UInt8)) : State :=
  match stage with
  | .connect =>
    match parseConnectResponse reply c.connectTxn with
    | .ok connectionId => exchange .announce (c.announceRequest connectionId) 0 net
    | .error e => ⟨.returned (.error e), net⟩
  | .announce => ⟨.returned (parseAnnounceResponse reply c.announceTxn), net⟩

/-- One step of a call and the network around it. -/
def step (c : Call) (s : State) : NetEvent → Option State
  | .start =>
    match s.phase with
    | .resolving =>
      match c.resolve with
      | .ok _ => some (exchange .connect c.connectRequest 0 s.net)
      | .error e => some ⟨.returned (.error e), s.net⟩
    | _ => none
  | .receive i reply => (s.net.answer correctReply i reply).map fun net => { s with net }
  | .deliver =>
    match s.phase with
    | .exchanging stage _ _ =>
      s.net.deliver.map fun arrival => c.onReply stage (received arrival.1.reply) arrival.2
    | _ => none
  | .elapse =>
    match s.phase with
    | .exchanging stage request attempt =>
      if attempt + 1 < maxAttempts then some (exchange stage request (attempt + 1) s.net)
      else some ⟨.returned (.error .timeout), s.net⟩
    | _ => none
  | .fail source =>
    match s.phase with
    | .exchanging _ _ _ => some ⟨.returned (.error (.io source)), s.net⟩
    | _ => none

/-- All runs of a call against a tracker that answers each datagram it receives
once and correctly. -/
def system (c : Call) : System State NetEvent where
  init := ⟨.resolving, {}⟩
  step := c.step

/-- What is expected of a step: the call returns no error of a misread datagram,
and a reply to its announce request delivered in an announce attempt is what it
returns. -/
structure Faithful (c : Call) (t : Transition State NetEvent) : Prop where
  not_misread : ∀ result, t.post.phase = .returned result → ¬ Misread result
  parsed : ∀ request attempt a net, t.event = .deliver →
    t.pre.phase = .exchanging .announce request attempt → t.pre.net.deliver = some (a, net) →
    a.request = request → t.post.phase = .returned (parseAnnounceResponse a.reply c.announceTxn)

/-- The datagram fits the receive buffer, or is an error packet whose text reads
the same without what does not fit. -/
def Fits (reply : List UInt8) : Prop :=
  reply.length ≤ recvBufLen ∨ readU32 reply 0 = actionError ∧
    fromUtf8Lossy ((received reply).drop 8) = fromUtf8Lossy (reply.drop 8)

/-- The datagram is one that the stage is ready for. The connect step is not
ready for an error packet, and the announce step not for a late connect reply. -/
def Expected (c : Call) (request : List UInt8) (a : Answer (List UInt8) (List UInt8)) :
    Stage → Prop
  | .connect => readU32 a.reply 0 = actionError → a.reply.length < connectResponseLen
  | .announce =>
    a.request = request ∧ Fits a.reply ∨
      a.request ≠ request ∧ c.connectTxn = c.announceTxn ∧ readU32 a.reply 0 = actionError

/-- A datagram that is about to be delivered is an expected one. -/
def Undisturbed (c : Call) (s : State) (e : NetEvent) : Prop :=
  ∀ stage request attempt a net, e = .deliver → s.phase = .exchanging stage request attempt →
    s.net.deliver = some (a, net) → c.Expected request a stage

/-! ## What a step does -/

/-- One constructor for each way a step can go. -/
inductive Step (c : Call) (s : State) : NetEvent → State → Prop
  | started (server : SocketAddr) : s.phase = .resolving → c.resolve = .ok server →
    Step c s .start (exchange .connect c.connectRequest 0 s.net)
  | unresolved (e : Error) : s.phase = .resolving → c.resolve = .error e →
    Step c s .start ⟨.returned (.error e), s.net⟩
  | answered (i : Nat) (reply : List UInt8) (net : Network (List UInt8) (List UInt8)) :
    s.net.answer correctReply i reply = some net → Step c s (.receive i reply) ⟨s.phase, net⟩
  | delivered (stage : Stage) (request : List UInt8) (attempt : Nat)
    (a : Answer (List UInt8) (List UInt8)) (net : Network (List UInt8) (List UInt8)) :
    s.phase = .exchanging stage request attempt → s.net.deliver = some (a, net) →
    Step c s .deliver (c.onReply stage (received a.reply) net)
  | resent (stage : Stage) (request : List UInt8) (attempt : Nat) :
    s.phase = .exchanging stage request attempt → attempt + 1 < maxAttempts →
    Step c s .elapse (exchange stage request (attempt + 1) s.net)
  | timedOut (stage : Stage) (request : List UInt8) (attempt : Nat) :
    s.phase = .exchanging stage request attempt → ¬ attempt + 1 < maxAttempts →
    Step c s .elapse ⟨.returned (.error .timeout), s.net⟩
  | failed (source : String) (stage : Stage) (request : List UInt8) (attempt : Nat) :
    s.phase = .exchanging stage request attempt →
    Step c s (.fail source) ⟨.returned (.error (.io source)), s.net⟩

/-- Every step is one of the transitions. -/
theorem step_cases {c : Call} {s s' : State} {e : NetEvent} (h : c.step s e = some s') :
    Step c s e s' := by
  cases e with
  | start =>
    simp only [step] at h
    split at h
    · rename_i hphase
      split at h
      · rename_i server hr
        obtain rfl := Option.some.inj h
        exact .started server hphase hr
      · rename_i e hr
        obtain rfl := Option.some.inj h
        exact .unresolved e hphase hr
    · cases h
  | receive i reply =>
    obtain ⟨net, ha, rfl⟩ := Option.map_eq_some_iff.mp h
    exact .answered i reply net ha
  | deliver =>
    simp only [step] at h
    split at h
    · rename_i stage request attempt hphase
      obtain ⟨⟨a, net⟩, hd, rfl⟩ := Option.map_eq_some_iff.mp h
      exact .delivered stage request attempt a net hphase hd
    · cases h
  | elapse =>
    simp only [step] at h
    split at h
    · rename_i stage request attempt hphase
      split at h
      · rename_i hlt
        obtain rfl := Option.some.inj h
        exact .resent stage request attempt hphase hlt
      · rename_i hlt
        obtain rfl := Option.some.inj h
        exact .timedOut stage request attempt hphase hlt
    · cases h
  | fail source =>
    simp only [step] at h
    split at h
    · rename_i stage request attempt hphase
      obtain rfl := Option.some.inj h
      exact .failed source stage request attempt hphase
    · cases h

/-! ## What is on its way -/

/-- The request a stage repeats. -/
def Repeats (c : Call) (request : List UInt8) : Stage → Prop
  | .connect => request = c.connectRequest
  | .announce => ∃ connectionId, request = c.announceRequest connectionId

/-- The requests that have gone out by the time the stage awaits the reply to `request`. -/
def Asked (c : Call) (request : List UInt8) : Stage → List UInt8 → Prop
  | .connect => fun r => r = c.connectRequest
  | .announce => fun r => r = c.connectRequest ∨ r = request

/-- A stage repeats its own request, and all else that is on its way comes from
the requests that went out before. -/
structure Inv (c : Call) (s : State) : Prop where
  unsent : s.phase = .resolving → s.net = {}
  repeats : ∀ stage request attempt, s.phase = .exchanging stage request attempt →
    c.Repeats request stage
  carries : ∀ stage request attempt, s.phase = .exchanging stage request attempt →
    s.net.Carries correctReply (c.Asked request stage)

variable {c : Call} {s s' : State} {e : NetEvent} {stage : Stage} {request : List UInt8}
  {net : Network (List UInt8) (List UInt8)}

/-- A request that is repeated has been asked. -/
theorem Repeats.asked (h : c.Repeats request stage) : c.Asked request stage request := by
  cases stage with
  | connect => exact h
  | announce => exact .inr rfl

/-- A call that has returned keeps the invariant. -/
theorem inv_returned (result : Except Error AnnounceResponse) :
    c.Inv ⟨.returned result, net⟩ := by
  constructor <;> simp

/-- A request that is sent keeps the invariant. -/
theorem inv_exchange (hr : c.Repeats request stage) {attempt : Nat}
    (hc : net.Carries correctReply (c.Asked request stage)) :
    c.Inv (exchange stage request attempt net) := by
  constructor
  · simp [exchange]
  · intro stage' request' attempt' hphase
    obtain ⟨rfl, rfl, -⟩ := Phase.exchanging.inj hphase
    exact hr
  · intro stage' request' attempt' hphase
    obtain ⟨rfl, rfl, -⟩ := Phase.exchanging.inj hphase
    exact hc.send hr.asked

/-- A reply that is handled keeps the invariant. -/
theorem inv_onReply {reply : List UInt8} (hc : net.Carries correctReply (c.Asked request stage)) :
    c.Inv (c.onReply stage reply net) := by
  cases stage with
  | announce => exact inv_returned _
  | connect =>
    unfold onReply
    cases hparse : parseConnectResponse reply c.connectTxn with
    | error e => exact inv_returned _
    | ok connectionId =>
      have hr : c.Repeats (c.announceRequest connectionId) .announce := ⟨connectionId, rfl⟩
      exact inv_exchange hr (hc.imp fun r hasked => Or.inl hasked)

/-- Every step keeps the invariant. -/
theorem inv_step (hi : c.Inv s) (h : c.step s e = some s') : c.Inv s' := by
  cases step_cases h with
  | started server hphase hresolve =>
    have hr : c.Repeats c.connectRequest .connect := rfl
    rw [hi.unsent hphase]
    exact inv_exchange hr .empty
  | unresolved e hphase hresolve => exact inv_returned _
  | answered i reply net hanswer =>
    refine ⟨fun hphase => ?_, hi.repeats, fun stage request attempt hphase => ?_⟩
    · rw [hi.unsent hphase] at hanswer
      simp [Network.answer] at hanswer
    · exact (hi.carries stage request attempt hphase).answer hanswer
  | delivered stage request attempt a net hphase hdeliver =>
    exact inv_onReply ((hi.carries stage request attempt hphase).deliver hdeliver).2
  | resent stage request attempt hphase hlt =>
    exact inv_exchange (hi.repeats stage request attempt hphase)
      (hi.carries stage request attempt hphase)
  | timedOut stage request attempt hphase hlt => exact inv_returned _
  | failed source stage request attempt hphase => exact inv_returned _

/-- A fresh call satisfies the invariant. -/
theorem inv_init : c.Inv ⟨.resolving, {}⟩ := by
  constructor <;> simp

/-- The invariant holds in every reachable state. -/
theorem inv_reachable (h : c.system.Reachable s) : c.Inv s :=
  h.invariant (P := c.Inv) inv_init fun _ _ _ _ hi hs => inv_step hi hs

/-! ## What the buffer leaves of a correct reply -/

/-- The buffer has the numbers of the reply that lie inside it. -/
theorem readU32_received (reply : List UInt8) {k : Nat} (hk : k + 4 ≤ recvBufLen) :
    readU32 (received reply) k = readU32 reply k :=
  readU32_take hk

/-- The buffer takes as much of a reply as it holds. -/
theorem length_received (reply : List UInt8) :
    (received reply).length = min recvBufLen reply.length :=
  List.length_take

/-- A reply that fits is received whole. -/
theorem received_of_le {reply : List UInt8} (h : reply.length ≤ recvBufLen) :
    received reply = reply :=
  List.take_of_length_le h

/-- Whether a reply is long enough shows in the buffer. -/
theorem le_length_received_iff {reply : List UInt8} {n : Nat} (hn : n ≤ recvBufLen) :
    n ≤ (received reply).length ↔ n ≤ reply.length := by
  rw [length_received]
  omega

/-- A correct reply stays one: the buffer holds every fixed header. -/
theorem correctReply_received (request reply : List UInt8) :
    correctReply request (received reply) = correctReply request reply := by
  simp only [correctReply, readU32_received reply (k := 0) (by decide),
    readU32_received reply (k := 4) (by decide),
    le_length_received_iff (n := 8) (by decide),
    le_length_received_iff (n := connectResponseLen) (by decide),
    le_length_received_iff (n := announceResponseHeaderLen) (by decide)]

/-- A datagram that does not fit loses peers, or is no longer refused for its length. -/
theorem parseAnnounceResponse_received_iff {connectionId : UInt64} {reply : List UInt8}
    (h : correctReply (c.announceRequest connectionId) reply = true) :
    parseAnnounceResponse (received reply) c.announceTxn =
      parseAnnounceResponse reply c.announceTxn ↔ Fits reply := by
  by_cases hlen : reply.length ≤ recvBufLen
  · rw [received_of_le hlen]
    exact iff_of_true rfl (.inl hlen)
  · have hcut : (received reply).length = recvBufLen := by
      rw [length_received]
      omega
    have h4 : readU32 (received reply) 4 = readU32 reply 4 := readU32_received reply (by decide)
    have h0 : readU32 (received reply) 0 = readU32 reply 0 := readU32_received reply (by decide)
    obtain ⟨htxn, ⟨ha, h8⟩ | ⟨ha, h20⟩⟩ := correctReply_announce h
    · rw [parseAnnounceResponse_error htxn ha h8,
        parseAnnounceResponse_error (h4.trans htxn) (h0.trans ha) (by rw [hcut]; decide)]
      simp [Fits, hlen, ha]
    · have hfit : ¬ Fits reply := by
        rintro (hle | ⟨herr, -⟩)
        · exact hlen hle
        · rw [ha] at herr
          exact absurd herr (by decide)
      refine iff_of_false (fun heq => ?_) hfit
      rw [parseAnnounceResponse_announce htxn ha h20,
        parseAnnounceResponse_announce (h4.trans htxn) (h0.trans ha) (by rw [hcut]; decide)] at heq
      have hblob : ((received reply).drop announceResponseHeaderLen).length = 2028 := by
        rw [List.length_drop, hcut, recvBufLen, announceResponseHeaderLen]
      have hok : parseCompactPeersV4 ((received reply).drop announceResponseHeaderLen) =
          .ok (compactPeersV4 ((received reply).drop announceResponseHeaderLen)) := by
        rw [parseCompactPeersV4, hblob, if_neg (by decide)]
      rw [hok] at heq
      obtain ⟨peers, hpeers, hresponse⟩ := map_eq_ok_iff.mp heq.symm
      have hsame : peers = compactPeersV4 ((received reply).drop announceResponseHeaderLen) :=
        congrArg AnnounceResponse.peers hresponse
      have hcount := parseCompactPeersV4_length hpeers
      rw [hsame, length_compactPeersV4, hblob, List.length_drop, compactPeerV4Len,
        announceResponseHeaderLen] at hcount
      have : recvBufLen = 2048 := rfl
      omega

/-! ## Exactly the undisturbed runs are faithful -/

/-- The call has not returned the error of a misread datagram. -/
def Calm (s : State) : Prop := ∀ result, s.phase = .returned result → ¬ Misread result

/-- A call that has returned is calm unless it misread a reply. -/
theorem calm_returned_iff {result : Except Error AnnounceResponse} :
    Calm ⟨.returned result, net⟩ ↔ ¬ Misread result := by
  constructor
  · intro h
    exact h result rfl
  · intro h result' hphase
    rwa [← Phase.returned.inj hphase]

/-- A fresh call is calm. -/
theorem calm_init : Calm ⟨.resolving, {}⟩ :=
  fun _ hphase => nomatch hphase

/-- A call that sends a request is calm. -/
theorem calm_exchange {attempt : Nat} : Calm (exchange stage request attempt net) :=
  fun _ hphase => nomatch hphase

/-- Other texts are no sign of a misread reply. -/
theorem not_misread_of_opening {msg : String} {α : Type}
    (h : msg.toList.take 9 ∉ ["connect t".toList, "expected ".toList, "announce ".toList]) :
    ¬ Misread (.error (.udpProtocol msg) : Except Error α) :=
  fun hm => h hm.opening

/-- What stops the call before its first datagram is none of these errors. -/
theorem not_misread_resolve {err : Error} (h : c.resolve = .error err) :
    ¬ Misread (.error err : Except Error AnnounceResponse) := by
  have system {α : Type} {x : Except String α} (he : x.mapError Error.io = .error err) :
      ¬ Misread (.error err : Except Error AnnounceResponse) := by
    obtain ⟨source, -, rfl⟩ := mapError_eq_error_iff.mp he
    exact fun hm => nomatch hm
  unfold resolve at h
  rcases bind_eq_error_iff.mp h with h | ⟨host, -, h⟩
  · obtain ⟨-, rfl⟩ := okOr_eq_error_iff.mp h
    exact not_misread_of_opening (by decide)
  rcases bind_eq_error_iff.mp h with h | ⟨port, -, h⟩
  · obtain ⟨-, rfl⟩ := okOr_eq_error_iff.mp h
    exact not_misread_of_opening (by decide)
  rcases bind_eq_error_iff.mp h with h | ⟨addrs, -, h⟩
  · exact system h
  rcases bind_eq_error_iff.mp h with h | ⟨server, -, h⟩
  · obtain ⟨-, rfl⟩ := okOr_eq_error_iff.mp h
    apply not_misread_of_opening
    rw [String.toList_append, String.toList_append, String.toList_append, List.append_assoc,
      List.append_assoc, List.take_append_of_le_length (by decide)]
    decide
  rcases bind_eq_error_iff.mp h with h | ⟨_, -, h⟩
  · exact system h
  rcases bind_eq_error_iff.mp h with h | ⟨_, -, h⟩
  · exact system h
  · cases h

/-- A correct reply to the connect request is misread exactly when it is a short refusal. -/
theorem calm_onReply_connect_iff (net : Network (List UInt8) (List UInt8)) {reply : List UInt8}
    (hc : correctReply c.connectRequest reply = true) :
    Calm (c.onReply .connect (received reply) net) ↔
      (readU32 reply 0 = actionError → reply.length < connectResponseLen) := by
  have hcut : correctReply c.connectRequest (received reply) = true := by
    rwa [correctReply_received]
  have hmis := misread_parseConnectResponse_iff hcut
  rw [readU32_received reply (by decide), le_length_received_iff (by decide)] at hmis
  have hcalm : Calm (c.onReply .connect (received reply) net) ↔
      ¬ Misread (parseConnectResponse (received reply) c.connectTxn) := by
    unfold onReply
    cases parseConnectResponse (received reply) c.connectTxn with
    | error e => exact calm_returned_iff.trans (not_congr ⟨Misread.cast, Misread.cast⟩)
    | ok connectionId => exact iff_of_true calm_exchange fun hm => nomatch hm
  rw [hcalm, hmis, not_and, Nat.not_le]

/-- The announce step returns the reply to its own request, as far as the buffer holds it. -/
theorem onReply_announce_iff (net : Network (List UInt8) (List UInt8)) {connectionId : UInt64}
    {reply : List UInt8} (hc : correctReply (c.announceRequest connectionId) reply = true) :
    Calm (c.onReply .announce (received reply) net) ∧
      ((c.onReply .announce (received reply) net).phase =
        .returned (parseAnnounceResponse reply c.announceTxn) ↔ Fits reply) := by
  constructor
  · have hcut : correctReply (c.announceRequest connectionId) (received reply) = true := by
      rwa [correctReply_received]
    rw [onReply, calm_returned_iff]
    exact not_misread_parseAnnounceResponse hcut
  · rw [onReply, Phase.returned.injEq, parseAnnounceResponse_received_iff hc]

/-- A late reply to the connect request is misread unless it refuses under the announce's
transaction id. -/
theorem calm_onReply_late_iff (net : Network (List UInt8) (List UInt8)) {reply : List UInt8}
    (hc : correctReply c.connectRequest reply = true) :
    Calm (c.onReply .announce (received reply) net) ↔
      c.connectTxn = c.announceTxn ∧ readU32 reply 0 = actionError := by
  have hcut : correctReply c.connectRequest (received reply) = true := by
    rwa [correctReply_received]
  have hmis := misread_parseAnnounceResponse_iff hcut c.announceTxn
  rw [readU32_received reply (by decide)] at hmis
  rw [onReply, calm_returned_iff, hmis, not_not]

/-- What reaches a waiting stage answers a request that went out before. -/
theorem Inv.delivered (hi : c.Inv s) {attempt : Nat} {a : Answer (List UInt8) (List UInt8)}
    (hphase : s.phase = .exchanging stage request attempt) (hd : s.net.deliver = some (a, net)) :
    c.Repeats request stage ∧ c.Asked request stage a.request ∧
      correctReply a.request a.reply = true :=
  ⟨hi.repeats stage request attempt hphase,
    ((hi.carries stage request attempt hphase).deliver hd).1⟩

/-- What a datagram does that arrives in an exchange. -/
theorem step_deliver {attempt : Nat} {a : Answer (List UInt8) (List UInt8)}
    (hphase : s.phase = .exchanging stage request attempt) (hd : s.net.deliver = some (a, net)) :
    c.step s .deliver = some (c.onReply stage (received a.reply) net) := by
  simp only [step, hphase, hd, Option.map_some]

/-- The step that takes a datagram is faithful just when the datagram is expected. -/
theorem faithful_deliver_iff (hi : c.Inv s) {attempt : Nat} {a : Answer (List UInt8) (List UInt8)}
    (hphase : s.phase = .exchanging stage request attempt) (hd : s.net.deliver = some (a, net)) :
    c.Faithful ⟨s, .deliver, c.onReply stage (received a.reply) net⟩ ↔
      c.Expected request a stage := by
  obtain ⟨hr, hasked, hc⟩ := hi.delivered hphase hd
  cases stage with
  | connect =>
    rw [show a.request = c.connectRequest from hasked] at hc
    rw [Expected, ← calm_onReply_connect_iff net hc]
    refine ⟨fun hf => hf.not_misread, fun hcalm => ⟨hcalm, ?_⟩⟩
    intro request' attempt' a' net' _ hphase'
    rw [hphase] at hphase'
    cases hphase'
  | announce =>
    obtain ⟨connectionId, rfl⟩ := hr
    by_cases hown : a.request = c.announceRequest connectionId
    · rw [hown] at hc
      obtain ⟨hcalm, hfits⟩ := onReply_announce_iff net hc
      rw [Expected, or_iff_left (fun h => h.1 hown), and_iff_right hown, ← hfits]
      refine ⟨fun hf => hf.parsed _ attempt a net rfl hphase hd hown, fun hret => ⟨hcalm, ?_⟩⟩
      intro request' attempt' a' net' _ _ hd' _
      obtain ⟨rfl, -⟩ := Prod.mk.inj (Option.some.inj (hd.symm.trans hd'))
      exact hret
    · rw [hasked.resolve_right hown] at hc
      rw [Expected, or_iff_right (fun h => hown h.1), and_iff_right hown,
        ← calm_onReply_late_iff net hc]
      refine ⟨fun hf => hf.not_misread, fun hcalm => ⟨hcalm, ?_⟩⟩
      intro request' attempt' a' net' _ hphase' hd' hown'
      obtain ⟨rfl, -⟩ := Prod.mk.inj (Option.some.inj (hd.symm.trans hd'))
      obtain ⟨-, rfl, -⟩ := Phase.exchanging.inj (hphase.symm.trans hphase')
      exact absurd hown' hown

/-- A step that is faithful is undisturbed. -/
theorem undisturbed_of_faithful (hi : c.Inv s) (h : c.step s e = some s')
    (hf : c.Faithful ⟨s, e, s'⟩) : c.Undisturbed s e := by
  rintro stage request attempt a net rfl hphase hd
  obtain rfl := Option.some.inj ((step_deliver hphase hd).symm.trans h)
  exact (faithful_deliver_iff hi hphase hd).mp hf

/-- An undisturbed step of a calm call is faithful. -/
theorem faithful_of_undisturbed (hi : c.Inv s) (hcalm : Calm s) (h : c.step s e = some s')
    (hu : c.Undisturbed s e) : c.Faithful ⟨s, e, s'⟩ := by
  -- Only a step that takes a datagram has something to parse.
  have quiet (hne : e ≠ .deliver) (hs' : Calm s') : c.Faithful ⟨s, e, s'⟩ :=
    ⟨hs', fun _ _ _ _ he => absurd he hne⟩
  cases step_cases h with
  | started server hphase hresolve => exact quiet nofun calm_exchange
  | unresolved err hphase hresolve =>
    exact quiet nofun (calm_returned_iff.mpr (not_misread_resolve hresolve))
  | answered i reply net hanswer => exact quiet nofun hcalm
  | delivered stage request attempt a net hphase hd =>
    exact (faithful_deliver_iff hi hphase hd).mpr (hu stage request attempt a net rfl hphase hd)
  | resent stage request attempt hphase hlt => exact quiet nofun calm_exchange
  | timedOut stage request attempt hphase hlt =>
    exact quiet nofun (calm_returned_iff.mpr fun hm => nomatch hm)
  | failed source stage request attempt hphase =>
    exact quiet nofun (calm_returned_iff.mpr fun hm => nomatch hm)

/-- In a run without a disturbance every step is faithful, and the last state calm. -/
theorem faithful_run {run : List (Transition State NetEvent)} (h : c.system.History run s) :
    (∀ t ∈ run, c.Undisturbed t.pre t.event) → Calm s ∧ ∀ t ∈ run, c.Faithful t := by
  refine System.HistoryWhere.invariant
    (P := fun run s => (∀ t ∈ run, c.Undisturbed t.pre t.event) →
      Calm s ∧ ∀ t ∈ run, c.Faithful t) ?_ ?_ h
  · intro hu
    exact ⟨calm_init, fun t ht => absurd ht List.not_mem_nil⟩
  · intro run s e s' hrun ih _ hstep hu
    have hpast := fun t ht => hu t (List.mem_append_left _ ht)
    obtain ⟨hcalm, hfaithful⟩ := ih hpast
    have hlast := faithful_of_undisturbed (inv_reachable ⟨run, hrun.history⟩) hcalm hstep
      (hu _ (List.mem_append_right _ List.mem_cons_self))
    refine ⟨hlast.not_misread, fun t ht => ?_⟩
    rcases List.mem_append.mp ht with ht | ht
    · exact hfaithful t ht
    · rwa [List.mem_singleton.mp ht]

/-- A run of faithful steps ends in a calm state. -/
theorem calm_of_faithful {run : List (Transition State NetEvent)} (h : c.system.History run s)
    (hf : ∀ t ∈ run, c.Faithful t) : Calm s := by
  cases h with
  | nil => exact calm_init
  | snoc hrun _ hstep => exact (hf _ (List.mem_append_right _ List.mem_cons_self)).not_misread

end Call

/-- A run is faithful just when nothing disturbs it. -/
theorem announce_faithful_iff (c : Call) (run : List (Transition State NetEvent)) (s : State)
    (h : c.system.History run s) :
    (∀ t ∈ run, c.Faithful t) ↔ ∀ t ∈ run, c.Undisturbed t.pre t.event := by
  constructor
  · intro hf t ht
    obtain ⟨hreach, -, hstep⟩ := System.HistoryWhere.mem h ht
    exact Call.undisturbed_of_faithful (Call.inv_reachable hreach) hstep (hf t ht)
  · intro hu
    exact (Call.faithful_run h hu).2

/-- A call to a tracker at a fixed address. -/
def sampleCall : Call where
  host := some "tracker"
  port := some 80
  lookupHost := fun _ _ => .ok [.v4 0x0A000001 80]
  bind := fun _ => .ok ()
  connect := fun _ => .ok ()
  connectTxn := 1
  announceTxn := 2
  key := 3
  params :=
    { infoHash := Vector.replicate 20 7, peerId := Vector.replicate 20 9, port := 6881,
      uploaded := 100, downloaded := 200, left := 300, event := .started, compact := true,
      numwant := some 80 }

/-- The tracker's reply to its connect request, and to its announce request. -/
def sampleConnectReply : List UInt8 := toBE 4 actionConnect.toNat ++ toBE 4 1 ++ toBE 8 7
def sampleAnnounceReply : List UInt8 :=
  toBE 4 actionAnnounce.toNat ++ toBE 4 2 ++ toBE 4 1800 ++ toBE 4 3 ++ toBE 4 5 ++
    [1, 2, 3, 4, 0x1a, 0xe1]

/-- Each request is answered in its first attempt. -/
def promptEvents : List NetEvent :=
  [.start, .receive 0 sampleConnectReply, .deliver, .receive 0 sampleAnnounceReply, .deliver]

/-- The connect request is answered after its first attempt, so it has been sent twice. -/
def lateEvents : List NetEvent :=
  [.start, .elapse, .receive 0 sampleConnectReply, .receive 0 sampleConnectReply, .deliver,
    .receive 0 sampleAnnounceReply, .deliver]

/-- Two prompt replies: the run is faithful, and undisturbed. -/
theorem announce_faithful_iff_prompt :
    ∃ s, sampleCall.system.exec sampleCall.system.init promptEvents = some s ∧
      s.phase = .returned (parseAnnounceResponse sampleAnnounceReply 2) ∧
      ((∀ t ∈ sampleCall.system.recorded sampleCall.system.init promptEvents,
          sampleCall.Faithful t) ↔
        ∀ t ∈ sampleCall.system.recorded sampleCall.system.init promptEvents,
          sampleCall.Undisturbed t.pre t.event) :=
  ⟨_, rfl, rfl, announce_faithful_iff sampleCall _ _ (System.History.ofExec promptEvents rfl)⟩

/-- The second connect reply arrives first in the announce step and is parsed as
the announce reply, which the tracker has already sent. -/
theorem announce_reads_late_connect_reply :
    ∃ run s, sampleCall.system.History run s ∧
      s.phase = .returned (.error (.udpProtocol "announce transaction id mismatch")) ∧
      ¬ ∀ t ∈ run, sampleCall.Faithful t := by
  have hexec : ∃ s, sampleCall.system.exec sampleCall.system.init lateEvents = some s ∧
      s.phase = .returned (.error (.udpProtocol "announce transaction id mismatch")) :=
    ⟨_, rfl, rfl⟩
  obtain ⟨s, hs, hphase⟩ := hexec
  have hrun := System.History.ofExec lateEvents hs
  refine ⟨_, s, hrun, hphase, fun hf => ?_⟩
  exact Call.calm_of_faithful hrun hf _ hphase .announceTxn

end Torrentina.Tracker.Udp
