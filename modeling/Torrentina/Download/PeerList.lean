import Torrentina.Core.Life
import Torrentina.Download.PieceSet
import Torrentina.Download.WireBytes

/-!
# The peer list of a snapshot

The registry of peers is kept up to date by the sessions, one entry for each
connected one, keyed by address. When no two sessions were given the same address
it says of every connected session exactly what that session knows: whether it is
choked, how many pieces its peer has, and how many bytes it received.
-/

namespace Torrentina.Download

open Torrentina.Core Peer

/-! ## The registry as a map -/

namespace SwarmStats

variable (stats : SwarmStats) (addr : SocketAddr) {a : SocketAddr} {e : PeerEntry}

/-- No address has two entries. -/
def Keyed : Prop := (stats.peers.map Prod.fst).Nodup

/-- A peer that disconnects is taken off the list. -/
theorem mem_peerDisconnected :
    (a, e) ∈ (stats.peerDisconnected addr).peers ↔ a ≠ addr ∧ (a, e) ∈ stats.peers := by
  simp [peerDisconnected, and_comm]

/-- A peer that connects is listed with a fresh entry. -/
theorem mem_peerConnected : (a, e) ∈ (stats.peerConnected addr).peers ↔
    a = addr ∧ e = .default ∨ a ≠ addr ∧ (a, e) ∈ stats.peers := by
  rw [peerConnected, List.mem_cons, mem_peerDisconnected, Prod.mk.injEq]

/-- An update changes the entry of its peer, if there is one. -/
theorem mem_updateEntry (f : PeerEntry → PeerEntry) : (a, e) ∈ (stats.updateEntry addr f).peers ↔
    a ≠ addr ∧ (a, e) ∈ stats.peers ∨ a = addr ∧ ∃ old, (addr, old) ∈ stats.peers ∧ e = f old := by
  simp only [updateEntry, List.mem_map, Prod.exists]
  constructor
  · rintro ⟨b, old, hmem, heq⟩
    by_cases hb : b = addr
    · rw [if_pos hb, Prod.mk.injEq] at heq
      obtain ⟨rfl, rfl⟩ := heq
      exact .inr ⟨hb, old, hb ▸ hmem, rfl⟩
    · rw [if_neg hb, Prod.mk.injEq] at heq
      obtain ⟨rfl, rfl⟩ := heq
      exact .inl ⟨hb, hmem⟩
  · rintro (⟨ha, hmem⟩ | ⟨rfl, old, hmem, rfl⟩)
    · exact ⟨a, e, hmem, if_neg ha⟩
    · exact ⟨a, old, hmem, if_pos rfl⟩

variable {stats}

/-- Disconnecting keeps one entry for each address. -/
theorem Keyed.peerDisconnected (h : stats.Keyed) : (stats.peerDisconnected addr).Keyed :=
  (List.filter_sublist.map Prod.fst).nodup h

/-- Connecting keeps one entry for each address. -/
theorem Keyed.peerConnected (h : stats.Keyed) : (stats.peerConnected addr).Keyed := by
  refine List.nodup_cons.mpr ⟨fun hmem => ?_, h.peerDisconnected addr⟩
  obtain ⟨⟨a, e⟩, hmem, ha⟩ := List.mem_map.mp hmem
  exact ((stats.mem_peerDisconnected addr).mp hmem).1 ha

/-- An update keeps one entry for each address. -/
theorem Keyed.updateEntry (h : stats.Keyed) (f : PeerEntry → PeerEntry) :
    (stats.updateEntry addr f).Keyed := by
  have hkeys : (stats.updateEntry addr f).peers.map Prod.fst = stats.peers.map Prod.fst := by
    rw [SwarmStats.updateEntry, List.map_map]
    refine List.map_congr_left fun e _ => ?_
    simp only [Function.comp_apply]
    split <;> rfl
  rw [Keyed, hkeys]
  exact h

end SwarmStats

/-! ## What a session reports -/

/-- A session that is in the registry; a task that panicked stays there. -/
def Session.registered (p : Session) : Bool :=
  match p.phase with
  | .connecting | .finished _ => false
  | _ => true

/-- The entry a session has, when it has received so many bytes. -/
def Session.entry (p : Session) (bytes : Nat) : PeerEntry :=
  ⟨p.choked, p.peerHas.count % 2 ^ 32, bytes % 2 ^ 64⟩

/-- What a step of a session does to the registry. -/
inductive Reported (c c' : Shared) (p p' : Session) (bytes : Nat) : Prop
  | kept (hs : c'.stats = c.stats) (hr : p'.registered = p.registered)
      (he : ∀ b, p'.entry (b + bytes) = p.entry b)
  | joined (hp : p.phase = .connecting) (hs : c'.stats = c.stats.peerConnected p.addr)
      (hr : p'.registered = true) (he : ∀ b, p'.entry (b + bytes) = p.entry b)
  | left (hs : c'.stats = c.stats.peerDisconnected p.addr) (hr : p'.registered = false)
  | updated (f : PeerEntry → PeerEntry) (hr : p.registered = true) (hr' : p'.registered = true)
      (hs : c'.stats.peers = (c.stats.updateEntry p.addr f).peers)
      (he : ∀ b, p'.entry (b + bytes) = f (p.entry b))

section Step

variable {sha1 : List UInt8 → List UInt8} {c c' : Shared} {p p' : Session} {e : SessionEvent}

/-- A session keeps its address. -/
theorem Session.Step.addr_eq (h : Step sha1 c p e c' p') : p'.addr = p.addr := by
  cases h with
  | paused | choke =>
    show p.dropCurrent.addr = p.addr
    unfold dropCurrent
    cases p.current <;> rfl
  | _ => rfl

/-- No step leads back to before the connection. -/
theorem Session.Step.phase_ne_connecting (h : Step sha1 c p e c' p') :
    p'.phase ≠ .connecting := by
  cases h with
  | requested block hp =>
    show p.phase ≠ .connecting
    rw [hp]
    nofun
  | emitted piece complete => cases complete <;> nofun
  | pieceAlreadyHad => cases c.tracker.isComplete <;> simp
  | _ => nofun

@[simp] theorem Shared.stats_release (c : Shared) (current : Option PieceAssembler) :
    (c.release current).stats = c.stats := by
  cases current <;> rfl

/-- A session that only moves on leaves its entry as it is. -/
theorem Reported.moved (hs : c'.stats = c.stats) (hr : p'.registered = p.registered)
    (hc : p'.choked = p.choked) (hh : p'.peerHas = p.peerHas) : Reported c c' p p' 0 :=
  .kept hs hr fun b => by rw [Session.entry, hc, hh, Session.entry, Nat.add_zero]

/-- A block adds its bytes to the entry. -/
theorem Reported.block {bytes : Nat} (hr : p.registered = true) (hr' : p'.registered = true)
    (hs : c'.stats = c.stats.recordBlock p.addr bytes) (hc : p'.choked = p.choked)
    (hh : p'.peerHas = p.peerHas) : Reported c c' p p' bytes := by
  refine .updated (fun e => { e with downloaded := (e.downloaded + bytes) % 2 ^ 64 }) hr hr' ?_ ?_
  · rw [hs]
    rfl
  · intro b
    rw [Session.entry, Session.entry, hc, hh, Nat.mod_add_mod]

/-- Every payload byte is counted, modulo the width of the counter. -/
theorem Session.Step.totalDownloaded_mod (h : Step sha1 c p e c' p')
    (hlt : c.stats.totalDownloaded < 2 ^ 64) :
    c'.stats.totalDownloaded = (c.stats.totalDownloaded + receivedBytes e) % 2 ^ 64 := by
  have hkeep : c.stats.totalDownloaded = (c.stats.totalDownloaded + 0) % 2 ^ 64 :=
    (Nat.mod_eq_of_lt hlt).symm
  cases h with
  | blockIgnored | blockRejected | blockPanicked | blockAdded | pieceAlreadyHad | pieceVerified
  | pieceBadHash => rfl
  | cancelled | paused | timeout | peerClosed =>
    rw [Shared.stats_release]
    exact hkeep
  | messageIgnored message hp hm =>
    cases message with
    | piece block => cases hm
    | _ => exact hkeep
  | _ => exact hkeep

/-- A step does one of these things to the registry. -/
theorem Session.Step.reported (h : Step sha1 c p e c' p') :
    Reported c c' p p' (receivedBytes e) := by
  have hsel : p.phase = .selecting → p.registered = true := fun hp => by rw [registered, hp]
  cases h with
  | connected hp => exact .joined hp rfl rfl fun b => rfl
  | connectFailed err hp => exact .moved rfl (by simp [registered, hp]) rfl rfl
  | interestedFailed err hp => exact .left rfl rfl
  | cleanedUp result hp => exact .left rfl rfl
  | choke hp =>
    refine .updated (fun e => { e with choked := true }) (hsel hp) rfl rfl fun b => ?_
    simp [entry, receivedBytes]
  | unchoke hp =>
    exact .updated (fun e => { e with choked := false }) (hsel hp) rfl rfl fun b => rfl
  | haveNew index hp hn =>
    exact .updated (fun e => { e with havePieces := (p.peerHas.set index.toNat).count % 2 ^ 32 })
      (hsel hp) rfl rfl fun b => rfl
  | haveKnown index hp hn =>
    exact .updated (fun e => { e with havePieces := p.peerHas.count % 2 ^ 32 })
      (hsel hp) rfl rfl fun b => rfl
  | bitfield bits newHas hp hb =>
    exact .updated (fun e => { e with havePieces := newHas.count % 2 ^ 32 })
      (hsel hp) rfl rfl fun b => rfl
  | blockIgnored block hp => exact .block (hsel hp) rfl rfl rfl rfl
  | blockRejected block asm err hp => exact .block (hsel hp) rfl rfl rfl rfl
  | blockPanicked block asm hp => exact .block (hsel hp) rfl rfl rfl rfl
  | blockAdded block asm asm' hp => exact .block (hsel hp) rfl rfl rfl rfl
  | pieceVerified block asm asm' hp => exact .block (hsel hp) rfl rfl rfl rfl
  | pieceBadHash block asm asm' hp => exact .block (hsel hp) rfl rfl rfl rfl
  | pieceAlreadyHad block asm asm' hp =>
    refine .block (hsel hp) ?_ rfl rfl rfl
    cases c.tracker.isComplete <;> simp [registered]
  | messageIgnored message hp hm =>
    have hzero : receivedBytes (.recv (.ok (some message))) = 0 := by
      cases message with
      | piece block => cases hm
      | _ => rfl
    rw [hzero]
    exact .moved rfl (by rw [hsel hp]; rfl) rfl rfl
  | emitted piece complete hp =>
    refine .moved rfl ?_ rfl rfl
    cases complete <;> simp [registered, hp]
  | busy hp => exact .moved rfl (by simp [registered, hp]) rfl rfl
  | _ =>
    exact .moved (by simp) (by simp_all [registered, assign]) (by simp [assign])
      (by simp [assign])

end Step

/-! ## The registry along a run -/

/-- The payload bytes session `k` received. -/
def bytesFrom (k : Nat) (run : Run) : Nat :=
  ((PoolProgram.life k run).map fun t => receivedBytes t.event).sum

/-- A registered session, other than `k`, with its address and entry. -/
def ListedBut (k : Nat) (run : Run) (procs : List Session) (addr : SocketAddr) (e : PeerEntry) :
    Prop :=
  ∃ (j : Nat) (q : Session), j ≠ k ∧ procs[j]? = some q ∧ q.registered = true ∧ q.addr = addr ∧
    e = q.entry (bytesFrom j run)

/-- A registered session with its address and entry. -/
def Listed (run : Run) (procs : List Session) (addr : SocketAddr) (e : PeerEntry) : Prop :=
  ∃ (k : Nat) (p : Session), procs[k]? = some p ∧ p.registered = true ∧ p.addr = addr ∧
    e = p.entry (bytesFrom k run)

/-- The registry lists the registered sessions, and those about to connect have nothing to
report yet. -/
structure Registered (run : Run) (s : Swarm) : Prop where
  keyed : s.shared.stats.Keyed
  mem_iff : ∀ addr e, (addr, e) ∈ s.shared.stats.peers ↔ Listed run s.procs addr e
  fresh : ∀ (k : Nat) (p : Session), s.procs[k]? = some p → p.phase = .connecting →
    p.entry (bytesFrom k run) = .default

section Run

variable {sha1 : List UInt8 → List UInt8} {c : Coordinator} {run : Run} {s s' : Swarm}

/-- A step of a session adds what it received to its own count. -/
theorem bytesFrom_proc (run : Run) (e : SessionEvent) (c' : Shared) (p' : Session) {k : Nat}
    {p : Session} (hk : s.procs[k]? = some p) (j : Nat) :
    bytesFrom j (run ++ [⟨s, .proc k e, ⟨c', s.procs.set k p'⟩⟩]) =
      bytesFrom j run + if j = k then receivedBytes e else 0 := by
  unfold bytesFrom
  by_cases hj : j = k
  · subst hj
    rw [PoolProgram.life_snoc, PoolProgram.ownStep_proc hk, if_pos rfl]
    simp
  · rw [PoolProgram.life_snoc_other fun ev he => hj (PoolEvent.proc.inj he).1.symm, if_neg hj,
      Nat.add_zero]

/-- Other steps add to no session's count. -/
theorem bytesFrom_other (run : Run) {t : Transition Swarm SwarmEvent}
    (h : ∀ k e, t.event ≠ .proc k e) (k : Nat) : bytesFrom k (run ++ [t]) = bytesFrom k run := by
  rw [bytesFrom, PoolProgram.life_snoc_other (h k), bytesFrom]

/-- Sessions at different places have different addresses. -/
theorem ListedBut.addr_ne (hdistinct : (s.procs.map Session.addr).Nodup) {k : Nat} {p : Session}
    (hk : s.procs[k]? = some p) {addr : SocketAddr} {e : PeerEntry}
    (h : ListedBut k run s.procs addr e) : addr ≠ p.addr := by
  obtain ⟨j, q, hj, hq, -, rfl, -⟩ := h
  intro heq
  have hp : (s.procs.map Session.addr)[k]? = some p.addr := by
    rw [List.getElem?_map, hk, Option.map_some]
  have hq : (s.procs.map Session.addr)[j]? = some p.addr := by
    rw [List.getElem?_map, hq, Option.map_some, heq]
  obtain ⟨hlt, -⟩ := List.getElem?_eq_some_iff.mp hq
  exact hj ((List.getElem?_inj hlt hdistinct).mp (hq.trans hp.symm))

/-- One session and the others. -/
theorem listed_iff {procs : List Session} {k : Nat} {p : Session} (hk : procs[k]? = some p)
    {addr : SocketAddr} {e : PeerEntry} : Listed run procs addr e ↔
      p.registered = true ∧ addr = p.addr ∧ e = p.entry (bytesFrom k run) ∨
        ListedBut k run procs addr e := by
  constructor
  · rintro ⟨j, q, hq, hr, ha, he⟩
    by_cases hj : j = k
    · subst hj
      obtain rfl := Option.some.inj (hk.symm.trans hq)
      exact .inl ⟨hr, ha.symm, he⟩
    · exact .inr ⟨j, q, hj, hq, hr, ha, he⟩
  · rintro (⟨hr, ha, he⟩ | ⟨j, q, -, hq, hr, ha, he⟩)
    · exact ⟨k, p, hk, hr, ha.symm, he⟩
    · exact ⟨j, q, hq, hr, ha, he⟩

/-- A section of one session keeps what the others report. -/
theorem listedBut_set {procs : List Session} {k : Nat} {p p' : Session} (hk : procs[k]? = some p)
    {run' : Run} (hother : ∀ j, j ≠ k → bytesFrom j run' = bytesFrom j run) {addr : SocketAddr}
    {e : PeerEntry} : ListedBut k run' (procs.set k p') addr e ↔ ListedBut k run procs addr e := by
  unfold ListedBut
  refine exists_congr fun j => exists_congr fun q => and_congr_right fun hj => ?_
  rw [PoolProgram.getElem?_set_proc hk, if_neg hj, hother j hj]

/-- A section of one session keeps the registry. -/
theorem Registered.proc (hi : Registered run s) (hdistinct : (s.procs.map Session.addr).Nodup)
    {k : Nat} {e : SessionEvent} {p p' : Session} {c' : Shared} (hk : s.procs[k]? = some p)
    (h : Session.Step sha1 s.shared p e c' p') :
    Registered (run ++ [⟨s, .proc k e, ⟨c', s.procs.set k p'⟩⟩]) ⟨c', s.procs.set k p'⟩ := by
  obtain ⟨hkeyed, hmem, hfresh⟩ := hi
  have hk' : (s.procs.set k p')[k]? = some p' := by
    rw [PoolProgram.getElem?_set_proc hk, if_pos rfl]
  have hown := bytesFrom_proc run e c' p' hk k
  rw [if_pos rfl] at hown
  have hother : ∀ j, j ≠ k →
      bytesFrom j (run ++ [⟨s, .proc k e, ⟨c', s.procs.set k p'⟩⟩]) = bytesFrom j run := by
    intro j hj
    rw [bytesFrom_proc run e c' p' hk j, if_neg hj, Nat.add_zero]
  have hbefore := fun addr e => (hmem addr e).trans (listed_iff hk)
  have hne := fun addr e (h : ListedBut k run s.procs addr e) => h.addr_ne hdistinct hk
  refine ⟨?_, fun addr entry => ?_, fun j q hq hph => ?_⟩
  · cases h.reported with
    | kept hs => exact hs ▸ hkeyed
    | joined hp hs => exact hs ▸ hkeyed.peerConnected _
    | left hs => exact hs ▸ hkeyed.peerDisconnected _
    | updated f hr hr' hs =>
      have hk := hkeyed.updateEntry p.addr f
      rw [SwarmStats.Keyed] at hk ⊢
      exact hs ▸ hk
  · rw [listed_iff hk', listedBut_set hk hother, hown, h.addr_eq]
    cases h.reported with
    | kept hs hr he => rw [hs, hr, he, hbefore]
    | joined hp hs hr he =>
      have hnot : p.registered = false := by rw [Session.registered, hp]
      rw [hs, SwarmStats.mem_peerConnected, hbefore, hr, he, hfresh k p hk hp, hnot]
      have hne := hne addr entry
      simp only [Bool.false_eq_true, false_and, false_or, true_and]
      tauto
    | left hs hr =>
      rw [hs, SwarmStats.mem_peerDisconnected, hbefore, hr]
      have hne := hne addr entry
      simp only [Bool.false_eq_true, false_and, false_or]
      tauto
    | updated f hr hr' hs he =>
      have hat : ∀ old, (p.addr, old) ∈ s.shared.stats.peers ↔ old = p.entry (bytesFrom k run) := by
        intro old
        rw [hbefore, hr]
        have hne := hne p.addr old
        tauto
      have hne := hne addr entry
      simp only [hs, SwarmStats.mem_updateEntry, hbefore addr, hr', he, hat, exists_eq_left,
        true_and]
      tauto
  · by_cases hj : j = k
    · subst hj
      obtain rfl := Option.some.inj (hk'.symm.trans hq)
      exact absurd hph h.phase_ne_connecting
    · simp only at hq
      rw [PoolProgram.getElem?_set_proc hk, if_neg hj] at hq
      rw [hother j hj]
      exact hfresh j q hq hph

/-- A fresh session has nothing to report. -/
theorem Registered.spawn (hi : Registered run s) {addr : SocketAddr} {c' : Shared} {p : Session}
    (h : (swarm sha1).spawn s.shared addr = some (c', p))
    (hnew : bytesFrom s.procs.length run = 0) :
    Registered (run ++ [⟨s, .spawn addr, ⟨c', s.procs ++ [p]⟩⟩]) ⟨c', s.procs ++ [p]⟩ := by
  obtain ⟨hkeyed, hmem, hfresh⟩ := hi
  have hbytes : ∀ k, bytesFrom k (run ++ [⟨s, .spawn addr, ⟨c', s.procs ++ [p]⟩⟩]) =
      bytesFrom k run := bytesFrom_other run nofun
  have hlast : (s.procs ++ [p])[s.procs.length]? = some p := List.getElem?_concat_length
  have hold : ∀ {j : Nat}, j ≠ s.procs.length → (s.procs ++ [p])[j]? = s.procs[j]? := by
    intro j hj
    by_cases hlt : j < s.procs.length
    · exact List.getElem?_append_left hlt
    · rw [List.getElem?_eq_none (by simp; omega), List.getElem?_eq_none (by omega)]
  obtain ⟨rfl, hp⟩ := swarm_spawn h
  refine ⟨hkeyed, fun addr' e => ?_, fun j q hq hph => ?_⟩
  · rw [listed_iff hlast, hp]
    refine (hmem addr' e).trans ⟨fun hl => .inr ?_, ?_⟩
    · obtain ⟨j, q, hq, hl⟩ := hl
      obtain ⟨hlt, -⟩ := List.getElem?_eq_some_iff.mp hq
      refine ⟨j, q, Nat.ne_of_lt hlt, hp ▸ (hold (Nat.ne_of_lt hlt)).trans hq, ?_⟩
      rw [← hp, hbytes]
      exact hl
    · rintro (⟨hr, -⟩ | ⟨j, q, hj, hq, hl⟩)
      · cases hr
      · rw [← hp, hbytes] at hl
        rw [← hp] at hq
        exact ⟨j, q, (hold hj).symm.trans hq, hl⟩
  · rw [hbytes]
    by_cases hj : j = s.procs.length
    · rw [hj] at hq ⊢
      obtain rfl := Option.some.inj (hlast.symm.trans hq)
      rw [hnew, hp]
      rfl
    · exact hfresh j q ((hold hj).symm.trans hq) hph

/-- A fresh coordinator has no statistics yet. -/
theorem Coordinator.new_stats {info : Info} {infoHash peerId : List UInt8}
    (h : Coordinator.new info infoHash peerId = .ok c) : c.stats = SwarmStats.new := by
  obtain ⟨g, -, h⟩ := bind_eq_ok_iff.mp h
  obtain ⟨t, -, h⟩ := bind_eq_ok_iff.mp h
  obtain rfl := Except.ok.inj h
  rfl

/-- The registry is kept by every step. -/
theorem Coordinator.registered {info : Info} {infoHash peerId : List UInt8}
    (h : Coordinator.new info infoHash peerId = .ok c) (hr : (c.system sha1).History run s)
    (hdistinct : (s.procs.map Session.addr).Nodup) : Registered run s := by
  revert hdistinct
  refine hr.invariant (P := fun run s => (s.procs.map Session.addr).Nodup → Registered run s) ?_ ?_
  · intro _
    have hnone : c.start.stats.peers = [] := by
      show c.stats.peers = []
      rw [Coordinator.new_stats h]
      rfl
    refine ⟨?_, fun addr e => ?_, nofun⟩
    · show (c.start.stats.peers.map Prod.fst).Nodup
      rw [hnone]
      exact List.nodup_nil
    · show (addr, e) ∈ c.start.stats.peers ↔ _
      rw [hnone]
      simp [Listed, Coordinator.system, PoolProgram.system]
  · intro run s e s' hrun ih _ hstep hdistinct
    cases e with
    | spawn addr =>
      obtain ⟨c', p, hs, rfl⟩ := PoolProgram.poolStep_spawn hstep
      rw [List.map_append] at hdistinct
      refine (ih (List.nodup_append.mp hdistinct).1).spawn hs ?_
      rw [bytesFrom, PoolProgram.life_eq_nil hrun (Nat.le_refl _)]
      rfl
    | proc k ev =>
      obtain ⟨p, c', p', hk, hs, rfl⟩ := PoolProgram.poolStep_proc hstep
      have hst := Session.step_cases hs
      have hsame : (s.procs.set k p').map Session.addr = s.procs.map Session.addr := by
        refine List.ext_getElem? fun j => ?_
        rw [List.getElem?_map, List.getElem?_map, PoolProgram.getElem?_set_proc hk]
        by_cases hj : j = k
        · rw [if_pos hj, hj, hk, Option.map_some, Option.map_some, hst.addr_eq]
        · rw [if_neg hj]
      simp only [hsame] at hdistinct
      exact (ih hdistinct).proc hdistinct hk hst
    | env ev =>
      obtain ⟨c', hs, rfl⟩ := PoolProgram.poolStep_env hstep
      obtain ⟨control, completed, rfl, -⟩ := swarm_env hs
      obtain ⟨hkeyed, hmem, hfresh⟩ := ih hdistinct
      have hbytes := bytesFrom_other run
        (t := ⟨s, .env ev, ⟨{ s.shared with control, completed }, s.procs⟩⟩) nofun
      refine ⟨hkeyed, fun addr e => ?_, fun k p hk hph => ?_⟩
      · rw [Listed]
        simp only [hbytes]
        exact hmem addr e
      · rw [hbytes]
        exact hfresh k p hk hph

/-! ## What the snapshot shows -/

/-- The payload bytes a run received. -/
def bytesReceived (run : Run) : Nat :=
  (run.map fun t => match t.event with | .proc _ e => receivedBytes e | _ => 0).sum

/-- One more step adds what it received. -/
theorem bytesReceived_snoc (run : Run) (t : Transition Swarm SwarmEvent) :
    bytesReceived (run ++ [t]) = bytesReceived run +
      match t.event with | .proc _ e => receivedBytes e | _ => 0 := by
  rw [bytesReceived, List.map_append, List.sum_append, List.map_singleton, List.sum_singleton]
  rfl

/-- What the registered sessions of a run have to report. -/
def reports (run : Run) (s : Swarm) : List PeerStat :=
  (s.procs.zipIdx.filter fun x => x.1.registered).map fun x =>
    ⟨x.1.addr, x.1.choked, x.1.peerHas.count, bytesFrom x.2 run % 2 ^ 64⟩

/-- The counter of wire bytes adds up what arrived. -/
theorem totalDownloaded_eq {info : Info} {infoHash peerId : List UInt8}
    (h : Coordinator.new info infoHash peerId = .ok c) (hr : (c.system sha1).History run s) :
    s.shared.stats.totalDownloaded = bytesReceived run % 2 ^ 64 := by
  refine hr.invariant (P := fun run s => s.shared.stats.totalDownloaded =
    bytesReceived run % 2 ^ 64) ?_ ?_
  · show c.stats.totalDownloaded = _
    rw [Coordinator.new_stats h]
    rfl
  · intro run s e s' _ ih _ hstep
    rw [bytesReceived_snoc]
    cases e with
    | spawn addr =>
      obtain ⟨c', p, hs, rfl⟩ := PoolProgram.poolStep_spawn hstep
      obtain ⟨rfl, -⟩ := swarm_spawn hs
      exact ih
    | proc k ev =>
      obtain ⟨p, c', p', -, hs, rfl⟩ := PoolProgram.poolStep_proc hstep
      have hlt : s.shared.stats.totalDownloaded < 2 ^ 64 := ih ▸ Nat.mod_lt _ (by decide)
      show c'.stats.totalDownloaded = _
      rw [(Session.step_cases hs).totalDownloaded_mod hlt, ih, Nat.mod_add_mod]
    | env ev =>
      obtain ⟨c', hs, rfl⟩ := PoolProgram.poolStep_env hstep
      obtain ⟨control, completed, rfl, -⟩ := swarm_env hs
      exact ih

/-- The registry holds the reports, in some order. -/
theorem Registered.perm (hi : Registered run s) (hdistinct : (s.procs.map Session.addr).Nodup) :
    s.shared.stats.peers.Perm ((s.procs.zipIdx.filter fun x => x.1.registered).map fun x =>
      (x.1.addr, x.1.entry (bytesFrom x.2 run))) := by
  refine (List.perm_ext_iff_of_nodup (List.Nodup.of_map Prod.fst hi.keyed) ?_).mpr ?_
  · refine List.Nodup.of_map Prod.fst ?_
    rw [List.map_map]
    have hsub : ((s.procs.zipIdx.filter fun x => x.1.registered).map fun x => x.1.addr).Sublist
        (s.procs.map Session.addr) := by
      have hmap : s.procs.zipIdx.map (fun x => x.1.addr) = s.procs.map Session.addr := by
        conv_rhs => rw [← List.zipIdx_map_fst 0 s.procs, List.map_map]
        rfl
      rw [← hmap]
      exact List.filter_sublist.map _
    exact hsub.nodup hdistinct
  · rintro ⟨addr, e⟩
    rw [hi.mem_iff]
    constructor
    · rintro ⟨k, p, hk, hr, rfl, rfl⟩
      refine List.mem_map.mpr ⟨(p, k), List.mem_filter.mpr ⟨?_, hr⟩, rfl⟩
      exact List.mem_zipIdx_iff_getElem?.mpr hk
    · intro hreport
      obtain ⟨⟨p, k⟩, hmem, heq⟩ := List.mem_map.mp hreport
      obtain ⟨hmem, hr⟩ := List.mem_filter.mp hmem
      obtain ⟨rfl, rfl⟩ := Prod.mk.inj heq
      exact ⟨k, p, List.mem_zipIdx_iff_getElem?.mp hmem, hr, rfl, rfl⟩

/-- When no two sessions share an address, a snapshot lists exactly the sessions that are
connected, the most downloaded first, each with its choke state, the number of pieces its
peer advertised and the bytes it received; and its wire bytes are all bytes received. -/
theorem snapshot_lists_peers {info : Info} {infoHash peerId : List UInt8}
    (h : Coordinator.new info infoHash peerId = .ok c) (hr : (c.system sha1).History run s)
    (hdistinct : (s.procs.map Session.addr).Nodup) :
    s.shared.snapshot.peers.Perm (reports run s) ∧
      s.shared.snapshot.peers.Pairwise (fun a b => b.downloadedBytes ≤ a.downloadedBytes) ∧
      s.shared.snapshot.connectedPeers = s.procs.countP Session.registered ∧
      s.shared.snapshot.wireBytes = bytesReceived run % 2 ^ 64 := by
  have hperm := (Coordinator.registered h hr hdistinct).perm hdistinct
  have hcounts : ∀ p ∈ s.procs, p.peerHas.count < 2 ^ 32 := by
    intro p hp
    obtain ⟨hc, hall⟩ := Coordinator.sound h ⟨run, hr⟩
    have hle : p.peerHas.count ≤ p.peerHas.numPieces := by
      rw [← Bitfield.card_pieces]
      exact (Finset.card_filter_le _ _).trans (Finset.card_range _).le
    rw [(hall p hp).peerHas] at hle
    exact Nat.lt_of_le_of_lt hle hc.wellFormed.numPieces_lt
  refine ⟨?_, ?_, ?_, totalDownloaded_eq h hr⟩
  · refine (List.mergeSort_perm _ _).trans ?_
    refine (hperm.map _).trans ?_
    rw [List.map_map, reports]
    refine .of_eq (List.map_congr_left fun x hx => ?_)
    obtain ⟨hmem, -⟩ := List.mem_filter.mp hx
    have hcount := hcounts x.1 (List.mem_of_getElem? (List.mem_zipIdx_iff_getElem?.mp hmem))
    simp only [Function.comp_apply, Session.entry, Nat.mod_eq_of_lt hcount]
  · have hsorted := @List.pairwise_mergeSort PeerStat
      (fun p q => decide (q.downloadedBytes ≤ p.downloadedBytes)) (by simp; omega) (by simp; omega)
      (s.shared.stats.peers.map fun e => ⟨e.1, e.2.choked, e.2.havePieces, e.2.downloaded⟩)
    exact hsorted.imp of_decide_eq_true
  · show s.shared.stats.peers.length = _
    rw [hperm.length_eq, List.length_map, ← List.countP_eq_length_filter]
    conv_rhs => rw [← List.zipIdx_map_fst 0 s.procs, List.countP_map]
    rfl

end Run

/-- One session receives an unsolicited byte; another one connects from another port. -/
def twoPeers : Trace :=
  Trace.join 0 ++ Trace.deliver 0 (.piece ⟨0, 0, [0x61]⟩) ++
    [.spawn (.v4 0 1), .proc 1 (.connect (.ok ()))]

/-- Two connected peers, one of which has sent a byte, are both listed. -/
theorem snapshot_lists_peers_tiny : ∃ run s, (tiny.system sha1OfA).History run s ∧
    reports run s = [⟨.v4 0 0, true, 0, 1⟩, ⟨.v4 0 1, true, 0, 0⟩] ∧
      s.shared.snapshot.peers.Perm (reports run s) := by
  have hr : (tiny.system sha1OfA).History _ _ := System.History.ofExec twoPeers rfl
  exact ⟨_, _, hr, rfl, (snapshot_lists_peers tiny_new hr (by decide)).1⟩

end Torrentina.Download
