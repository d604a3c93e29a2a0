import Torrentina.Download.Coordinator
import Mathlib.Data.List.Nodup

/-!
# Exactly-once delivery of verified pieces

`handle_block` marks a piece under the lock and puts it on the channel after
releasing it, so between the two a piece is had and not yet delivered. The
balance below counts both places: every had piece is in exactly one of them
while the consumer listens. The history of a run then shows which session
marked what it sends, and that one delivery completes the torrent.
-/

namespace Torrentina.Download

open Torrentina.Core Peer

/-- The session is between `mark_have(i)` and the end of its `completed.send`. -/
def Session.isSending (i : Nat) (p : Session) : Bool :=
  match p.phase with
  | .sending piece _ => piece.index == i
  | _ => false

/-- How often piece `i` was put on the channel. -/
def Shared.emitted (c : Shared) (i : Nat) : Nat :=
  c.completed.sent.countP fun piece => piece.index == i

/-- A session that sends a piece sends that piece. -/
theorem isSending_of_phase {p : Session} {piece : VerifiedPiece} {complete : Bool}
    (h : p.phase = .sending piece complete) (i : Nat) :
    p.isSending i = (piece.index == i) := by
  rw [Session.isSending, h]

/-- A session that has sent its piece sends none. -/
theorem isSending_ite {p : Session} {b : Bool}
    (h : p.phase = if b = true then .signalling else .top) (i : Nat) : p.isSending i = false := by
  rw [Session.isSending, h]
  cases b <;> rfl

section Step

variable {sha1 : List UInt8 → List UInt8} {c c' : Shared} {p p' : Session} {e : SessionEvent}

/-- One step moves a piece from nowhere to sending, or from sending to the
channel, or loses it when nobody listens. -/
theorem Session.Step.balance (hc : c.Sound sha1) (hp : p.Sound sha1 c)
    (h : Step sha1 c p e c' p') (i : Nat) :
    c'.emitted i + (p'.isSending i).toNat + (c.tracker.has i).toNat ≤
        c.emitted i + (p.isSending i).toNat + (c'.tracker.has i).toNat ∧
      (c.completed.receiverAlive = true →
        c'.emitted i + (p'.isSending i).toNat + (c.tracker.has i).toNat =
          c.emitted i + (p.isSending i).toNat + (c'.tracker.has i).toNat) := by
  cases h with
  | pieceVerified block asm asm' hph hcur hi ha hd hh hv =>
    have hlt := Nat.lt_of_lt_of_le (hp.current asm hcur).1 hc.numPieces_le
    have hold : p.isSending i = false := by rw [Session.isSending, hph]
    simp only [Shared.emitted, hold, PieceTracker.has_markHave, hlt, and_true]
    by_cases he : i = asm.index
    · subst he
      simp [Session.isSending, hh]
    · have hne : ¬asm.index = i := fun h => he h.symm
      simp [Session.isSending, he, hne]
  | emitted piece complete hph =>
    rw [isSending_of_phase hph, isSending_ite rfl]
    simp only [Shared.emitted, Queue.sent_send]
    cases hal : c.completed.receiverAlive with
    | true =>
      simp only [if_true, List.countP_append, List.countP_singleton]
      cases piece.index == i <;> simp
    | false => simp
  | pieceAlreadyHad block asm asm' hph =>
    have hold : p.isSending i = false := by rw [Session.isSending, hph]
    rw [isSending_ite rfl, hold]
    exact ⟨Nat.le_refl _, fun _ => rfl⟩
  | requested block hph => exact ⟨Nat.le_refl _, fun _ => rfl⟩
  | _ =>
    simp_all [Shared.emitted, Session.isSending, Session.assign]

end Step

/-! ## The balance over a whole run -/

/-- Every had piece was emitted or is being sent, exactly once while the
receiver is alive and at most once in any case. -/
def Balanced (s : Swarm) : Prop :=
  ∀ i, s.shared.emitted i + s.procs.countP (Session.isSending i) ≤
      (s.shared.tracker.has i).toNat ∧
    (s.shared.completed.receiverAlive = true →
      s.shared.emitted i + s.procs.countP (Session.isSending i) =
        (s.shared.tracker.has i).toNat)

/-- A session leaves the receiver as it is. -/
theorem receiverAlive_step {sha1 : List UInt8 → List UInt8} {c c' : Shared} {p p' : Session}
    {e : SessionEvent} (h : Session.Step sha1 c p e c' p') :
    c'.completed.receiverAlive = c.completed.receiverAlive := by
  rcases h.completed with he | ⟨piece, complete, -, -, he⟩
  · rw [he]
  · rw [he, Queue.receiverAlive_send]

/-- The balance is kept by every step. -/
theorem Balanced.poolStep {sha1 : List UInt8 → List UInt8} {s s' : Swarm} {e : SwarmEvent}
    (hsound : s.shared.Sound sha1 ∧ ∀ p ∈ s.procs, p.Sound sha1 s.shared) (hs : Balanced s)
    (h : (swarm sha1).poolStep s e = some s') : Balanced s' := by
  intro i
  have hi := hs i
  cases e with
  | spawn addr =>
    obtain ⟨c', p, hspawn, rfl⟩ := PoolProgram.poolStep_spawn h
    obtain ⟨rfl, rfl⟩ := swarm_spawn hspawn
    rw [List.countP_append]
    exact hi
  | proc k ev =>
    obtain ⟨p, c', p', hk, hstep, rfl⟩ := PoolProgram.poolStep_proc h
    have hst := Session.step_cases hstep
    obtain ⟨hle, heq⟩ := hst.balance hsound.1 (hsound.2 p (List.mem_of_getElem? hk)) i
    have hcount : (s.procs.set k p').countP (Session.isSending i) + (p.isSending i).toNat = _ :=
      PoolProgram.countP_set_proc (Session.isSending i) hk
    simp only
    rw [receiverAlive_step hst]
    refine ⟨by omega, fun hal => ?_⟩
    have h1 := hi.2 hal
    have h2 := heq hal
    omega
  | env ev =>
    obtain ⟨c', henv, rfl⟩ := PoolProgram.poolStep_env h
    obtain ⟨control, completed, rfl, hsent, hal⟩ := swarm_env henv
    simp only [Shared.emitted, hsent] at hi ⊢
    exact ⟨hi.1, fun h => hi.2 (hal h)⟩

/-- The balance holds in every reachable state. -/
theorem balanced_reachable {sha1 : List UInt8 → List UInt8} {info : Info}
    {infoHash peerId : List UInt8} {c : Coordinator}
    (h : Coordinator.new info infoHash peerId = .ok c) {s : Swarm}
    (hr : (c.system sha1).Reachable s) : Balanced s := by
  refine hr.invariant ?_ fun s e s' hreach hs hstep =>
    hs.poolStep (Coordinator.sound h hreach) hstep
  intro i
  obtain ⟨-, -, ht, -, -⟩ := Coordinator.new_eq_ok h
  have hn : c.tracker.has i = false := by
    rw [ht]
    exact Bitfield.has_new _ i
  show 0 ≤ (c.tracker.has i).toNat ∧ (_ → 0 = (c.tracker.has i).toNat)
  rw [hn]
  exact ⟨Nat.le_refl 0, fun _ => rfl⟩

/-- No piece is put on the channel twice. -/
theorem Balanced.nodup_sent {s : Swarm} (h : Balanced s) :
    (s.shared.completed.sent.map VerifiedPiece.index).Nodup := by
  rw [List.nodup_iff_count_le_one]
  intro i
  have hle := (h i).1
  have hone := Bool.toNat_le (s.shared.tracker.has i)
  rw [List.count, List.countP_map]
  change s.shared.emitted i ≤ 1
  omega

/-- A piece was emitted when it is on the channel. -/
theorem emitted_pos_iff {c : Shared} {i : Nat} :
    0 < c.emitted i ↔ ∃ piece ∈ c.completed.sent, piece.index = i := by
  simp only [Shared.emitted, List.countP_pos_iff, beq_iff_eq]

/-- A piece is being sent when some session sends it. -/
theorem sending_pos_iff {procs : List Session} {i : Nat} :
    0 < procs.countP (Session.isSending i) ↔
      ∃ p ∈ procs, ∃ piece complete, p.phase = .sending piece complete ∧ piece.index = i := by
  rw [List.countP_pos_iff]
  constructor
  · rintro ⟨p, hp, hs⟩
    unfold Session.isSending at hs
    split at hs
    · rename_i piece complete hph
      exact ⟨p, hp, piece, complete, hph, eq_of_beq hs⟩
    · cases hs
  · rintro ⟨p, hp, piece, complete, hph, rfl⟩
    exact ⟨p, hp, by rw [isSending_of_phase hph, beq_self_eq_true]⟩

/-- While somebody listens, a had piece was emitted or is being sent. -/
theorem has_iff_delivered {s : Swarm} (hs : Balanced s)
    (hal : s.shared.completed.receiverAlive = true) (i : Nat) :
    s.shared.tracker.has i = true ↔
      (∃ piece ∈ s.shared.completed.sent, piece.index = i) ∨
        ∃ p ∈ s.procs, ∃ piece complete, p.phase = .sending piece complete ∧
          piece.index = i := by
  have heq := (hs i).2 hal
  have hone := Bool.toNat_le (s.shared.tracker.has i)
  rw [← Bool.toNat_eq_one, ← emitted_pos_iff, ← sending_pos_iff]
  omega

/-! ## Who marked a piece, and what completed the torrent -/

/-- The transition is a step of session `k`. -/
def StepOf (k : Nat) (t : Transition Swarm SwarmEvent) : Prop := ∃ e, t.event = .proc k e

/-- The `handle_block` of session `k` sets `have[i]` in this transition. -/
def Marks (k i : Nat) (t : Transition Swarm SwarmEvent) : Prop :=
  (∃ block, t.event = .proc k (.recv (.ok (some (.piece block))))) ∧
    t.pre.shared.tracker.has i = false ∧ t.post.shared.tracker.has i = true

/-- Session `k` puts piece `i` on the channel, or tries to, in this transition. -/
def Emits (k i : Nat) (t : Transition Swarm SwarmEvent) : Prop :=
  t.event = .proc k .emit ∧ ∃ p piece complete, t.pre.procs[k]? = some p ∧
    p.phase = .sending piece complete ∧ piece.index = i

/-- The torrent becomes complete in this transition. -/
def Completes (t : Transition Swarm SwarmEvent) : Prop :=
  t.pre.shared.tracker.isComplete = false ∧ t.post.shared.tracker.isComplete = true

/-- The call of `handle_block` that session `k` is in has `Ok(true)` to return:
it has not returned yet and the session made no step since, or its next step
was the end of the send, after which the session is where `Ok(true)` leads. -/
def ReturnsTrue (k : Nat) (rest : Run) (s : Swarm) : Prop :=
  (∀ t ∈ rest, ¬StepOf k t) ∧
      (∃ p piece, s.procs[k]? = some p ∧ p.phase = .sending piece true) ∨
    ∃ before t after, rest = before ++ t :: after ∧ (∀ u ∈ before, ¬StepOf k u) ∧
      t.event = .proc k .emit ∧ ∃ p, t.post.procs[k]? = some p ∧ p.phase = .signalling

/-- What the history of a run says about its last state. -/
structure Traced (run : Run) (s : Swarm) : Prop where
  extends_ : ∀ t ∈ run, t.post.shared.Extends s.shared
  marker : ∀ k p piece complete, s.procs[k]? = some p → p.phase = .sending piece complete →
    ∃ t ∈ run, Marks k piece.index t
  unique : ∀ i k k' t t', t ∈ run → t' ∈ run → Marks k i t → Marks k' i t' → k = k'
  completion : s.shared.tracker.isComplete = true → ∃ before t after k block,
    run = before ++ t :: after ∧ Completes t ∧
      t.event = .proc k (.recv (.ok (some (.piece block)))) ∧
      (∀ u ∈ before ++ after, ¬Completes u) ∧ ReturnsTrue k after s

section Traced

variable {sha1 : List UInt8 → List UInt8} {s s' : Swarm} {e : SwarmEvent} {run : Run}

/-- A step that sets a bit of `have` is the marking step of a session. -/
theorem marks_of_has (h : (swarm sha1).poolStep s e = some s') {i : Nat}
    (hn : s.shared.tracker.has i = false) (hi : s'.shared.tracker.has i = true) :
    ∃ k p block piece, e = .proc k (.recv (.ok (some (.piece block)))) ∧
      s'.procs[k]? = some p ∧ piece.index = i ∧
      p.phase = .sending piece s'.shared.tracker.isComplete := by
  cases e with
  | spawn addr =>
    obtain ⟨c', p, hs, rfl⟩ := PoolProgram.poolStep_spawn h
    obtain ⟨rfl, -⟩ := swarm_spawn hs
    exact absurd hi (by rw [hn]; exact Bool.false_ne_true)
  | env ev =>
    obtain ⟨c', hs, rfl⟩ := PoolProgram.poolStep_env h
    obtain ⟨control, completed, rfl, -⟩ := swarm_env hs
    exact absurd hi (by rw [hn]; exact Bool.false_ne_true)
  | proc k ev =>
    obtain ⟨p, c', p', hk, hs, rfl⟩ := PoolProgram.poolStep_proc h
    rcases (Session.step_cases hs).has_cases with hsame |
      ⟨block, data, complete, asm, rfl, -, -, -, -, -, ht, -, rfl, hph⟩
    · exact absurd hi (by simp only [hsame, hn]; exact Bool.false_ne_true)
    · refine ⟨k, p', block, _, rfl, ?_, ?_, hph⟩
      · rw [PoolProgram.getElem?_set_proc hk, if_pos rfl]
      · simp only [ht, PieceTracker.has_markHave, hn, Bool.false_or, decide_eq_true_eq] at hi
        exact hi.1.symm

/-- A step that completes the torrent sets a bit of `have`. -/
theorem exists_has_of_completes (h : (swarm sha1).poolStep s e = some s')
    (hn : s.shared.tracker.isComplete = false) (hi : s'.shared.tracker.isComplete = true) :
    ∃ i, s.shared.tracker.has i = false ∧ s'.shared.tracker.has i = true := by
  by_contra hno
  rw [PieceTracker.isComplete_iff] at hi
  have hall : s.shared.tracker.isComplete = true := by
    rw [PieceTracker.isComplete_iff]
    intro i hlt
    by_contra hh
    refine hno ⟨i, Bool.not_eq_true _ ▸ hh, hi i ?_⟩
    rw [PieceTracker.numPieces, (swarm_extends h).pieceHashes]
    exact hlt
  rw [hn] at hall
  cases hall

/-- A sending session's only step is the end of its send. -/
theorem emit_of_sending {k : Nat} {ev : SessionEvent} {p : Session} {piece : VerifiedPiece}
    {complete : Bool} (h : (swarm sha1).poolStep s (.proc k ev) = some s')
    (hp : s.procs[k]? = some p) (hph : p.phase = .sending piece complete) :
    ev = .emit ∧ ∃ p', s'.procs[k]? = some p' ∧
      p'.phase = if complete then .signalling else .top := by
  obtain ⟨q, c', p', hk, hs, rfl⟩ := PoolProgram.poolStep_proc h
  obtain rfl : q = p := Option.some.inj (hk.symm.trans hp)
  have hst := Session.step_cases hs
  have hnew : (s.procs.set k p')[k]? = some p' := by
    rw [PoolProgram.getElem?_set_proc hk, if_pos rfl]
  cases hst with
  | emitted piece' complete' hp' =>
    obtain ⟨-, rfl⟩ := Phase.sending.inj (hph.symm.trans hp')
    exact ⟨rfl, _, hnew, rfl⟩
  | _ => simp_all

/-- The pending or made return stays what it is. -/
theorem ReturnsTrue.snoc {k : Nat} {rest : Run} (hr : ReturnsTrue k rest s)
    (h : (swarm sha1).poolStep s e = some s') : ReturnsTrue k (rest ++ [⟨s, e, s'⟩]) s' := by
  rcases hr with ⟨hno, p, piece, hp, hph⟩ | ⟨before, t, after, rfl, hno, ht, hpost⟩
  · by_cases hk : ∃ ev, e = .proc k ev
    · obtain ⟨ev, rfl⟩ := hk
      obtain ⟨rfl, p', hp', hph'⟩ := emit_of_sending h hp hph
      exact .inr ⟨rest, _, [], rfl, hno, rfl, p', hp', hph'⟩
    · left
      refine ⟨?_, p, piece, ?_, hph⟩
      · intro t ht
        rcases List.mem_append.mp ht with ht | ht
        · exact hno t ht
        · obtain rfl := List.mem_singleton.mp ht
          exact hk
      · exact PoolProgram.getElem?_procs_of_other h (fun ev he => hk ⟨ev, he⟩) hp
  · exact .inr ⟨before, t, after ++ [⟨s, e, s'⟩], by simp, hno, ht, hpost⟩

/-- A session that sends after a step marked the piece in that step or before. -/
theorem marker_snoc (hm : ∀ k p piece complete, s.procs[k]? = some p →
      p.phase = .sending piece complete → ∃ t ∈ run, Marks k piece.index t)
    (hsound : s.shared.Sound sha1 ∧ ∀ p ∈ s.procs, p.Sound sha1 s.shared)
    (h : (swarm sha1).poolStep s e = some s') {k : Nat} {p : Session} {piece : VerifiedPiece}
    {complete : Bool} (hp : s'.procs[k]? = some p) (hph : p.phase = .sending piece complete) :
    ∃ t ∈ run ++ [⟨s, e, s'⟩], Marks k piece.index t := by
  have hold : s.procs[k]? = some p → ∃ t ∈ run ++ [⟨s, e, s'⟩], Marks k piece.index t := by
    intro hp
    obtain ⟨t, ht, hmk⟩ := hm k p piece complete hp hph
    exact ⟨t, List.mem_append_left _ ht, hmk⟩
  cases e with
  | spawn addr =>
    obtain ⟨c', q, hs, rfl⟩ := PoolProgram.poolStep_spawn h
    obtain ⟨-, rfl⟩ := swarm_spawn hs
    rw [List.getElem?_append] at hp
    split at hp
    · exact hold hp
    · rw [List.mem_singleton.mp (List.mem_of_getElem? hp)] at hph
      cases hph
  | env ev =>
    obtain ⟨c', -, rfl⟩ := PoolProgram.poolStep_env h
    exact hold hp
  | proc j ev =>
    obtain ⟨q, c', q', hj, hs, rfl⟩ := PoolProgram.poolStep_proc h
    rw [PoolProgram.getElem?_set_proc hj] at hp
    split at hp
    · rename_i hkj
      obtain rfl := hkj
      obtain rfl := Option.some.inj hp
      have hq := hsound.2 q (List.mem_of_getElem? hj)
      obtain ⟨block, asm, rfl, -, hcur, hidx, -, hn, -, ht, -⟩ :=
        (Session.step_cases hs).sending_cases hph
      refine ⟨_, List.mem_append_right _ List.mem_cons_self, ⟨block, rfl⟩, ?_, ?_⟩
      · rw [hidx]
        exact hn
      · show c'.tracker.has piece.index = true
        have hlt := Nat.lt_of_lt_of_le (hq.current asm hcur).1 hsound.1.numPieces_le
        rw [ht, hidx, PieceTracker.has_markHave]
        simp [hlt]
    · exact hold hp

/-- A piece had before a step is not marked in it. -/
theorem not_marks_of_traced (hx : ∀ t ∈ run, t.post.shared.Extends s.shared)
    {k k' i : Nat} {t : Transition Swarm SwarmEvent} (ht : t ∈ run) (hm : Marks k i t) :
    ¬Marks k' i ⟨s, e, s'⟩ := by
  intro hm'
  have hhas := (hx t ht).has i hm.2.2
  rw [hm'.2.1] at hhas
  cases hhas

/-- No step marks a piece for a second session. -/
theorem Traced.unique_snoc (hr : Traced run s) {i k k' : Nat}
    {t t' : Transition Swarm SwarmEvent} (ht : t ∈ run ++ [⟨s, e, s'⟩])
    (ht' : t' ∈ run ++ [⟨s, e, s'⟩]) (hm : Marks k i t) (hm' : Marks k' i t') : k = k' := by
  rcases List.mem_append.mp ht with ht | ht <;> rcases List.mem_append.mp ht' with ht' | ht'
  · exact hr.unique i k k' t t' ht ht' hm hm'
  · obtain rfl := List.mem_singleton.mp ht'
    exact absurd hm' (not_marks_of_traced hr.extends_ ht hm)
  · obtain rfl := List.mem_singleton.mp ht
    exact absurd hm (not_marks_of_traced hr.extends_ ht' hm')
  · obtain rfl := List.mem_singleton.mp ht
    obtain rfl := List.mem_singleton.mp ht'
    obtain ⟨⟨block, he⟩, -⟩ := hm
    obtain ⟨⟨block', he'⟩, -⟩ := hm'
    exact (PoolEvent.proc.inj (he.symm.trans he')).1

/-- A torrent that is complete after a step was completed once, in the step or before it. -/
theorem Traced.completion_snoc (hr : Traced run s) (h : (swarm sha1).poolStep s e = some s')
    (hc' : s'.shared.tracker.isComplete = true) :
    ∃ before t after k block, run ++ [⟨s, e, s'⟩] = before ++ t :: after ∧ Completes t ∧
      t.event = .proc k (.recv (.ok (some (.piece block)))) ∧
      (∀ u ∈ before ++ after, ¬Completes u) ∧ ReturnsTrue k after s' := by
  cases hc : s.shared.tracker.isComplete with
  | true =>
    obtain ⟨before, t, after, k, block, rfl, hcomp, hev, hno, hret⟩ := hr.completion hc
    refine ⟨before, t, after ++ [⟨s, e, s'⟩], k, block, by simp, hcomp, hev, ?_, hret.snoc h⟩
    intro u hu
    rw [← List.append_assoc] at hu
    rcases List.mem_append.mp hu with hu | hu
    · exact hno u hu
    · obtain rfl := List.mem_singleton.mp hu
      intro hcu
      exact Bool.false_ne_true (hcu.1.symm.trans hc)
  | false =>
    obtain ⟨i, hn, hi⟩ := exists_has_of_completes h hc hc'
    obtain ⟨k, p, block, piece, rfl, hp, -, hph⟩ := marks_of_has h hn hi
    refine ⟨run, _, [], k, block, rfl, ⟨hc, hc'⟩, rfl, ?_, .inl ⟨?_, p, piece, hp, ?_⟩⟩
    · intro u hu hcu
      rw [List.append_nil] at hu
      have := (hr.extends_ u hu).isComplete hcu.2
      rw [hc] at this
      cases this
    · intro t ht
      cases ht
    · rw [hph, hc']

/-- What the history says is kept by every step. -/
theorem Traced.snoc (hr : Traced run s)
    (hsound : s.shared.Sound sha1 ∧ ∀ p ∈ s.procs, p.Sound sha1 s.shared)
    (h : (swarm sha1).poolStep s e = some s') : Traced (run ++ [⟨s, e, s'⟩]) s' where
  extends_ t ht := by
    rcases List.mem_append.mp ht with ht | ht
    · exact (hr.extends_ t ht).trans (swarm_extends h)
    · obtain rfl := List.mem_singleton.mp ht
      exact Shared.Extends.refl _
  marker k p piece complete := marker_snoc hr.marker hsound h
  unique i k k' t t' := hr.unique_snoc
  completion := hr.completion_snoc h

end Traced

/-- A run of a coordinator is traced. -/
theorem traced_history {sha1 : List UInt8 → List UInt8} {info : Info}
    {infoHash peerId : List UInt8} {c : Coordinator}
    (h : Coordinator.new info infoHash peerId = .ok c) {run : Run} {s : Swarm}
    (hr : (c.system sha1).History run s) : Traced run s := by
  refine hr.invariant (P := Traced) ?_ fun run s e s' hrun ht _ hstep =>
    ht.snoc (Coordinator.sound h ⟨run, hrun⟩) hstep
  refine ⟨fun t ht => ?_, fun k p piece complete hp => ?_, fun i k k' t t' ht => ?_,
    fun hc => ?_⟩
  · cases ht
  · cases hp
  · cases ht
  -- A fresh coordinator has at least one piece and none of them.
  have hsound := Coordinator.start_sound sha1 h
  obtain ⟨-, -, ht, -, -⟩ := Coordinator.new_eq_ok h
  have hpos := Nat.lt_of_lt_of_le hsound.wellFormed.numPieces_pos hsound.numPieces_le
  have h0 := (PieceTracker.isComplete_iff _).mp hc 0 hpos
  change c.tracker.has 0 = true at h0
  rw [ht] at h0
  exact absurd h0 (by simp [PieceTracker.has, PieceTracker.ofHashes])

/-- What a session emits it has marked before. -/
theorem marks_of_emits {sha1 : List UInt8 → List UInt8} {info : Info}
    {infoHash peerId : List UInt8} {c : Coordinator}
    (h : Coordinator.new info infoHash peerId = .ok c) {run : Run} {s : Swarm}
    (hr : (c.system sha1).History run s) {before after : Run}
    {t : Transition Swarm SwarmEvent} {k i : Nat} (hsplit : run = before ++ t :: after)
    (hem : Emits k i t) : ∃ u ∈ before, Marks k i u := by
  obtain ⟨-, p, piece, complete, hp, hph, rfl⟩ := hem
  have hbefore := hr.before hsplit
  exact (traced_history h hbefore).marker k p piece complete hp hph

/-- Exactly-once delivery. In every run, each piece index is put on the channel
at most once and only by the session that marked it; while the receiver is
alive a piece is had exactly when it was emitted or is being sent; and a
complete torrent was completed by exactly one `handle_block`, which returns
`Ok(true)`. -/
theorem exactly_once_delivery {sha1 : List UInt8 → List UInt8} {info : Info}
    {infoHash peerId : List UInt8} {c : Coordinator}
    (h : Coordinator.new info infoHash peerId = .ok c) {run : Run} {s : Swarm}
    (hr : (c.system sha1).History run s) :
    (s.shared.completed.sent.map VerifiedPiece.index).Nodup ∧
      (∀ before t after k i, run = before ++ t :: after → Emits k i t →
        (∃ u ∈ before, Marks k i u) ∧ ∀ u ∈ run, ∀ k', Marks k' i u → k' = k) ∧
      (s.shared.completed.receiverAlive = true → ∀ i, s.shared.tracker.has i = true ↔
        (∃ piece ∈ s.shared.completed.sent, piece.index = i) ∨
          ∃ p ∈ s.procs, ∃ piece complete, p.phase = .sending piece complete ∧
            piece.index = i) ∧
      (s.shared.tracker.isComplete = true → ∃ before t after k block,
        run = before ++ t :: after ∧ Completes t ∧
          t.event = .proc k (.recv (.ok (some (.piece block)))) ∧
          (∀ u ∈ before ++ after, ¬Completes u) ∧ ReturnsTrue k after s) := by
  have hbal := balanced_reachable h ⟨run, hr⟩
  have htr := traced_history h hr
  refine ⟨hbal.nodup_sent, ?_, has_iff_delivered hbal, htr.completion⟩
  intro before t after k i hsplit hem
  obtain ⟨u, hu, hm⟩ := marks_of_emits h hr hsplit hem
  refine ⟨⟨u, hu, hm⟩, fun u' hu' k' hm' => ?_⟩
  refine htr.unique i k' k u' u hu' ?_ hm' hm
  rw [hsplit]
  exact List.mem_append_left _ hu

/-- The one piece is emitted once and completes the torrent. -/
theorem exactly_once_delivery_tiny :
    ∃ run s, (tiny.system sha1OfA).History run s ∧
      s.shared.completed.sent = [⟨0, [0x61]⟩] ∧ s.shared.tracker.isComplete = true ∧
      ∃ before t after k block, run = before ++ t :: after ∧ Completes t ∧
        t.event = .proc k (.recv (.ok (some (.piece block)))) ∧
        (∀ u ∈ before ++ after, ¬Completes u) ∧ ReturnsTrue k after s := by
  obtain ⟨run, hr, -⟩ :=
    System.History.exec (.nil : (tiny.system sha1OfA).History [] _) tinyDownload rfl
  exact ⟨_, _, hr, rfl, rfl, (exactly_once_delivery tiny_new hr).2.2.2 rfl⟩

end Torrentina.Download
