import Torrentina.Seeding.Attended
import Mathlib.Algebra.BigOperators.Group.Finset.Basic
import Mathlib.Algebra.Order.BigOperators.Group.Finset

/-!
# The work left to a session and its seeder

Every step of the session or the seeder lowers the work that is left: the steps
to the end of an iteration, the greeting, and for each block of a piece that is
still wanted the request, the answer, and the iteration that receives it. Nothing
another session does raises it.
-/

namespace Torrentina.Seeding

open Torrentina.Core Peer Download Disk

/-- The steps of a session to the end of its iteration. -/
def phaseCost : Phase → Nat
  | .connecting => 8
  | .starting => 7
  | .sending _ _ => 6
  | .top => 5
  | .observed _ => 4
  | .refilling => 3
  | .selecting | .signalling => 2
  | .leaving _ => 1
  | _ => 0

/-- The steps to the end of the greeting, and what receiving it costs. -/
def SeederPhase.cost : SeederPhase → Nat
  | .accepting => 11
  | .greeting => 10
  | .unchoking => 5
  | .serving | .ended => 0

/-- What receiving a message of the seeder costs: an iteration of the loop. -/
def arrivalCost : Message → Nat
  | .piece _ => 5
  | .bitfield _ | .unchoke => 4
  | _ => 0

/-- What serving a message of the session costs, and receiving the answer. -/
def serviceCost : Message → Nat
  | .request _ => 6
  | _ => 1

/-- The work under way. -/
def Link.cost (l : Link) : Nat :=
  l.phase.cost + (l.toSession.map arrivalCost).sum + (l.toSeeder.map serviceCost).sum

/-- The blocks of the piece in progress that are still to be requested. -/
def unrequested (g : Geometry) (p : Session) : Nat :=
  match p.current with
  | some asm => g.numBlocks asm.index - p.nextBlock
  | none => 0

/-- The pieces that are missing, but for the one in progress. -/
def wanted (c : Shared) (p : Session) : Finset Nat :=
  (Finset.range c.geometry.numPieces).filter fun i =>
    c.tracker.has i = false ∧ p.current.map PieceAssembler.index ≠ some i

/-- The work left. -/
def cost (c : Shared) (p : Session) (l : Link) : Nat :=
  phaseCost p.phase + l.cost +
    7 * (unrequested c.geometry p + ∑ i ∈ wanted c p, c.geometry.numBlocks i)

section Cost

variable {c c' : Shared} {p p' : Session} {l : Link}

theorem mem_wanted {i : Nat} : i ∈ wanted c p ↔ i < c.geometry.numPieces ∧
    c.tracker.has i = false ∧ p.current.map PieceAssembler.index ≠ some i := by
  rw [wanted, Finset.mem_filter, Finset.mem_range]

/-- Marking pieces leaves less to want. -/
theorem cost_le_of_extends (hx : c.Extends c') : cost c' p l ≤ cost c p l := by
  have hsub : wanted c' p ⊆ wanted c p := by
    intro i hi
    rw [mem_wanted, hx.geometry] at hi
    obtain ⟨hlt, hn, hc⟩ := hi
    refine mem_wanted.mpr ⟨hlt, ?_, hc⟩
    by_contra hh
    rw [hx.has i (Bool.not_eq_false _ ▸ hh)] at hn
    cases hn
  have hsum := Finset.sum_le_sum_of_subset (f := c.geometry.numBlocks) hsub
  unfold cost
  rw [hx.geometry]
  omega

/-- Before any piece, the work left is bounded by the blocks of the torrent. -/
theorem cost_new_le (c : Shared) (addr : SocketAddr) :
    cost c (Session.new c addr) .idle ≤
      19 + 7 * ∑ i ∈ Finset.range c.geometry.numPieces, c.geometry.numBlocks i := by
  have hsub : wanted c (Session.new c addr) ⊆ Finset.range c.geometry.numPieces :=
    Finset.filter_subset _ _
  have hsum := Finset.sum_le_sum_of_subset (f := c.geometry.numBlocks) hsub
  have hlink : Link.idle.cost = 11 := rfl
  have hphase : phaseCost (Session.new c addr).phase = 8 := rfl
  have hblocks : unrequested c.geometry (Session.new c addr) = 0 := rfl
  unfold cost
  rw [hlink, hphase, hblocks]
  omega

/-- Sending a message adds what serving it costs. -/
theorem cost_send (l : Link) (m : Message) : (l.send m).cost = l.cost + serviceCost m := by
  simp only [Link.cost, Link.send, List.map_append, List.sum_append, List.map_cons, List.map_nil,
    List.sum_cons, List.sum_nil]
  omega

/-- Receiving a message takes off what receiving it costs. -/
theorem cost_receive {m : Message} {rest : List Message} (h : l.toSession = m :: rest) :
    l.cost = { l with toSession := rest }.cost + arrivalCost m := by
  simp only [Link.cost, h, List.map_cons, List.sum_cons]
  omega

end Cost

end Torrentina.Seeding
