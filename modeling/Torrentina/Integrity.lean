import Torrentina.Disk.Storage
import Torrentina.Download.Delivery

/-!
# End-to-end integrity

The sessions of a run, the output channel and the files on disk together.
Whatever the peers send, the pieces that reach the channel are valid pieces of
the torrent; writing valid pieces in the order received never fails, and a
region that holds its expected hash keeps it, because different pieces occupy
disjoint regions and a piece written again is again a valid one.
-/

namespace Torrentina

open Torrentina.Core Download Disk

/-- The region of piece `i` on disk has the expected hash. -/
def HashedOnDisk (sha1 : List UInt8 → List UInt8) (hashes : List (List UInt8)) (st : Storage)
    (i : Nat) : Prop :=
  hashes[i]? = some (sha1 (Storage.pieceOf st.geometry st.content i))

section Writes

variable {sha1 : List UInt8 → List UInt8} {hashes : List (List UInt8)} {st : Storage}

/-- The regions of different pieces do not meet. -/
theorem apart_of_ne {g : Geometry} (hg : g.WellFormed) {i j : Nat} (hi : i < g.numPieces)
    (hj : j < g.numPieces) (hne : i ≠ j) :
    g.pieceOffset i + g.pieceLengthOf i ≤ g.pieceOffset j ∨
      g.pieceOffset j + g.pieceLengthOf j ≤ g.pieceOffset i := by
  rcases Nat.lt_or_gt_of_ne hne with hlt | hlt
  · exact .inl (hg.pieceOffset_add_le_of_lt hlt hj)
  · exact .inr (hg.pieceOffset_add_le_of_lt hlt hi)

/-- A write to the region of one piece leaves that of another as it is. -/
theorem pieceOf_overlay_of_ne {g : Geometry} (hg : g.WellFormed) {i j : Nat}
    (hi : i < g.numPieces) (hj : j < g.numPieces) (hne : j ≠ i) {data bytes : List UInt8}
    (hd : data.length = g.pieceLengthOf i) :
    Storage.pieceOf g (overlay 0 (g.pieceOffset i) data bytes) j = Storage.pieceOf g bytes j := by
  apply read_overlay_of_disjoint
  rw [hd]
  exact apart_of_ne hg hi hj hne.symm

/-- Writing a valid piece gives its region the expected hash and keeps the others. -/
theorem writePiece_hashed (hst : st.WellFormed) {piece : VerifiedPiece}
    (hw : piece.Valid sha1 st.geometry hashes) :
    ∃ st', st.writePiece piece.index piece.data = (.ok (), st') ∧ st'.WellFormed ∧
      st'.geometry = st.geometry ∧ ∀ j < st.geometry.numPieces,
        j = piece.index ∨ HashedOnDisk sha1 hashes st j → HashedOnDisk sha1 hashes st' j := by
  obtain ⟨st', hok, hst', hg, -, hc⟩ := hst.writePiece_eq hw.index_lt hw.length_data
  refine ⟨st', hok, hst', hg, fun j hj hor => ?_⟩
  rw [HashedOnDisk, hg, hc]
  by_cases he : j = piece.index
  · subst he
    have hle := hst.geometry.pieceOffset_add_le hw.index_lt
    rw [Storage.pieceOf, ← hw.length_data, read_overlay_self, hw.hash]
    rw [hst.length_content, hw.length_data]
    exact hle
  · rw [pieceOf_overlay_of_ne hst.geometry hw.index_lt hj he hw.length_data]
    rcases hor with h | h
    · exact absurd h he
    · exact h

/-- Writing valid pieces in order never fails, and every written region has its hash. -/
theorem writePieces_hashed {pieces : List VerifiedPiece} (hst : st.WellFormed)
    (hw : ∀ piece ∈ pieces, piece.Valid sha1 st.geometry hashes) :
    ∃ st', st.writePieces (pieces.map fun piece => (piece.index, piece.data)) = (.ok (), st') ∧
      st'.geometry = st.geometry ∧ ∀ j < st.geometry.numPieces,
        j ∈ pieces.map VerifiedPiece.index ∨ HashedOnDisk sha1 hashes st j →
          HashedOnDisk sha1 hashes st' j := by
  induction pieces generalizing st with
  | nil =>
    refine ⟨st, rfl, rfl, fun j _ hor => ?_⟩
    rcases hor with h | h
    · cases h
    · exact h
  | cons piece pieces ih =>
    obtain ⟨st₁, hok, hst₁, hg, hh⟩ := writePiece_hashed hst (hw piece List.mem_cons_self)
    have hrest : ∀ q ∈ pieces, q.Valid sha1 st₁.geometry hashes := by
      intro q hq
      rw [hg]
      exact hw q (List.mem_cons_of_mem piece hq)
    obtain ⟨st', hok', hg', hh'⟩ := ih hst₁ hrest
    rw [hg] at hg' hh'
    refine ⟨st', by rw [List.map_cons, Storage.writePieces, hok]; exact hok', hg', ?_⟩
    intro j hj hor
    apply hh' j hj
    rw [List.map_cons, List.mem_cons] at hor
    rcases hor with (h | h) | h
    · exact .inr (hh j hj (.inl h))
    · exact .inl h
    · exact .inr (hh j hj (.inr h))

end Writes

/-- The consumer has taken everything, and no session still has a piece to send. -/
def Drained (s : Swarm) : Prop :=
  s.shared.completed.receiverAlive = true ∧ s.shared.completed.pending = [] ∧
    ∀ p ∈ s.procs, ∀ piece complete, p.phase ≠ .sending piece complete

section Runs

variable {sha1 : List UInt8 → List UInt8} {m : Metainfo} {infoHash peerId : List UInt8}
  {platform : Platform} {base : PathBuf} {openFile : PathBuf → Except Error (List UInt8)}
  {c : Coordinator} {st : Storage} {s : Swarm}

/-- Coordinator and storage describe the same torrent. -/
theorem geometry_eq (hc : Coordinator.new m.info infoHash peerId = .ok c)
    (hst : Storage.create openFile m platform base = .ok st) : c.geometry = st.geometry := by
  obtain ⟨hg, -⟩ := Coordinator.new_eq_ok hc
  obtain ⟨hg', -⟩ := Storage.create_eq_ok hst
  exact Except.ok.inj (hg.symm.trans hg')

/-- What a run has put on the channel are valid pieces of the torrent on disk. -/
theorem sent_valid (hc : Coordinator.new m.info infoHash peerId = .ok c)
    (hst : Storage.create openFile m platform base = .ok st) (hr : (c.system sha1).Reachable s)
    {piece : VerifiedPiece} (hm : piece ∈ s.shared.completed.sent) :
    piece.Valid sha1 st.geometry c.tracker.pieceHashes := by
  have hv := (Coordinator.sound hc hr).1.sent piece hm
  have hx := Coordinator.extends_start hr
  rw [hx.geometry, hx.pieceHashes] at hv
  rw [← geometry_eq hc hst]
  exact hv

/-- Once the torrent is complete and the channel drained, every piece was received. -/
theorem mem_received_of_drained (hc : Coordinator.new m.info infoHash peerId = .ok c)
    (hr : (c.system sha1).Reachable s) (hcomp : s.shared.tracker.isComplete = true)
    (hd : Drained s) {i : Nat} (hi : i < c.geometry.numPieces) :
    i ∈ s.shared.completed.received.map VerifiedPiece.index := by
  obtain ⟨hal, hpend, hnone⟩ := hd
  have hlt : i < s.shared.tracker.numPieces := by
    refine Nat.lt_of_lt_of_le ?_ (Coordinator.sound hc hr).1.numPieces_le
    rw [(Coordinator.extends_start hr).geometry]
    exact hi
  have hhas := (PieceTracker.isComplete_iff _).mp hcomp i hlt
  rcases (has_iff_delivered (balanced_reachable hc hr) hal i).mp hhas with
    ⟨piece, hm, rfl⟩ | ⟨p, hp, piece, complete, hph, -⟩
  · rw [Queue.sent, hpend, List.append_nil] at hm
    exact List.mem_map_of_mem hm
  · exact absurd hph (hnone p hp piece complete)

end Runs

/-- End-to-end integrity. For a metainfo that the coordinator and the storage
accept, in every reachable state of every run: writing the received pieces in
order succeeds after any number of them, every region written so far has its
expected hash, and once the torrent is complete and the channel drained every
piece of the content on disk does. -/
theorem end_to_end_integrity {sha1 : List UInt8 → List UInt8} {m : Metainfo}
    {infoHash peerId : List UInt8} {platform : Platform} {base : PathBuf}
    {openFile : PathBuf → Except Error (List UInt8)} {c : Coordinator} {st : Storage}
    (hc : Coordinator.new m.info infoHash peerId = .ok c)
    (hst : Storage.create openFile m platform base = .ok st) {s : Swarm}
    (hr : (c.system sha1).Reachable s) :
    ∃ hashes, m.info.pieceHashes = .ok hashes ∧
      (∀ written later, s.shared.completed.received = written ++ later →
        ∃ st', st.writePieces (written.map fun piece => (piece.index, piece.data)) =
            (.ok (), st') ∧
          ∀ piece ∈ written, HashedOnDisk sha1 hashes st' piece.index) ∧
      (s.shared.tracker.isComplete = true → Drained s →
        ∃ st', st.writePieces (s.shared.completed.received.map
              fun piece => (piece.index, piece.data)) = (.ok (), st') ∧
          ∀ i < c.geometry.numPieces, HashedOnDisk sha1 hashes st' i) := by
  obtain ⟨-, hh, -⟩ := Coordinator.new_eq_ok hc
  obtain ⟨-, hwf⟩ := Storage.create_eq_ok hst
  have hvalid : ∀ piece ∈ s.shared.completed.received,
      piece.Valid sha1 st.geometry c.tracker.pieceHashes := by
    intro piece hm
    exact sent_valid hc hst hr (List.mem_append_left _ hm)
  refine ⟨c.tracker.pieceHashes, hh, ?_, ?_⟩
  · intro written later hsplit
    have hw : ∀ piece ∈ written, piece.Valid sha1 st.geometry c.tracker.pieceHashes := by
      intro piece hm
      apply hvalid
      rw [hsplit]
      exact List.mem_append_left _ hm
    obtain ⟨st', hok, -, hhash⟩ := writePieces_hashed hwf hw
    refine ⟨st', hok, fun piece hm => ?_⟩
    exact hhash piece.index (hw piece hm).index_lt (.inl (List.mem_map_of_mem hm))
  · intro hcomp hd
    obtain ⟨st', hok, -, hhash⟩ := writePieces_hashed hwf hvalid
    refine ⟨st', hok, fun i hi => ?_⟩
    exact hhash i (geometry_eq hc hst ▸ hi) (.inl (mem_received_of_drained hc hr hcomp hd hi))

/-- The one-byte torrent, downloaded and written. -/
theorem end_to_end_integrity_tiny :
    ∃ s st st' hashes, (tiny.system sha1OfA).Reachable s ∧
      Storage.create (fun _ => .ok []) ⟨tinyInfo⟩ .unix "/x" = .ok st ∧
      st.writePieces (s.shared.completed.received.map
        fun piece => (piece.index, piece.data)) = (.ok (), st') ∧
      ∀ i < tiny.geometry.numPieces, HashedOnDisk sha1OfA hashes st' i := by
  have hf : buildFileMap ⟨tinyInfo⟩ .unix "/x" = .ok [⟨"/x/a", 1, 0⟩] := by decide +kernel
  have hst : Storage.create (fun _ => .ok []) ⟨tinyInfo⟩ .unix "/x" =
      .ok ⟨⟨1, 1, 1, 1⟩, [⟨"/x/a", 1, 0⟩], [[0]]⟩ := by
    rw [Storage.create, hf]
    rfl
  have hr : (tiny.system sha1OfA).Reachable _ := System.Reachable.init.exec tinyDownload rfl
  obtain ⟨hashes, -, -, hdone⟩ := end_to_end_integrity tiny_new hst hr
  obtain ⟨st', hok, hh⟩ := hdone rfl ⟨rfl, rfl, by
    intro p hp piece complete hph
    obtain rfl := List.mem_singleton.mp hp
    cases hph⟩
  exact ⟨_, _, st', hashes, hr, hst, hok, hh⟩

end Torrentina
