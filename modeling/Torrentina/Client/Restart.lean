import Torrentina.Client.Main
import Torrentina.Integrity

/-!
# What is on disk survives restarts

Every incarnation opens the files again and downloads the torrent from the start.
Opening a file that has its length changes nothing. While pieces are on their way, the
region of each one received holds its data, up to the bytes that have not landed; once
the last of them lands the region has its expected hash, and keeps it over any number of
kills and restarts until bytes of that same piece land again.
-/

namespace Torrentina.Client

open Torrentina.Core Download Disk

/-- What the files have taken and the disk does not have yet. -/
def Host.unwritten (s : Host) : List (Stretch UInt8) :=
  match s.stage with
  | .downloading _ _ _ unwritten => unwritten
  | _ => []

/-- Bytes of piece `i` reach the disk. -/
def Lands (g : Geometry) (i : Nat) (t : Transition Host ClientEvent) : Prop :=
  ∃ j a n w, t.event = .land j a n ∧ t.pre.unwritten[j]? = some w ∧
    (w.part a n).Meets (g.pieceOffset i) (g.pieceLengthOf i)

/-- Bytes of piece `i` reach the disk, and none are left on their way. -/
def Settles (g : Geometry) (i : Nat) (t : Transition Host ClientEvent) : Prop :=
  Lands g i t ∧ ∀ w ∈ t.post.unwritten, ¬w.Meets (g.pieceOffset i) (g.pieceLengthOf i)

/-- Only one content of the length of piece `i` has the expected hash. -/
def OneContent (sha1 : List UInt8 → List UInt8) (g : Geometry) (hashes : List (List UInt8))
    (i : Nat) : Prop :=
  ∀ d d' : List UInt8, d.length = g.pieceLengthOf i → d'.length = g.pieceLengthOf i →
    hashes[i]? = some (sha1 d) → hashes[i]? = some (sha1 d') → d = d'

/-- A state of a run of some coordinator for the torrent, whose channel the disk writer reads. -/
def Running (sha1 : List UInt8 → List UInt8) (job : Job) (swarm : Swarm) : Prop :=
  ∃ c peerId, Coordinator.new job.metainfo.info job.infoHash peerId = .ok c ∧
    (c.system sha1).Reachable swarm ∧ swarm.shared.completed.receiverAlive = true

/-- The files have their lengths, and the region of piece `i` has the expected hash. -/
structure Kept (sha1 : List UInt8 → List UInt8) (job : Job) (g : Geometry)
    (files : List MappedFile) (hashes : List (List UInt8)) (i : Nat) (disk : FileSystem) :
    Prop where
  lt : i < g.numPieces
  sized : Sized job.platform files disk
  hashed : HashedOnDisk sha1 hashes (disk.opened job.platform g files) i

/-- The disk writer has received pieces, and some of their bytes are on their way. -/
structure Writing (sha1 : List UInt8 → List UInt8) (job : Job) (g : Geometry)
    (files : List MappedFile) (disk : FileSystem) (swarm : Swarm)
    (unwritten : List (Stretch UInt8)) : Prop where
  sized : Sized job.platform files disk
  running : Running sha1 job swarm
  settling : ∀ piece ∈ swarm.shared.completed.received,
    Settling unwritten (disk.opened job.platform g files).content (g.pieceOffset piece.index)
      piece.data
  inside : ∀ w ∈ unwritten, ∃ piece ∈ swarm.shared.completed.received,
    w.Inside (g.pieceOffset piece.index) piece.data.length

/-- What is known where an incarnation is. -/
def Stage.Inv (sha1 : List UInt8 → List UInt8) (job : Job) (g : Geometry)
    (files : List MappedFile) (hashes : List (List UInt8)) (disk : FileSystem) : Stage → Prop
  | .ended complete => complete = true → ∀ i < g.numPieces, Kept sha1 job g files hashes i disk
  | .creating _ _ g' files' opened =>
    g' = g ∧ files' = files ∧ Sized job.platform (files.take opened) disk
  | .downloading g' files' swarm unwritten =>
    g' = g ∧ files' = files ∧ Writing sha1 job g files disk swarm unwritten

section Disk

variable {sha1 : List UInt8 → List UInt8} {job : Job} {g : Geometry} {files : List MappedFile}
  {hashes : List (List UInt8)} {disk : FileSystem} {swarm : Swarm} {piece q : VerifiedPiece}

/-- What is put on the channel is valid for the torrent. -/
theorem Running.valid (h : Running sha1 job swarm)
    (hg : Geometry.fromInfo job.metainfo.info = .ok g)
    (hh : job.metainfo.info.pieceHashes = .ok hashes)
    (hm : piece ∈ swarm.shared.completed.sent) : piece.Valid sha1 g hashes := by
  obtain ⟨c, peerId, hc, hr, -⟩ := h
  have hv := (Coordinator.sound hc hr).1.sent piece hm
  have hx := Coordinator.extends_start hr
  obtain ⟨hg', hh', -⟩ := Coordinator.new_eq_ok hc
  obtain rfl : g = c.geometry := Except.ok.inj (hg.symm.trans hg')
  obtain rfl : hashes = c.tracker.pieceHashes := Except.ok.inj (hh.symm.trans hh')
  rw [hx.geometry, hx.pieceHashes] at hv
  exact hv

/-- No piece is put on the channel twice. -/
theorem Running.nodup (h : Running sha1 job swarm) :
    (swarm.shared.completed.sent.map VerifiedPiece.index).Nodup := by
  obtain ⟨c, peerId, hc, hr, -⟩ := h
  exact (balanced_reachable hc hr).nodup_sent

/-- A valid piece is written without an error. -/
theorem writePiece_ok (hdiffer : PathsDiffer job.platform files)
    (hst : (disk.opened job.platform g files).WellFormed) (hv : piece.Valid sha1 g hashes) :
    (disk.writePiece job.platform g files piece.index piece.data).1 = .ok () := by
  obtain ⟨st', hok, -⟩ := writePiece_hashed hst hv
  rw [writePiece_opened hdiffer] at hok
  exact (Prod.mk.inj hok).1

/-- A file created in its turn has its length, and so have those before it. -/
theorem sized_preallocate (hdiffer : PathsDiffer job.platform files) {opened : Nat}
    {file : MappedFile} (hf : files[opened]? = some file)
    (hs : Sized job.platform (files.take opened) disk) :
    Sized job.platform (files.take (opened + 1)) (disk.preallocate job.platform file) := by
  intro f hmem
  obtain ⟨j, hj⟩ := List.mem_iff_getElem?.mp hmem
  rw [List.getElem?_take] at hj
  split at hj
  · rename_i hlt
    by_cases he : j = opened
    · rw [he, hf] at hj
      obtain rfl := Option.some.inj hj
      exact length_preallocate file
    · have hbefore : f ∈ files.take opened :=
        List.mem_iff_getElem?.mpr ⟨j, by rw [List.getElem?_take, if_pos (by omega), hj]⟩
      have hne := hdiffer.ne (Ne.symm he) hf hj
      rw [FileSystem.read, preallocate_of_ne hne]
      exact hs f hbefore
  · cases hj

end Disk

section Running

variable {sha1 : List UInt8 → List UInt8} {job : Job} {g : Geometry}

theorem toOption_eq_some_iff {ε α : Type} {x : Except ε α} {a : α} :
    x.toOption = some a ↔ x = .ok a := by
  cases x <;> simp [Except.toOption]

/-- What `main` finds out before the disk is touched. -/
theorem Job.launch_eq_some {answers : Answers} {peers : List SocketAddr} {g' : Geometry}
    {files' : List MappedFile} (h : job.launch answers = some (peers, g', files')) :
    Geometry.fromInfo job.metainfo.info = .ok g' ∧
      buildFileMap job.metainfo job.platform job.output = .ok files' := by
  obtain ⟨total, -, h⟩ := Option.bind_eq_some_iff.mp h
  obtain ⟨peers', -, h⟩ := Option.bind_eq_some_iff.mp h
  obtain ⟨g₁, hg, h⟩ := Option.bind_eq_some_iff.mp h
  obtain ⟨files₁, hf, h⟩ := Option.bind_eq_some_iff.mp h
  obtain ⟨-, rfl, rfl⟩ := Option.some.inj h
  exact ⟨toOption_eq_some_iff.mp hg, toOption_eq_some_iff.mp hf⟩

/-- Spawning tasks leaves the channel as it is. -/
theorem exec_spawn {c : Coordinator} {peers : List SocketAddr} {w w' : Swarm}
    (h : (c.system sha1).exec w (peers.map .spawn) = some w') :
    w'.shared.completed = w.shared.completed := by
  induction peers generalizing w with
  | nil =>
    obtain rfl := Option.some.inj h
    rfl
  | cons addr peers ih =>
    rw [List.map_cons, System.exec] at h
    obtain ⟨w₁, hs, h⟩ := Option.bind_eq_some_iff.mp h
    obtain ⟨c', p, hspawn, rfl⟩ := PoolProgram.poolStep_spawn hs
    obtain ⟨rfl, -⟩ := swarm_spawn hspawn
    exact (ih h).trans rfl

/-- A fresh run is one. -/
theorem running_spawnAll {c : Coordinator} {peerId : List UInt8} {peers : List SocketAddr}
    {swarm : Swarm} (hc : Coordinator.new job.metainfo.info job.infoHash peerId = .ok c)
    (hr : spawnAll sha1 c peers = some swarm) :
    Running sha1 job swarm ∧ swarm.shared.completed.received = [] := by
  have hsame := exec_spawn hr
  have hreach : (c.system sha1).Reachable swarm := System.Reachable.init.exec _ hr
  refine ⟨⟨c, peerId, hc, hreach, ?_⟩, ?_⟩
  · rw [hsame]
    rfl
  · rw [hsame]
    rfl

/-- The tasks only put pieces on the channel. -/
theorem Running.session {swarm swarm' : Swarm} {k : Nat} {ev : SessionEvent}
    (h : Running sha1 job swarm)
    (hp : (Download.swarm sha1).poolStep swarm (.proc k ev) = some swarm') :
    Running sha1 job swarm' ∧
      swarm'.shared.completed.received = swarm.shared.completed.received := by
  obtain ⟨c, peerId, hc, hr, ha⟩ := h
  have hr' : (c.system sha1).Reachable swarm' := System.Reachable.step (e := .proc k ev) hr hp
  obtain ⟨p, c', p', -, hs, rfl⟩ := PoolProgram.poolStep_proc hp
  have hq : c'.completed.receiverAlive = swarm.shared.completed.receiverAlive ∧
      c'.completed.received = swarm.shared.completed.received := by
    rcases (Session.step_cases hs).completed with hq | ⟨piece, complete, -, -, hq⟩
    · rw [hq]
      exact ⟨rfl, rfl⟩
    · rw [hq, Queue.send, if_pos ha]
      exact ⟨rfl, rfl⟩
  exact ⟨⟨c, peerId, hc, hr', hq.1.trans ha⟩, hq.2⟩

/-- The disk writer takes the piece it writes. -/
theorem Running.receive {swarm swarm' : Swarm} {piece : VerifiedPiece} {rest : List VerifiedPiece}
    (h : Running sha1 job swarm) (hq : swarm.shared.completed.pending = piece :: rest)
    (hp : (Download.swarm sha1).poolStep swarm (.env .receive) = some swarm') :
    Running sha1 job swarm' ∧
      swarm'.shared.completed.received = swarm.shared.completed.received ++ [piece] := by
  obtain ⟨c, peerId, hc, hr, ha⟩ := h
  have hr' : (c.system sha1).Reachable swarm' := System.Reachable.step (e := .env .receive) hr hp
  obtain ⟨c', hs, rfl⟩ := PoolProgram.poolStep_env hp
  obtain ⟨completed, hrecv, rfl⟩ := Option.map_eq_some_iff.mp hs
  rw [Queue.recv, ha, hq] at hrecv
  obtain rfl := Option.some.inj hrecv
  exact ⟨⟨c, peerId, hc, hr', rfl⟩, rfl⟩

/-- A run that is over with the torrent complete has delivered every piece. -/
theorem Running.complete {swarm : Swarm} (h : Running sha1 job swarm)
    (hg : Geometry.fromInfo job.metainfo.info = .ok g)
    (hall : ∀ p ∈ swarm.procs, p.subscribed = false)
    (hq : swarm.shared.completed.pending = []) (hd : swarm.shared.tracker.isComplete = true)
    {i : Nat} (hi : i < g.numPieces) :
    ∃ piece ∈ swarm.shared.completed.received, piece.index = i := by
  obtain ⟨c, peerId, hc, hr, ha⟩ := h
  obtain ⟨hg', -⟩ := Coordinator.new_eq_ok hc
  obtain rfl : g = c.geometry := Except.ok.inj (hg.symm.trans hg')
  have hdrained : Drained swarm := by
    refine ⟨ha, hq, fun p hp piece complete hph => ?_⟩
    have hsub := hall p hp
    rw [Session.subscribed, hph] at hsub
    cases hsub
  exact List.mem_map.mp (mem_received_of_drained hc hr hd hdrained hi)

end Running

/-! ## Pieces on their way to the disk -/

section Writing

variable {sha1 : List UInt8 → List UInt8} {job : Job} {g : Geometry} {files : List MappedFile}
  {hashes : List (List UInt8)} {disk : FileSystem} {swarm swarm' : Swarm}
  {unwritten : List (Stretch UInt8)} {w : Stretch UInt8} {piece : VerifiedPiece} {i j a n : Nat}

/-- What the tasks do leaves the writes as they are. -/
theorem Writing.session {k : Nat} {ev : SessionEvent}
    (h : Writing sha1 job g files disk swarm unwritten)
    (hp : (Download.swarm sha1).poolStep swarm (.proc k ev) = some swarm') :
    Writing sha1 job g files disk swarm' unwritten := by
  obtain ⟨hrunning, hreceived⟩ := h.running.session hp
  refine ⟨h.sized, hrunning, ?_, ?_⟩
  · rw [hreceived]
    exact h.settling
  · rw [hreceived]
    exact h.inside

variable (hg : Geometry.fromInfo job.metainfo.info = .ok g)
  (hf : buildFileMap job.metainfo job.platform job.output = .ok files)
  (hh : job.metainfo.info.pieceHashes = .ok hashes)

/-- What it takes for piece `i` to be on disk. -/
theorem hashedOnDisk_iff : HashedOnDisk sha1 hashes (disk.opened job.platform g files) i ↔
    hashes[i]? = some (sha1 (((disk.opened job.platform g files).content.drop
      (g.pieceOffset i)).take (g.pieceLengthOf i))) := Iff.rfl

include hg in
include hf in
/-- The content on disk is of the torrent's length, with room for every piece. -/
theorem Writing.fits (h : Writing sha1 job g files disk swarm unwritten) (hi : i < g.numPieces) :
    g.pieceOffset i + g.pieceLengthOf i ≤ (disk.opened job.platform g files).content.length := by
  have hwf := opened_wellFormed hg hf h.sized
  rw [hwf.length_content]
  exact hwf.geometry.pieceOffset_add_le hi

include hg hh

/-- A piece that is received is valid. -/
theorem Writing.valid (h : Writing sha1 job g files disk swarm unwritten)
    (hm : piece ∈ swarm.shared.completed.received) : piece.Valid sha1 g hashes :=
  h.running.valid hg hh (List.mem_append_left _ hm)

/-- A stretch that meets the region of a piece is part of that piece, which was received. -/
theorem Writing.received_of_meets (h : Writing sha1 job g files disk swarm unwritten)
    (hw : w ∈ unwritten) (hi : i < g.numPieces)
    (hm : w.Meets (g.pieceOffset i) (g.pieceLengthOf i)) :
    ∃ piece ∈ swarm.shared.completed.received, piece.index = i := by
  obtain ⟨piece, hreceived, hinside⟩ := h.inside w hw
  have hv := h.valid hg hh hreceived
  refine ⟨piece, hreceived, by_contra fun hne => ?_⟩
  rw [hv.length_data] at hinside
  have hapart := apart_of_ne (Geometry.fromInfo_wellFormed hg) hv.index_lt hi hne
  exact hinside.not_meets hapart hm

/-- A received piece of which nothing is on its way is on disk. -/
theorem Writing.kept (h : Writing sha1 job g files disk swarm unwritten)
    (hm : piece ∈ swarm.shared.completed.received)
    (hnone : ∀ w ∈ unwritten,
      ¬w.Meets (g.pieceOffset piece.index) (g.pieceLengthOf piece.index)) :
    Kept sha1 job g files hashes piece.index disk := by
  have hv := h.valid hg hh hm
  refine ⟨hv.index_lt, h.sized, ?_⟩
  rw [← hv.length_data] at hnone
  have hread := (h.settling piece hm).read hnone
  rw [hv.length_data] at hread
  rw [hashedOnDisk_iff, hread]
  exact hv.hash

include hf

/-- The next piece of the channel is handed over. -/
theorem Writing.write {rest : List VerifiedPiece}
    (h : Writing sha1 job g files disk swarm unwritten)
    (hq : swarm.shared.completed.pending = piece :: rest)
    (hp : (Download.swarm sha1).poolStep swarm (.env .receive) = some swarm') :
    Writing sha1 job g files disk swarm'
      (unwritten ++ [⟨g.pieceOffset piece.index, piece.data⟩]) := by
  obtain ⟨hrunning, hreceived⟩ := h.running.receive hq hp
  have hwf := Geometry.fromInfo_wellFormed hg
  have hv : piece.Valid sha1 g hashes :=
    h.running.valid hg hh (List.mem_append_right _ (hq ▸ List.mem_cons_self))
  -- the pieces received before are others
  have hnew : ∀ q ∈ swarm.shared.completed.received, q.index ≠ piece.index := by
    intro q hm
    have hnodup := h.running.nodup
    rw [Queue.sent, hq, List.map_append, List.map_cons] at hnodup
    exact (List.nodup_append.mp hnodup).2.2 _ (List.mem_map_of_mem hm) _ List.mem_cons_self
  have hfits : g.pieceOffset piece.index + piece.data.length ≤
      (disk.opened job.platform g files).content.length := by
    rw [hv.length_data]
    exact h.fits hg hf hv.index_lt
  refine ⟨h.sized, hrunning, fun q hm => ?_, fun w hw => ?_⟩
  · rw [hreceived] at hm
    rcases List.mem_append.mp hm with hm | hm
    · refine (h.settling q hm).push ?_
      have hvq := h.valid hg hh hm
      have hapart := apart_of_ne hwf hv.index_lt hvq.index_lt (hnew q hm).symm
      rw [← hv.length_data, ← hvq.length_data] at hapart
      exact Stretch.Inside.not_meets ⟨Nat.le_refl _, Nat.le_refl _⟩ hapart
    · obtain rfl := List.mem_singleton.mp hm
      refine Settling.self hfits fun w hw hmeets => ?_
      rw [hv.length_data] at hmeets
      obtain ⟨q, hm, hi⟩ := h.received_of_meets hg hh hw hv.index_lt hmeets
      exact hnew q hm hi
  · rw [hreceived]
    rcases List.mem_append.mp hw with hw | hw
    · obtain ⟨q, hm, hinside⟩ := h.inside w hw
      exact ⟨q, List.mem_append_left _ hm, hinside⟩
    · obtain rfl := List.mem_singleton.mp hw
      exact ⟨piece, List.mem_append_right _ List.mem_cons_self, Nat.le_refl _, Nat.le_refl _⟩

/-- What lands is one write on the content. -/
theorem Writing.landing (hdiffer : PathsDiffer job.platform files)
    (h : Writing sha1 job g files disk swarm unwritten) (hw : w ∈ unwritten)
    (hle : a + n ≤ w.data.length) :
    Sized job.platform files
        (disk.writeRegion job.platform files (w.part a n).start (w.part a n).data) ∧
      ((disk.writeRegion job.platform files (w.part a n).start (w.part a n).data).opened
          job.platform g files).content =
        overlay 0 (w.part a n).start (w.part a n).data
          (disk.opened job.platform g files).content := by
  obtain ⟨piece, hm, hinside⟩ := h.inside w hw
  have hv := h.valid hg hh hm
  have hwf := opened_wellFormed hg hf h.sized
  have hend : (w.part a n).start + (w.part a n).data.length ≤ g.totalLength := by
    refine (hinside.part hle).2.trans ?_
    rw [hv.length_data]
    exact hwf.geometry.pieceOffset_add_le hv.index_lt
  obtain ⟨hwf', hcontent⟩ := writeRegion_content hdiffer hwf hend
  exact ⟨sized_of_wellFormed hwf', hcontent⟩

/-- Bytes of a piece land. -/
theorem Writing.land (hdiffer : PathsDiffer job.platform files)
    (h : Writing sha1 job g files disk swarm unwritten) (hw : unwritten[j]? = some w)
    (hle : a + n ≤ w.data.length) :
    Writing sha1 job g files
      (disk.writeRegion job.platform files (w.part a n).start (w.part a n).data) swarm
      (afterLanding unwritten j a n) := by
  obtain ⟨hsized, hcontent⟩ := h.landing hg hf hh hdiffer (List.mem_of_getElem? hw) hle
  refine ⟨hsized, h.running, fun piece hm => ?_, fun x hx => ?_⟩
  · rw [hcontent]
    exact (h.settling piece hm).land hw a n
  · rcases mem_afterLanding hw hx with hx | hx
    · obtain ⟨piece, hm, hinside⟩ := h.inside w (List.mem_of_getElem? hw)
      exact ⟨piece, hm, hinside.rest hx⟩
    · exact h.inside x hx

/-- A piece that is kept stays kept when other bytes land, or when only one content has its
hash. -/
theorem Writing.kept_of_land (hdiffer : PathsDiffer job.platform files)
    (h : Writing sha1 job g files disk swarm unwritten) (hw : w ∈ unwritten)
    (hle : a + n ≤ w.data.length) (hk : Kept sha1 job g files hashes i disk)
    (hsafe : ¬(w.part a n).Meets (g.pieceOffset i) (g.pieceLengthOf i) ∨
      OneContent sha1 g hashes i) :
    Kept sha1 job g files hashes i
      (disk.writeRegion job.platform files (w.part a n).start (w.part a n).data) := by
  obtain ⟨hsized, hcontent⟩ := h.landing hg hf hh hdiffer hw hle
  have hhashed := hashedOnDisk_iff.mp hk.hashed
  refine ⟨hk.lt, hsized, hashedOnDisk_iff.mpr ?_⟩
  rw [hcontent, read_overlay_of_agrees fun p hp hc => ?_]
  · exact hhashed
  have hmeets : (w.part a n).Meets (g.pieceOffset i) (g.pieceLengthOf i) :=
    ⟨_, Nat.le_add_right _ _, Nat.add_lt_add_left hp _, hc⟩
  have hone := hsafe.resolve_left (not_not_intro hmeets)
  have hwhole : w.Meets (g.pieceOffset i) (g.pieceLengthOf i) :=
    ⟨_, Nat.le_add_right _ _, Nat.add_lt_add_left hp _, hc.of_part⟩
  -- the bytes that land are those of the only content
  obtain ⟨piece, hm, rfl⟩ := h.received_of_meets hg hh hw hk.lt hwhole
  have hv := h.valid hg hh hm
  have hfits := h.fits hg hf hk.lt
  have hlen : (((disk.opened job.platform g files).content.drop
      (g.pieceOffset piece.index)).take (g.pieceLengthOf piece.index)).length =
        g.pieceLengthOf piece.index := by
    rw [List.length_take, List.length_drop]
    omega
  have hsame := hone piece.data _ hv.length_data hlen hv.hash hhashed
  calc (w.part a n).data[g.pieceOffset piece.index + p - (w.part a n).start]?
    _ = w.data[g.pieceOffset piece.index + p - w.start]? := Stretch.getElem?_part hc
    _ = piece.data[p]? := (h.settling piece hm).agrees w hw p (hv.length_data ▸ hp) hc.of_part
    _ = _ := by rw [hsame, List.getElem?_take_of_lt hp, List.getElem?_drop]

end Writing

/-! ## One step of the client -/

/-- What is known of the client on a disk: where its incarnation is, and that it only touched
its own files. -/
structure Host.Inv (sha1 : List UInt8 → List UInt8) (job : Job) (g : Geometry)
    (files : List MappedFile) (hashes : List (List UInt8)) (disk₀ : FileSystem) (s : Host) :
    Prop where
  stage : s.stage.Inv sha1 job g files hashes s.disk
  frame : ∀ path, (∀ file ∈ files, file.path.components job.platform ≠ path) →
    s.disk path = disk₀ path

section Step

variable {sha1 : List UInt8 → List UInt8} {job : Job} {g : Geometry} {files : List MappedFile}
  {hashes : List (List UInt8)} {disk₀ : FileSystem} {s s' : Host} {e : ClientEvent}
  (hg : Geometry.fromInfo job.metainfo.info = .ok g)
  (hf : buildFileMap job.metainfo job.platform job.output = .ok files)
  (hh : job.metainfo.info.pieceHashes = .ok hashes) (hdiffer : PathsDiffer job.platform files)
include hg hf hh hdiffer

/-- The disk writer does not fail. -/
theorem Host.Inv.writePiece_ok {g' : Geometry} {files' : List MappedFile} {swarm : Swarm}
    {unwritten : List (Stretch UInt8)} {piece : VerifiedPiece} {rest : List VerifiedPiece}
    (hi : s.Inv sha1 job g files hashes disk₀)
    (hs : s.stage = .downloading g' files' swarm unwritten)
    (hq : swarm.shared.completed.pending = piece :: rest) :
    (s.disk.writePiece job.platform g' files' piece.index piece.data).1 = .ok () := by
  have hstage := hi.stage
  rw [hs] at hstage
  obtain ⟨rfl, rfl, hwriting⟩ := hstage
  have hv := hwriting.running.valid hg hh (List.mem_append_right _ (hq ▸ List.mem_cons_self))
  exact Client.writePiece_ok hdiffer (opened_wellFormed hg hf hwriting.sized) hv

/-- Every step keeps what is known of the client. -/
theorem Host.Inv.step (hi : s.Inv sha1 job g files hashes disk₀) (h : Job.Step sha1 job s e s') :
    s'.Inv sha1 job g files hashes disk₀ := by
  have hstage := hi.stage
  have hframe := hi.frame
  cases h with
  | booted peerId answers complete peers g' files' hs hl =>
    obtain ⟨hg', hf'⟩ := Job.launch_eq_some hl
    refine ⟨⟨Except.ok.inj (hg'.symm.trans hg), Except.ok.inj (hf'.symm.trans hf), ?_⟩, hframe⟩
    rw [List.take_zero]
    nofun
  | created peers peerId g' files' opened file hs hfile =>
    rw [hs] at hstage
    obtain ⟨rfl, rfl, hsized⟩ := hstage
    refine ⟨⟨rfl, rfl, sized_preallocate hdiffer hfile hsized⟩, fun path hpath => ?_⟩
    exact (preallocate_of_ne (hpath file (List.mem_of_getElem? hfile))).trans (hframe path hpath)
  | spawned peers peerId g' files' c swarm hs hc hr =>
    rw [hs] at hstage
    obtain ⟨rfl, rfl, hsized⟩ := hstage
    rw [List.take_length] at hsized
    obtain ⟨hrunning, hreceived⟩ := running_spawnAll hc hr
    refine ⟨⟨rfl, rfl, hsized, hrunning, ?_, nofun⟩, hframe⟩
    rw [hreceived]
    nofun
  | stepped g' files' swarm swarm' unwritten k ev hs hp =>
    rw [hs] at hstage
    obtain ⟨rfl, rfl, hwriting⟩ := hstage
    exact ⟨⟨rfl, rfl, hwriting.session hp⟩, hframe⟩
  | wrote g' files' swarm swarm' unwritten piece rest hs hq hp =>
    rw [hs] at hstage
    obtain ⟨rfl, rfl, hwriting⟩ := hstage
    exact ⟨⟨rfl, rfl, hwriting.write hg hf hh hq hp⟩, hframe⟩
  | writeFailed g' files' swarm unwritten piece rest disk err hs hq hw =>
    have hok := hi.writePiece_ok hg hf hh hdiffer hs hq
    rw [hw] at hok
    cases hok
  | landed g' files' swarm unwritten w j a n hs hw hle =>
    rw [hs] at hstage
    obtain ⟨rfl, rfl, hwriting⟩ := hstage
    refine ⟨⟨rfl, rfl, hwriting.land hg hf hh hdiffer hw hle⟩, fun path hpath => ?_⟩
    exact (writeRegion_of_notMem hpath _ _).trans (hframe path hpath)
  | finished g' files' swarm hs hall hq =>
    rw [hs] at hstage
    obtain ⟨rfl, rfl, hwriting⟩ := hstage
    refine ⟨fun hd i hi => ?_, hframe⟩
    obtain ⟨piece, hm, rfl⟩ := hwriting.running.complete hg hall hq hd hi
    exact hwriting.kept hg hh hm nofun
  | stopped e he => exact ⟨nofun, hframe⟩

/-- A kept piece stays kept until bytes of it land, and for ever when only one content has its
hash. -/
theorem Kept.step (hi : s.Inv sha1 job g files hashes disk₀) {i : Nat}
    (hk : Kept sha1 job g files hashes i s.disk) (h : Job.Step sha1 job s e s')
    (hsafe : ¬Lands g i ⟨s, e, s'⟩ ∨ OneContent sha1 g hashes i) :
    Kept sha1 job g files hashes i s'.disk := by
  have hstage := hi.stage
  cases h with
  | created peers peerId g' files' opened file hs hfile =>
    rw [hs] at hstage
    obtain ⟨rfl, rfl, -⟩ := hstage
    -- the file has its length already
    have hsame := preallocate_of_sized (hk.sized file (List.mem_of_getElem? hfile))
    exact hsame.symm ▸ hk
  | writeFailed g' files' swarm unwritten piece rest disk err hs hq hw =>
    have hok := hi.writePiece_ok hg hf hh hdiffer hs hq
    rw [hw] at hok
    cases hok
  | landed g' files' swarm unwritten w j a n hs hw hle =>
    rw [hs] at hstage
    obtain ⟨rfl, rfl, hwriting⟩ := hstage
    refine hwriting.kept_of_land hg hf hh hdiffer (List.mem_of_getElem? hw) hle hk ?_
    refine hsafe.imp_left fun hno hmeets => hno ⟨j, a, n, w, rfl, ?_, hmeets⟩
    rw [Host.unwritten, hs]
    exact hw
  | booted | spawned | stepped | wrote | finished | stopped => exact hk

/-- A piece is kept once the last of its bytes lands. -/
theorem Settles.kept (hi : s.Inv sha1 job g files hashes disk₀) {i : Nat} (hlt : i < g.numPieces)
    (h : Job.Step sha1 job s e s') (hsettles : Settles g i ⟨s, e, s'⟩) :
    Kept sha1 job g files hashes i s'.disk := by
  obtain ⟨⟨j, a, n, w, he, hw, hmeets⟩, hnone⟩ := hsettles
  have hstage := (hi.step hg hf hh hdiffer h).stage
  have hpre := hi.stage
  cases h with
  | landed g' files' swarm unwritten w' j' a' n' hs hw' hle =>
    rw [hs] at hpre
    obtain ⟨rfl, rfl, hwriting⟩ := hpre
    obtain ⟨-, -, hwriting'⟩ := hstage
    rw [Host.unwritten, hs] at hw
    have hmem := List.mem_of_getElem? hw
    obtain ⟨p, hlo, hhi, hc⟩ := hmeets
    obtain ⟨piece, hm, rfl⟩ :=
      hwriting.received_of_meets hg hh hmem hlt ⟨p, hlo, hhi, hc.of_part⟩
    exact hwriting'.kept hg hh hm hnone
  | stopped e hne => exact absurd he (hne j a n)
  | booted | created | spawned | stepped | wrote | writeFailed | finished => cases he

end Step

/-- What is on disk survives. Take a torrent whose files have different paths, any disk, and
any number of incarnations of the client on it, each with any trackers, peers and
interleaving, killed at any moment. When the last bytes of a piece that are on their way reach
the disk, the piece has its expected hash there, and has it from then on until bytes of that
same piece land again, and for ever when only one content has that hash; no other file of the
disk changes; and when `main` reports a complete download, every piece is on disk. -/
theorem written_pieces_survive {sha1 : List UInt8 → List UInt8} {job : Job} {g : Geometry}
    {files : List MappedFile} {hashes : List (List UInt8)} {disk₀ : FileSystem}
    (hg : Geometry.fromInfo job.metainfo.info = .ok g)
    (hf : buildFileMap job.metainfo job.platform job.output = .ok files)
    (hh : job.metainfo.info.pieceHashes = .ok hashes) (hdiffer : PathsDiffer job.platform files)
    {run : List (Transition Host ClientEvent)} {s : Host}
    (hr : (job.system sha1 disk₀).History run s) :
    (∀ before t after, run = before ++ t :: after → ∀ i < g.numPieces, Settles g i t →
      (∀ u ∈ after, ¬Lands g i u) ∨ OneContent sha1 g hashes i →
        HashedOnDisk sha1 hashes (s.disk.opened job.platform g files) i) ∧
      (∀ path, (∀ file ∈ files, file.path.components job.platform ≠ path) →
        s.disk path = disk₀ path) ∧
      (s.stage = .ended true → ∀ i < g.numPieces,
        HashedOnDisk sha1 hashes (s.disk.opened job.platform g files) i) := by
  have hinv : ∀ {s}, (job.system sha1 disk₀).Reachable s → s.Inv sha1 job g files hashes disk₀ := by
    intro s hreach
    refine hreach.invariant (P := fun s => s.Inv sha1 job g files hashes disk₀) ?_ ?_
    · exact ⟨nofun, fun _ _ => rfl⟩
    · exact fun s e s' _ hi hs => hi.step hg hf hh hdiffer (Job.step_cases hs)
  refine ⟨fun before t after hsplit i hi hsettles hsafe => ?_, (hinv ⟨run, hr⟩).frame, ?_⟩
  · have hmem : t ∈ run := hsplit ▸ List.mem_append_right _ List.mem_cons_self
    obtain ⟨hpre, -, hstep⟩ := hr.mem hmem
    have hpost :=
      Settles.kept hg hf hh hdiffer (hinv hpre) hi (Job.step_cases hstep) hsettles
    rcases hr.holds_or_ended (P := fun s => Kept sha1 job g files hashes i s.disk) hsplit hpost with
      hk | ⟨u, hu, hk, hlost⟩
    · exact hk.hashed
    · have hmem' : u ∈ run := hsplit ▸ List.mem_append_right _ (List.mem_cons_of_mem _ hu)
      obtain ⟨hpre', -, hstep'⟩ := hr.mem hmem'
      have hsafe' := hsafe.imp_left fun hno => hno u hu
      exact absurd
        (hk.step hg hf hh hdiffer (hinv hpre') (Job.step_cases hstep') hsafe') hlost
  · intro hs i hi
    have hstage := (hinv ⟨run, hr⟩).stage
    rw [hs] at hstage
    exact (hstage rfl i hi).hashed

/-- The torrent of two pieces with one tracker. -/
def twoPiecesJob : Job := ⟨⟨twoPiecesInfo⟩, ⟨some "t", none⟩, [], .unix, "/x"⟩

/-- The tracker names one peer. -/
def onePeer : Answers := fun _ => .ok ⟨0, [.v4 0 0], none, none⟩

/-- The peer delivers both pieces. -/
def bothDelivered : Trace :=
  List.flatten [Trace.join 0, Trace.deliver 0 (.bitfield [0xC0]), Trace.take 0,
    [.proc 0 (.recv (.ok (some (.piece ⟨0, 0, [0x61]⟩)))), .proc 0 .emit, .proc 0 .poll,
      .proc 0 .proceed, .proc 0 (.request (.ok ())), .proc 0 .refilled,
      .proc 0 (.recv (.ok (some (.piece ⟨1, 0, [0x61]⟩)))), .proc 0 .emit]]

/-- An incarnation receives both pieces and hands them to the file. -/
def firstIncarnation : List ClientEvent :=
  List.flatten [[.boot [] onePeer, .create (.ok ()), .run],
    bothDelivered.filterMap fun
      | .proc k e => some (.session k e)
      | _ => none,
    [.write, .write]]

/-- The process is killed once the first piece has landed, and started again. -/
def restart : List ClientEvent := [.kill, .boot [] onePeer, .create (.ok ())]

/-- The piece that had landed is there after the restart, the other one is lost. -/
theorem written_pieces_survive_twoPieces : ∃ run s,
    (twoPiecesJob.system sha1OfA fun _ => []).History run s ∧
      s.disk.read .unix ⟨"/x/b", 2, 0⟩ = [0x61, 0] ∧
      HashedOnDisk sha1OfA [digestOfA, digestOfA]
        (s.disk.opened .unix ⟨2, 1, 2, 1⟩ [⟨"/x/b", 2, 0⟩]) 0 := by
  let sys := twoPiecesJob.system sha1OfA fun _ => []
  obtain ⟨s₀, hr₀, hpre, s₁, hland, hpost, hrest⟩ := System.History.exists_of_exec sys
    (P := fun s => s.unwritten = [⟨0, [0x61]⟩, ⟨1, [0x61]⟩] ∧
      ∃ s₁ ∈ sys.step s (.land 0 0 1), s₁.unwritten = [⟨1, [0x61]⟩] ∧
        (sys.exec s₁ restart).any
          (fun s => decide (s.disk.read .unix ⟨"/x/b", 2, 0⟩ = [0x61, 0])) = true)
    firstIncarnation (by decide +kernel)
  obtain ⟨s, hs, hread⟩ := (Option.any_eq_true ..).mp hrest
  have hr := System.History.recorded (hr₀.snoc trivial hland) restart hs
  refine ⟨_, s, hr, of_decide_eq_true hread, ?_⟩
  have hf : buildFileMap ⟨twoPiecesInfo⟩ .unix "/x" = .ok [⟨"/x/b", 2, 0⟩] := by decide +kernel
  have hg : Geometry.fromInfo twoPiecesInfo = .ok ⟨2, 1, 2, 1⟩ := by decide
  have hh : twoPiecesInfo.pieceHashes = .ok [digestOfA, digestOfA] := by decide
  have hkept := (written_pieces_survive hg hf hh (List.pairwise_singleton ..) hr).1
  refine hkept _ ⟨s₀, .land 0 0 1, s₁⟩ _ (List.append_assoc ..) 0 (by decide) ⟨?_, ?_⟩ (.inl ?_)
  · exact ⟨0, 0, 1, ⟨0, [0x61]⟩, rfl, by rw [hpre]; rfl, 0, by decide, by decide, by decide,
      by decide⟩
  · rintro w hw ⟨p, -, hhi, hlo, -⟩
    rw [hpost] at hw
    obtain rfl := List.mem_singleton.mp hw
    exact absurd (hlo.trans_lt hhi) (by decide)
  · rintro u hu ⟨j, a, n, w, he, -⟩
    have hmem := System.event_mem_of_recorded hu
    rw [he] at hmem
    simp [restart] at hmem

end Torrentina.Client
