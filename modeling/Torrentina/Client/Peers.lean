import Torrentina.Core.Distinct
import Torrentina.Error
import Torrentina.Tracker.Types

/-!
# Asking trackers for peers

The trackers of a torrent are asked in order until one of them names a peer. The
answers of trackers are parameters: each may fail, or name any peers, the same ones
several times.
-/

namespace Torrentina.Client

open Torrentina.Core Tracker

/-- The tracker fields of `Metainfo`. -/
structure Trackers where
  announce : Option String
  announceList : Option (List (List String))

/-- What a tracker answers. -/
abbrev Answers := String → Except Error AnnounceResponse

namespace Trackers

/-- Every announce URL of a torrent, as the fields list them. -/
def urls (t : Trackers) : List String := t.announce.toList ++ (t.announceList.getD []).flatten

/-- `Metainfo::all_trackers`: the URLs without repetitions. -/
def allTrackers (t : Trackers) : List String :=
  let first :=
    match t.announce with
    | some announce => pushNew (∅, []) announce
    | none => (∅, [])
  match t.announceList with
  | some tiers => (tiers.foldl (fun acc tier => tier.foldl pushNew acc) first).2
  | none => first.2

end Trackers

/-- The loop of `collect_peers` over the trackers. -/
def collectFrom (answers : Answers) (acc : Finset SocketAddr × List SocketAddr) :
    List String → Finset SocketAddr × List SocketAddr
  | [] => acc
  | url :: rest =>
    match answers url with
    | .ok resp =>
      let acc' := resp.peers.foldl pushNew acc
      if !acc'.2.isEmpty then acc' else collectFrom answers acc' rest
    | .error _ => collectFrom answers acc rest

/-- Try each tracker in turn, until there are some peers. -/
def collectPeers (t : Trackers) (answers : Answers) : Except String (List SocketAddr) :=
  let peers := (collectFrom answers (∅, []) t.allTrackers).2
  if peers.isEmpty then .error "no peers returned by any tracker" else .ok peers

section Collect

variable {t : Trackers} {answers : Answers}

/-- The trackers asked are the first occurrences of the URLs. -/
theorem Trackers.allTrackers_eq (t : Trackers) : t.allTrackers = t.urls.eraseDups := by
  have hflat : ∀ (tiers : List (List String)) acc,
      tiers.foldl (fun acc tier => tier.foldl pushNew acc) acc = tiers.flatten.foldl pushNew acc :=
    fun tiers acc => List.foldl_flatten.symm
  rw [← foldl_pushNew_empty, urls, List.foldl_append, allTrackers]
  cases t.announce <;> cases t.announceList <;> simp [hflat]

/-- A tracker that fails or names nobody. -/
def Silent (answers : Answers) (url : String) : Prop :=
  ∀ resp, answers url = .ok resp → resp.peers = []

/-- A silent tracker is passed over. -/
theorem collectFrom_silent {url : String} (h : Silent answers url) (rest : List String) :
    collectFrom answers (∅, []) (url :: rest) = collectFrom answers (∅, []) rest := by
  rw [collectFrom]
  cases ha : answers url with
  | error e => rfl
  | ok resp =>
    simp only [h resp ha]
    rfl

/-- The first tracker that names somebody decides. -/
theorem collectFrom_first {before : List String} (hbefore : ∀ url ∈ before, Silent answers url)
    {url : String} {resp : AnnounceResponse} (ha : answers url = .ok resp) (hne : resp.peers ≠ [])
    (rest : List String) :
    (collectFrom answers (∅, []) (before ++ url :: rest)).2 = resp.peers.eraseDups := by
  induction before with
  | nil =>
    have hsome : resp.peers.eraseDups ≠ [] := fun h => hne (eraseDups_eq_nil_iff.mp h)
    rw [List.nil_append, collectFrom, ha]
    simp only [foldl_pushNew_empty]
    rw [if_pos (by simpa using hsome), foldl_pushNew_empty]
  | cons b before ih =>
    rw [List.cons_append, collectFrom_silent (hbefore b List.mem_cons_self)]
    exact ih fun u hu => hbefore u (List.mem_cons_of_mem _ hu)

/-- Silent trackers give nothing. -/
theorem collectFrom_all_silent {urls : List String} (h : ∀ url ∈ urls, Silent answers url) :
    collectFrom answers (∅, []) urls = (∅, []) := by
  induction urls with
  | nil => rfl
  | cons url urls ih =>
    rw [collectFrom_silent (h url List.mem_cons_self)]
    exact ih fun u hu => h u (List.mem_cons_of_mem _ hu)

/-- All trackers of a list are silent, or one of them is the first that is not. -/
theorem silent_or_first (answers : Answers) (urls : List String) :
    (∀ url ∈ urls, Silent answers url) ∨
    ∃ before url rest resp, urls = before ++ url :: rest ∧ (∀ u ∈ before, Silent answers u) ∧
      answers url = .ok resp ∧ resp.peers ≠ [] := by
  induction urls with
  | nil => exact .inl nofun
  | cons url urls ih =>
    by_cases hurl : Silent answers url
    · rcases ih with h | ⟨before, url', rest, resp, rfl, hb, ha, hne⟩
      · exact .inl (List.forall_mem_cons.mpr ⟨hurl, h⟩)
      · exact .inr ⟨url :: before, url', rest, resp, rfl, List.forall_mem_cons.mpr ⟨hurl, hb⟩, ha,
        hne⟩
    · unfold Silent at hurl
      push Not at hurl
      obtain ⟨resp, ha, hne⟩ := hurl
      exact .inr ⟨[], url, urls, resp, rfl, nofun, ha, hne⟩

/-- With a first tracker that names somebody, its peers are the result. -/
theorem collectPeers_of_first {before rest : List String} {url : String} {resp : AnnounceResponse}
    (hsplit : t.urls.eraseDups = before ++ url :: rest) (hb : ∀ u ∈ before, Silent answers u)
    (ha : answers url = .ok resp) (hne : resp.peers ≠ []) :
    collectPeers t answers = .ok resp.peers.eraseDups := by
  have hsome : resp.peers.eraseDups ≠ [] := fun h => hne (eraseDups_eq_nil_iff.mp h)
  unfold collectPeers
  rw [t.allTrackers_eq, hsplit, collectFrom_first hb ha hne]
  exact if_neg (by simpa using hsome)

/-- With silent trackers only, there are no peers. -/
theorem collectPeers_of_silent (h : ∀ url ∈ t.urls, Silent answers url) :
    collectPeers t answers = .error "no peers returned by any tracker" := by
  unfold collectPeers
  rw [t.allTrackers_eq, collectFrom_all_silent fun url hu => h url (List.mem_eraseDups.mp hu)]
  rfl

/-- The peers are those of the first tracker that names any, the trackers taken in the order of
the torrent and each once, without repetitions; and there are none exactly when every tracker
fails or names nobody. -/
theorem peers_of_first_tracker (t : Trackers) (answers : Answers) :
    (∀ peers, collectPeers t answers = .ok peers ↔ ∃ before url rest resp,
      t.urls.eraseDups = before ++ url :: rest ∧ (∀ u ∈ before, Silent answers u) ∧
        answers url = .ok resp ∧ resp.peers ≠ [] ∧ peers = resp.peers.eraseDups) ∧
      (collectPeers t answers = .error "no peers returned by any tracker" ↔
        ∀ url ∈ t.urls, Silent answers url) := by
  have hback : ∀ peers, (∃ before url rest resp, t.urls.eraseDups = before ++ url :: rest ∧
      (∀ u ∈ before, Silent answers u) ∧ answers url = .ok resp ∧ resp.peers ≠ [] ∧
        peers = resp.peers.eraseDups) → collectPeers t answers = .ok peers := by
    rintro peers ⟨before, url, rest, resp, hsplit, hb, ha, hne, rfl⟩
    exact collectPeers_of_first hsplit hb ha hne
  rcases silent_or_first answers t.urls.eraseDups with hall |
    ⟨before, url, rest, resp, hsplit, hb, ha, hne⟩
  · have hall' : ∀ url ∈ t.urls, Silent answers url := fun url hu =>
      hall url (List.mem_eraseDups.mpr hu)
    have herror := collectPeers_of_silent hall'
    refine ⟨fun peers => ⟨fun hok => ?_, hback peers⟩, fun _ => hall', fun _ => herror⟩
    rw [herror] at hok
    cases hok
  · have hok := collectPeers_of_first hsplit hb ha hne
    refine ⟨fun peers => ⟨fun hok' => ?_, hback peers⟩, fun herror => ?_, collectPeers_of_silent⟩
    · rw [hok] at hok'
      exact ⟨before, url, rest, resp, hsplit, hb, ha, hne, (Except.ok.inj hok').symm⟩
    · rw [hok] at herror
      cases herror

end Collect

end Torrentina.Client
