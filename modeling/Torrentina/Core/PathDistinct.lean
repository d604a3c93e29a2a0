import Torrentina.Core.PathExact

/-!
# Different names, different paths

Two lists of plain names pushed onto one buffer give the same components exactly
when they are the same from their last name with a prefix on, or, without such a
name, the same. The buffer does not matter for this, even where it stops inside
a prefix: the names read into the prefix can be told from it.
-/

namespace Torrentina.Core.Path

/-- Names that `push` appends. -/
def Appended (platform : Platform) (es : List (List Char)) : Prop :=
  ∀ e ∈ es, Plain e ∧ parsePrefix platform e = none

/-- Different names pushed onto `s` give different components. -/
def Telling (s : List Char) : Prop :=
  ∀ es fs, Appended .windows es → Appended .windows fs →
    components .windows (es.foldl (push .windows) s) =
      components .windows (fs.foldl (push .windows) s) → es = fs

/-- The components of names tell which names they are. -/
theorem map_asNormal_inj {es fs : List (List Char)} (h : es.map asNormal = fs.map asNormal) :
    es = fs := by
  exact List.map_injective_iff.mpr (fun _ _ => asNormal_inj) h

/-- A complete path tells the names pushed on it apart. -/
theorem Complete.telling {s : List Char} (h : Complete .windows s) : Telling s := by
  intro es fs hes hfs heq
  rw [h.foldl_push hes, h.foldl_push hfs] at heq
  exact map_asNormal_inj (List.append_cancel_left heq)

/-- A buffer tells names apart when its first name can be told, and the buffer
with it tells the others apart. -/
theorem Telling.of_push {s : List Char}
    (hpush : ∀ e, Plain e → parsePrefix .windows e = none → Telling (push .windows s e))
    (hback : ∀ e es, Appended .windows (e :: es) →
      components .windows ((e :: es).foldl (push .windows) s) ≠ components .windows s)
    (hfirst : ∀ e f es fs, Appended .windows (e :: es) → Appended .windows (f :: fs) →
      components .windows ((e :: es).foldl (push .windows) s) =
        components .windows ((f :: fs).foldl (push .windows) s) → e = f) : Telling s := by
  intro es fs hes hfs heq
  match es, fs, hes, hfs, heq with
  | [], [], _, _, _ => rfl
  | [], f :: fs, _, hfs, heq => exact absurd heq.symm (hback f fs hfs)
  | e :: es, [], hes, _, heq => exact absurd heq (hback e es hes)
  | e :: es, f :: fs, hes, hfs, heq =>
    obtain rfl := hfirst e f es fs hes hfs heq
    obtain ⟨⟨he, hd⟩, hes⟩ := List.forall_mem_cons.mp hes
    obtain ⟨-, hfs⟩ := List.forall_mem_cons.mp hfs
    rw [hpush e he hd es fs hes hfs heq]

/-- Names pushed on an incomplete path change its components. -/
theorem components_foldl_push_ne_of_incomplete {s e : List Char} {es : List (List Char)}
    (hes : Appended .windows (e :: es)) (hi : incomplete .windows s = true) :
    components .windows ((e :: es).foldl (push .windows) s) ≠ components .windows s := by
  intro heq
  rcases foldl_push_of_incomplete hes hi with hne | ⟨p, hold, hnew⟩
  · apply hne
    apply parsePrefix_eq_of_components (l := []) (m := [])
    simpa using heq
  · rw [hold, hnew] at heq
    simp at heq

/-! ## Prefixes that stay -/

/-- A prefix that no name changes any more. -/
structure Fixed (s : List Char) (p : PathPrefix) : Prop where
  parsePrefix_eq : parsePrefix .windows s = some p
  settled : p.Settled
  named : p ≠ .deviceNS []

/-- A fixed prefix of an incomplete path is verbatim. -/
theorem Fixed.isVerbatim {s : List Char} {p : PathPrefix} (h : Fixed s p)
    (hi : incomplete .windows s = true) : p.isVerbatim = true := by
  simp only [incomplete, h.parsePrefix_eq] at hi
  cases p with
  | deviceNS device =>
    have hd : device = [] := by
      simp only [PathPrefix.incomplete, Bool.and_eq_true, List.isEmpty_iff] at hi
      exact hi.1
    exact absurd (hd ▸ rfl) h.named
  | unc => cases hi
  | disk => cases hi
  | _ => rfl

/-- A fixed prefix stays when a name is pushed. -/
theorem Fixed.push {s n : List Char} {p : PathPrefix} (h : Fixed s p) (hn : Plain n)
    (hd : parsePrefix .windows n = none) : Fixed (push .windows s n) p := by
  refine ⟨?_, h.settled, h.named⟩
  cases hi : incomplete .windows s with
  | false => exact (push_of_complete_prefixed hn hd h.parsePrefix_eq hi).1
  | true =>
    exact (push_of_lone_verbatim hn hd h.parsePrefix_eq (h.isVerbatim hi) h.settled hi).1

/-- A fixed prefix stays when names are pushed. -/
theorem Fixed.foldl_push {s : List Char} {p : PathPrefix} {es : List (List Char)} (h : Fixed s p)
    (hes : Appended .windows es) : Fixed (es.foldl (Path.push .windows) s) p := by
  induction es generalizing s with
  | nil => exact h
  | cons e es ih =>
    obtain ⟨⟨he, hd⟩, hes⟩ := List.forall_mem_cons.mp hes
    exact ih (h.push he hd) hes

/-- A path with a fixed prefix tells the names pushed on it apart. -/
theorem Fixed.telling {s : List Char} {p : PathPrefix} (h : Fixed s p) : Telling s := by
  cases hi : incomplete .windows s with
  | false => exact Complete.telling ⟨hi, doubleSep_of_prefixed h.parsePrefix_eq⟩
  | true =>
    have hlone : ∀ e es, Appended .windows (e :: es) → Complete .windows (Path.push .windows s e) ∧
        components .windows ((e :: es).foldl (Path.push .windows) s) =
          .volume p :: .rootDir :: (e :: es).map asNormal := by
      intro e es hes
      obtain ⟨⟨he, hd⟩, hes⟩ := List.forall_mem_cons.mp hes
      obtain ⟨-, hc, -, hnew⟩ :=
        push_of_lone_verbatim he hd h.parsePrefix_eq (h.isVerbatim hi) h.settled hi
      rw [List.foldl_cons, hc.foldl_push hes, hnew]
      exact ⟨hc, rfl⟩
    apply Telling.of_push
    · intro e he hd
      exact (hlone e [] (by simp [Appended, he, hd])).1.telling
    · intro e es hes
      exact components_foldl_push_ne_of_incomplete hes hi
    · intro e f es fs hes hfs heq
      rw [(hlone e es hes).2, (hlone f fs hfs).2] at heq
      exact (List.cons.inj (map_asNormal_inj (by simpa using heq))).1

/-! ## Names read into a prefix -/

/-- An incomplete buffer tells names apart when the prefix tells the first. -/
theorem Telling.of_mark {s : List Char} (hi : incomplete .windows s = true)
    (hpush : ∀ e, Plain e → parsePrefix .windows e = none → Telling (push .windows s e))
    (mark : Option PathPrefix → List Char)
    (hmark : ∀ e es, Appended .windows (e :: es) →
      mark (parsePrefix .windows ((e :: es).foldl (push .windows) s)) = e) : Telling s := by
  apply Telling.of_push hpush
  · intro e es hes
    exact components_foldl_push_ne_of_incomplete hes hi
  · intro e f es fs hes hfs heq
    have hpp : parsePrefix .windows ((e :: es).foldl (push .windows) s) =
        parsePrefix .windows ((f :: fs).foldl (push .windows) s) := by
      apply parsePrefix_eq_of_components (l := []) (m := [])
      simpa using heq
    rw [← hmark e es hes, hpp, hmark f fs hfs]

/-- The names an unfinished prefix reads. -/
def PathPrefix.readNames : PathPrefix → List Char × List Char
  | .verbatimUNC server share => (server, share)
  | .deviceNS device => ([], device)
  | _ => ([], [])

/-- A device prefix without a device takes the first name for it. -/
theorem telling_of_deviceNS {s : List Char} (h : parsePrefix .windows s = some (.deviceNS []))
    (hi : incomplete .windows s = true) : Telling s := by
  have hfixed : ∀ e, Plain e → parsePrefix .windows e = none →
      Fixed (push .windows s e) (.deviceNS e) := by
    intro e he hd
    refine ⟨parsePrefix_push_of_deviceNS he hd h hi, ⟨by simp, by simp⟩, ?_⟩
    simpa using he.ne_nil
  apply Telling.of_mark hi (fun e he hd => (hfixed e he hd).telling)
    (fun p => ((p.map PathPrefix.readNames).getD ([], [])).2)
  intro e es hes
  obtain ⟨⟨he, hd⟩, hes⟩ := List.forall_mem_cons.mp hes
  rw [List.foldl_cons, ((hfixed e he hd).foldl_push hes).parsePrefix_eq]
  rfl

/-- A verbatim share with a name is settled. -/
theorem settled_verbatimUNC {server share : List Char} (h : share ≠ []) :
    (PathPrefix.verbatimUNC server share).Settled := by
  refine ⟨by simp, ?_⟩
  intro server' he
  exact h (PathPrefix.verbatimUNC.inj he).2

/-- A server without a share ends the text of its prefix, and what comes after one more
separator is the share. -/
theorem exists_verbatim_unc {s server : List Char}
    (h : parsePrefix .windows s = some (.verbatimUNC server [])) :
    ∃ v t, s = v ++ t ∧ (PathPrefix.verbatimUNC server []).len = v.length ∧
      Stop verbatimSep t ∧
      ∀ x u, (∀ d ∈ x, verbatimSep d = false) → Stop verbatimSep u →
        parsePrefix .windows (v ++ '\\' :: (x ++ u)) = some (.verbatimUNC server x) := by
  obtain ⟨w, rfl, hw⟩ := exists_verbatim h rfl
  obtain ⟨c, t, rfl, hc, hserver, ht⟩ := exists_of_parseVerbatim_unc hw.symm
  refine ⟨'\\' :: '\\' :: '?' :: '\\' :: 'U' :: 'N' :: 'C' :: c :: server, t, rfl, ?_, ht, ?_⟩
  · simp only [PathPrefix.len, if_true, List.length_cons]
    omega
  · intro x u hx hu
    simp only [List.cons_append]
    rw [parsePrefix_verbatim, parseVerbatim_unc _ _ hc,
      parseNextComponent_append hserver (.cons (by rfl) _), List.tail_cons,
      parseNextComponent_append hx hu]

/-- A server without a share takes the first name there is for it: the first
component after it, or else the name pushed. -/
theorem push_of_no_share {s server : List Char}
    (h : parsePrefix .windows s = some (.verbatimUNC server [])) :
    (∀ e, Plain e → parsePrefix .windows e = none →
        parsePrefix .windows (push .windows s e) = some (.verbatimUNC server e)) ∨
      ∃ share cs, share ≠ [] ∧ ∀ e, Plain e → parsePrefix .windows e = none →
        parsePrefix .windows (push .windows s e) = some (.verbatimUNC server share) ∧
          Complete .windows (push .windows s e) ∧
          components .windows (push .windows s e) =
            .volume (.verbatimUNC server share) :: .rootDir :: (cs ++ [asNormal e]) := by
  obtain ⟨v, t, rfl, hlen, ht, hparse⟩ := exists_verbatim_unc h
  have hpush : ∀ e, Plain e → parsePrefix .windows e = none → push .windows (v ++ t) e =
      v ++ '\\' :: render v false (bodyComponents verbatimSep true t.tail ++ [asNormal e]) :=
    fun e he hd => push_verbatim he hd h hlen rfl ht
  have hseg : ∀ d ∈ bodyComponents verbatimSep true t.tail, Segment d :=
    fun _ => segment_of_mem_bodyComponents
  generalize bodyComponents verbatimSep true t.tail = cs at hpush hseg
  cases cs with
  | nil =>
    left
    intro e he hd
    have hr : render v false ([] ++ [asNormal e]) = e ++ [] := by
      simp [render, asNormal, Component.text]
    rw [hpush e he hd, hr]
    exact hparse e [] (fun d hd => he.verbatimSep_false hd) (.nil _)
  | cons d cs =>
    right
    obtain ⟨hdseg, hcs⟩ := List.forall_mem_cons.mp hseg
    refine ⟨d.text [], cs, hdseg.text_ne_nil, fun e he hd => ?_⟩
    have hsnoc : ∀ c ∈ cs ++ [asNormal e], Segment c := by
      intro c hc
      rcases List.mem_append.mp hc with hc | hc
      · exact hcs c hc
      · rw [List.mem_singleton.mp hc]
        exact he.segment
    have hp := hparse (d.text []) ('\\' :: render v false (cs ++ [asNormal e])) hdseg.noSep
      (.cons (by rfl) _)
    have hlen' : (PathPrefix.verbatimUNC server (d.text [])).len =
        (v ++ '\\' :: d.text []).length := by
      simp only [PathPrefix.len, if_true, if_neg hdseg.text_ne_nil, List.length_append,
        List.length_cons] at hlen ⊢
      omega
    have htext : push .windows (v ++ t) e =
        (v ++ '\\' :: d.text []) ++ '\\' :: render v false (cs ++ [asNormal e]) := by
      rw [hpush e he hd, List.cons_append, render_cons hdseg hsnoc (by simp)]
      simp
    have hp' : parsePrefix .windows (push .windows (v ++ t) e) =
        some (.verbatimUNC server (d.text [])) := by
      rw [htext]
      simpa using hp
    have hp'' := hp'
    rw [htext] at hp''
    refine ⟨hp', ⟨?_, doubleSep_of_prefixed hp'⟩, ?_⟩
    · rw [htext, incomplete_of_prefixed hp'' hlen']
      exact PathPrefix.incomplete_cons (settled_verbatimUNC hdseg.text_ne_nil) _ _
    · rw [htext, components_of_prefixed hp'' hlen', afterPrefix_root (by rfl)]
      simp only [PathPrefix.isVerbatim, if_true, bodyComponents_render hsnoc]

/-- A path that stops before the name of its share tells the names pushed on it apart. -/
theorem telling_of_no_share {s server : List Char}
    (h : parsePrefix .windows s = some (.verbatimUNC server [])) : Telling s := by
  have hi : incomplete .windows s = true := by simp [incomplete, h, PathPrefix.incomplete]
  rcases push_of_no_share h with hname | ⟨share, cs, hne, hcomp⟩
  · have hfixed : ∀ e, Plain e → parsePrefix .windows e = none →
        Fixed (push .windows s e) (.verbatimUNC server e) := fun e he hd =>
      ⟨hname e he hd, settled_verbatimUNC he.ne_nil, by simp⟩
    apply Telling.of_mark hi (fun e he hd => (hfixed e he hd).telling)
      (fun p => ((p.map PathPrefix.readNames).getD ([], [])).2)
    intro e es hes
    obtain ⟨⟨he, hd⟩, hes⟩ := List.forall_mem_cons.mp hes
    rw [List.foldl_cons, ((hfixed e he hd).foldl_push hes).parsePrefix_eq]
    rfl
  · apply Telling.of_push (fun e he hd => (hcomp e he hd).2.1.telling)
    · intro e es hes
      exact components_foldl_push_ne_of_incomplete hes hi
    · intro e f es fs hes hfs heq
      obtain ⟨⟨he, hd⟩, hes⟩ := List.forall_mem_cons.mp hes
      obtain ⟨⟨hf, hdf⟩, hfs⟩ := List.forall_mem_cons.mp hfs
      obtain ⟨-, hce, hne⟩ := hcomp e he hd
      obtain ⟨-, hcf, hnf⟩ := hcomp f hf hdf
      rw [List.foldl_cons, List.foldl_cons, hce.foldl_push hes, hcf.foldl_push hfs, hne, hnf] at heq
      simp only [List.cons_append, List.append_assoc, List.cons.injEq, true_and] at heq
      exact asNormal_inj (List.cons.inj (List.append_cancel_left heq)).1

/-- The server of a verbatim share stays what it is. -/
theorem exists_share_of_foldl_push {s server share : List Char} {es : List (List Char)}
    (h : parsePrefix .windows s = some (.verbatimUNC server share)) (hes : Appended .windows es) :
    ∃ share', parsePrefix .windows (es.foldl (push .windows) s) =
      some (.verbatimUNC server share') := by
  by_cases hshare : share = []
  · subst hshare
    cases es with
    | nil => exact ⟨[], h⟩
    | cons e es =>
      obtain ⟨⟨he, hd⟩, hes⟩ := List.forall_mem_cons.mp hes
      obtain ⟨share', hne, hp⟩ : ∃ share', share' ≠ [] ∧
          parsePrefix .windows (push .windows s e) = some (.verbatimUNC server share') := by
        rcases push_of_no_share h with hname | ⟨share', cs, hne, hcomp⟩
        · exact ⟨e, he.ne_nil, hname e he hd⟩
        · exact ⟨share', hne, (hcomp e he hd).1⟩
      have hfixed : Fixed (push .windows s e) (.verbatimUNC server share') :=
        ⟨hp, settled_verbatimUNC hne, by simp⟩
      exact ⟨share', (hfixed.foldl_push hes).parsePrefix_eq⟩
  · have hfixed : Fixed s (.verbatimUNC server share) :=
      ⟨h, settled_verbatimUNC hshare, by simp⟩
    exact ⟨share, (hfixed.foldl_push hes).parsePrefix_eq⟩

/-- A path that stops before the name of its server tells the names pushed on it apart. -/
theorem telling_of_unc {s : List Char}
    (h : parsePrefix .windows s = some (.verbatim ['U', 'N', 'C']))
    (hi : incomplete .windows s = true) : Telling s := by
  apply Telling.of_mark hi
    (fun e he hd => telling_of_no_share (parsePrefix_push_of_unc he hd h))
    (fun p => ((p.map PathPrefix.readNames).getD ([], [])).1)
  intro e es hes
  obtain ⟨⟨he, hd⟩, hes⟩ := List.forall_mem_cons.mp hes
  obtain ⟨share, hp⟩ := exists_share_of_foldl_push (parsePrefix_push_of_unc he hd h) hes
  rw [List.foldl_cons, hp]
  rfl

/-- The first name after two separators, as the prefix holds it. -/
def PathPrefix.serverName : PathPrefix → List Char
  | .unc server _ => server
  | .deviceNS _ => ['.']
  | .disk _ => []
  | _ => ['?']

/-- The second name after two separators, as the prefix holds it. -/
def PathPrefix.shareName : PathPrefix → List Char
  | .unc _ share => share
  | .deviceNS device => device
  | .verbatim name => name
  | .verbatimUNC _ _ => ['U', 'N', 'C']
  | _ => []

/-- A share that has begun keeps its server and name when names are pushed. -/
theorem Begun.foldl_push {s server name : List Char} {p : PathPrefix} {es : List (List Char)}
    (h : Begun server name p) (hname : Plain name) (hp : parsePrefix .windows s = some p)
    (hes : Appended .windows es) :
    ∃ q, parsePrefix .windows (es.foldl (push .windows) s) = some q ∧ q.serverName = server ∧
      q.shareName = name := by
  have hfixed : ∀ q, Fixed s q → parsePrefix .windows (es.foldl (push .windows) s) = some q :=
    fun q hq => (hq.foldl_push hes).parsePrefix_eq
  rcases h with rfl | ⟨rfl, rfl⟩ | ⟨rfl, rfl⟩
  · exact ⟨_, hfixed _ ⟨hp, ⟨by simp, by simp⟩, by simp⟩, rfl, rfl⟩
  · exact ⟨_, hfixed _ ⟨hp, ⟨by simp, by simp⟩, by simpa using hname.ne_nil⟩, rfl, rfl⟩
  · by_cases hunc : name = ['U', 'N', 'C']
    · subst hunc
      cases es with
      | nil => exact ⟨_, hp, rfl, rfl⟩
      | cons e es =>
        obtain ⟨⟨he, hd⟩, hes⟩ := List.forall_mem_cons.mp hes
        obtain ⟨share, hp'⟩ := exists_share_of_foldl_push (parsePrefix_push_of_unc he hd hp) hes
        exact ⟨_, hp', rfl, rfl⟩
    · exact ⟨_, hfixed _ ⟨hp, ⟨by simpa using hunc, by simp⟩, by simp⟩, rfl, rfl⟩

/-- A path whose share has begun tells the names pushed on it apart. -/
theorem Begun.telling {s server name : List Char} {p : PathPrefix} (h : Begun server name p)
    (hname : Plain name) (hp : parsePrefix .windows s = some p) : Telling s := by
  rcases h with rfl | ⟨rfl, rfl⟩ | ⟨rfl, rfl⟩
  · exact Fixed.telling ⟨hp, ⟨by simp, by simp⟩, by simp⟩
  · exact Fixed.telling ⟨hp, ⟨by simp, by simp⟩, by simpa using hname.ne_nil⟩
  · by_cases hunc : name = ['U', 'N', 'C']
    · subst hunc
      apply telling_of_unc hp
      by_contra hi
      exact (settled_of_complete hp (by simpa using hi)).1 rfl
    · exact Fixed.telling ⟨hp, ⟨by simpa using hunc, by simp⟩, by simp⟩

/-- Two separators and a name take the next name with them. -/
theorem exists_begun {s e : List Char} {es : List (List Char)}
    (h : parsePrefix .windows s = none) (hs : startsPrefix s = true)
    (hes : Appended .windows (e :: es)) :
    Telling (push .windows s e) ∧
      ∃ q, parsePrefix .windows ((e :: es).foldl (push .windows) s) = some q ∧
        q.serverName = (parseNextComponent winSep (s.drop 2)).1 ∧ q.shareName = e := by
  obtain ⟨⟨he, hd⟩, hes⟩ := List.forall_mem_cons.mp hes
  obtain ⟨p, hp, hb⟩ := parsePrefix_push_of_startsPrefix he hd h hs
  rw [List.foldl_cons]
  exact ⟨hb.telling he hp, hb.foldl_push he hp hes⟩

/-- A path that only starts a prefix tells the names pushed on it apart. -/
theorem telling_of_startsPrefix {s : List Char} (h : parsePrefix .windows s = none)
    (hs : startsPrefix s = true) : Telling s := by
  have hi : incomplete .windows s = true := by simpa [incomplete, h] using hs
  apply Telling.of_mark hi
    (fun e he hd => (exists_begun h hs (List.forall_mem_singleton.mpr ⟨he, hd⟩)).1)
    (fun p => (p.map PathPrefix.shareName).getD [])
  intro e es hes
  obtain ⟨-, q, hq, -, hshare⟩ := exists_begun h hs hes
  rw [hq]
  exact hshare

/-- Two separators: the first name is a component while it stands alone, and the
server of the prefix that the second makes. -/
theorem telling_of_doubleSep {s : List Char} (h : doubleSep .windows s = true) : Telling s := by
  have hone : ∀ e es, Appended .windows (e :: es) → es = [] →
      components .windows ((e :: es).foldl (push .windows) s) =
        components .windows s ++ [asNormal e] := by
    rintro e - hes rfl
    obtain ⟨⟨he, hd⟩, -⟩ := List.forall_mem_cons.mp hes
    exact (components_push_of_doubleSep he hd h).1
  have hmore : ∀ e es, Appended .windows (e :: es) → es ≠ [] →
      ∃ q, parsePrefix .windows ((e :: es).foldl (push .windows) s) = some q ∧
        q.serverName = e := by
    intro e es hes hne
    obtain ⟨⟨he, hd⟩, hes⟩ := List.forall_mem_cons.mp hes
    obtain ⟨-, hp, hs, hserver⟩ := push_of_doubleSep he hd h
    match es, hne with
    | f :: es, _ =>
      obtain ⟨-, q, hq, hname, -⟩ := exists_begun hp hs hes
      exact ⟨q, hq, hname.trans hserver⟩
  have hp : parsePrefix .windows s = none := by
    by_contra hp
    obtain ⟨p, hp⟩ := Option.ne_none_iff_exists'.mp hp
    rw [doubleSep_of_prefixed hp] at h
    cases h
  -- a lone name and the prefix of several are never the same components
  have hlone : ∀ e f fs, Appended .windows (f :: fs) → fs ≠ [] →
      components .windows ((f :: fs).foldl (push .windows) s) ≠
        components .windows s ++ (e : List (List Char)).map asNormal := by
    intro e f fs hfs hne heq
    obtain ⟨q, hq, -⟩ := hmore f fs hfs hne
    have hpp := parsePrefix_eq_of_components (l := []) (by simpa using heq)
    cases hq.symm.trans (hpp.trans hp)
  apply Telling.of_push
  · intro e he hd
    obtain ⟨-, hp, hs, -⟩ := push_of_doubleSep he hd h
    exact telling_of_startsPrefix hp hs
  · intro e es hes heq
    by_cases hne : es = []
    · rw [hone e es hes hne] at heq
      simp at heq
    · exact hlone [] e es hes hne (by simpa using heq)
  · intro e f es fs hes hfs heq
    by_cases hne : es = []
    · by_cases hnf : fs = []
      · rw [hone e es hes hne, hone f fs hfs hnf] at heq
        exact asNormal_inj (List.singleton_inj.mp (List.append_cancel_left heq))
      · rw [hone e es hes hne] at heq
        exact absurd heq.symm (hlone [e] f fs hfs hnf)
    · by_cases hnf : fs = []
      · rw [hone f fs hfs hnf] at heq
        exact absurd heq (hlone [f] e es hes hne)
      · obtain ⟨q, hq, hqe⟩ := hmore e es hes hne
        obtain ⟨r, hr, hrf⟩ := hmore f fs hfs hnf
        have hpp := parsePrefix_eq_of_components (l := []) (m := []) (by simpa using heq)
        rw [← hqe, ← hrf, Option.some.inj (hq.symm.trans (hpp.trans hr))]

/-- Different names pushed onto any buffer give different components. -/
theorem telling (s : List Char) : Telling s := by
  cases hi : incomplete .windows s with
  | false =>
    cases hs : doubleSep .windows s with
    | false => exact Complete.telling ⟨hi, hs⟩
    | true => exact telling_of_doubleSep hs
  | true =>
    cases hp : parsePrefix .windows s with
    | none =>
      apply telling_of_startsPrefix hp
      simpa [incomplete, hp] using hi
    | some p =>
      by_cases hset : p.Settled
      · by_cases hdev : p = .deviceNS []
        · subst hdev
          exact telling_of_deviceNS hp hi
        · exact Fixed.telling ⟨hp, hset, hdev⟩
      · rcases PathPrefix.not_settled hset with rfl | ⟨server, rfl⟩
        · exact telling_of_unc hp hi
        · exact telling_of_no_share hp

/-! ## Where a list of names leads -/

/-- `push` on components: a name with a prefix takes the place of everything
before it, any other is one more. -/
def land (platform : Platform) (cs : List Component) (e : List Char) : List Component :=
  if (parsePrefix platform e).isSome then components platform e else cs ++ [asNormal e]

/-- The components a list of names leads to from those of a buffer. -/
def landing (platform : Platform) (s : List Char) (es : List (List Char)) : List Component :=
  es.foldl (land platform) (components platform s)

/-- Names that carry no prefix are put at the end. -/
theorem foldl_land_of_appended {platform : Platform} {cs : List Component}
    {es : List (List Char)} (hes : Appended platform es) :
    es.foldl (land platform) cs = cs ++ es.map asNormal := by
  induction es generalizing cs with
  | nil => simp
  | cons e es ih =>
    obtain ⟨⟨-, hd⟩, hes⟩ := List.forall_mem_cons.mp hes
    rw [List.foldl_cons, ih hes, land, hd, Option.isSome_none, if_neg (by simp), List.map_cons,
      List.append_assoc, List.singleton_append]

/-- Names without a prefix lead apart as soon as they differ. -/
theorem landing_eq_iff_of_appended {platform : Platform} {s : List Char}
    {es fs : List (List Char)} (hes : Appended platform es) (hfs : Appended platform fs) :
    landing platform s es = landing platform s fs ↔ es = fs := by
  rw [landing, landing, foldl_land_of_appended hes, foldl_land_of_appended hfs]
  constructor
  · intro heq
    exact map_asNormal_inj (List.append_cancel_left heq)
  · rintro rfl
    rfl

/-- The last name that carries a prefix decides where the rest goes. -/
theorem landing_of_prefixed {before after : List (List Char)} {d : List Char}
    (hp : parsePrefix .windows d ≠ none) (hafter : Appended .windows after) (s : List Char) :
    landing .windows s (before ++ d :: after) = components .windows d ++ after.map asNormal := by
  rw [landing, List.foldl_append, List.foldl_cons, foldl_land_of_appended hafter, land,
    if_pos (Option.isSome_iff_ne_none.mpr hp)]

/-- Pushing names of which one carries a prefix leads to where the last of these says. -/
theorem foldl_push_eq_landing {s : List Char} {es : List (List Char)} (hes : ∀ e ∈ es, Plain e)
    (h : ¬Appended .windows es) :
    components .windows (es.foldl (push .windows) s) = landing .windows s es ∧
      ∃ (d : List Char) (after : List (List Char)), parsePrefix .windows d ≠ none ∧ Plain d ∧
        landing .windows s es = components .windows d ++ after.map asNormal := by
  have hex : ∃ e ∈ es, parsePrefix .windows e ≠ none := by
    by_contra hno
    exact h fun e he => ⟨hes e he, by_contra fun hp => hno ⟨e, he, hp⟩⟩
  obtain ⟨before, d, after, rfl, hd, hafter⟩ := exists_last_prefixed hex
  have hplain := hes d (by simp)
  have happ : Appended .windows after := fun e he => ⟨hes e (by simp [he]), hafter e he⟩
  rw [components_foldl_push_of_prefixed hplain hd happ, landing_of_prefixed hd happ]
  exact ⟨rfl, d, after, hd, hplain, rfl⟩

/-- A drive does not come from names that carry none. -/
theorem parsePrefix_disk_of_push {s n : List Char} {c : Char} (hn : Plain n)
    (hd : parsePrefix .windows n = none)
    (h : parsePrefix .windows (push .windows s n) = some (.disk c)) :
    parsePrefix .windows s = some (.disk c) := by
  cases hp : parsePrefix .windows s with
  | none =>
    cases hi : incomplete .windows s with
    | true =>
      simp only [incomplete, hp] at hi
      obtain ⟨p, hp', hb⟩ := parsePrefix_push_of_startsPrefix hn hd hp hi
      obtain rfl := Option.some.inj (hp'.symm.trans h)
      rcases hb with hb | ⟨hb, -⟩ | ⟨hb, -⟩ <;> cases hb
    | false =>
      cases hs : doubleSep .windows s with
      | true => cases (push_of_doubleSep hn hd hs).2.1.symm.trans h
      | false =>
        obtain ⟨hj, hne⟩ := push_joined hn hd (s := s) (by simp [hp]) (by simp [bareDrive, hp])
        have hbare := ((bare_iff hp).mpr ⟨hi, hs⟩).joined hn hd hj hne
        cases hbare.parsePrefix_eq.symm.trans h
  | some p =>
    by_cases hset : p.Settled
    · by_cases hdev : p = .deviceNS []
      · subst hdev
        cases hi : incomplete .windows s with
        | true => cases (parsePrefix_push_of_deviceNS hn hd hp hi).symm.trans h
        | false => exact (push_of_complete_prefixed hn hd hp hi).1.symm.trans h
      · exact (Fixed.push ⟨hp, hset, hdev⟩ hn hd).parsePrefix_eq.symm.trans h
    · rcases PathPrefix.not_settled hset with rfl | ⟨server, rfl⟩
      · cases (parsePrefix_push_of_unc hn hd hp).symm.trans h
      · obtain ⟨share, hp'⟩ :=
          exists_share_of_foldl_push hp (List.forall_mem_singleton.mpr ⟨hn, hd⟩)
        cases hp'.symm.trans h

/-- Pushing names gives no path a drive. -/
theorem parsePrefix_disk_of_foldl_push {s : List Char} {es : List (List Char)} {c : Char}
    (hes : Appended .windows es)
    (h : parsePrefix .windows (es.foldl (push .windows) s) = some (.disk c)) :
    parsePrefix .windows s = some (.disk c) := by
  induction es generalizing s with
  | nil => exact h
  | cons e es ih =>
    obtain ⟨⟨he, hd⟩, hes⟩ := List.forall_mem_cons.mp hes
    exact parsePrefix_disk_of_push he hd (ih hes h)

/-- Names without a prefix lead to a drive only from that drive. -/
theorem foldl_push_eq_drive_iff {s d : List Char} {es after : List (List Char)}
    (hes : Appended .windows es) (hd : Plain d) (hp : parsePrefix .windows d ≠ none) :
    components .windows (es.foldl (push .windows) s) =
        components .windows d ++ after.map asNormal ↔
      landing .windows s es = components .windows d ++ after.map asNormal := by
  rw [landing, foldl_land_of_appended hes]
  obtain ⟨p, hp⟩ := Option.ne_none_iff_exists'.mp hp
  obtain ⟨⟨c, rfl⟩, -⟩ := hd.drive hp
  by_cases hs : parsePrefix .windows s = some (.disk c)
  · have hc : Complete .windows s :=
      ⟨by simp [incomplete, hs, PathPrefix.incomplete], doubleSep_of_prefixed hs⟩
    rw [hc.foldl_push hes]
  · constructor
    · intro heq
      have hpp := parsePrefix_eq_of_components (l := []) (by simpa using heq)
      exact absurd (parsePrefix_disk_of_foldl_push hes (hpp.trans hp)) hs
    · intro heq
      exact absurd ((parsePrefix_eq_of_components heq).trans hp) hs

/-- Two lists of plain names pushed onto one buffer give the same components
exactly when they lead to the same ones. -/
theorem foldl_push_eq_iff {platform : Platform} {s : List Char} {es fs : List (List Char)}
    (hes : ∀ e ∈ es, Plain e) (hfs : ∀ e ∈ fs, Plain e) :
    components platform (es.foldl (push platform) s) =
        components platform (fs.foldl (push platform) s) ↔
      landing platform s es = landing platform s fs := by
  cases platform with
  | unix =>
    have hc : Complete .unix s := ⟨rfl, rfl⟩
    have hall : ∀ gs : List (List Char), (∀ e ∈ gs, Plain e) → Appended .unix gs :=
      fun gs hgs e he => ⟨hgs e he, rfl⟩
    rw [hc.foldl_push (hall es hes), hc.foldl_push (hall fs hfs), landing, landing,
      foldl_land_of_appended (hall es hes), foldl_land_of_appended (hall fs hfs)]
  | windows =>
    by_cases he : Appended .windows es
    · by_cases hf : Appended .windows fs
      · rw [landing_eq_iff_of_appended he hf]
        constructor
        · exact telling s es fs he hf
        · rintro rfl
          rfl
      · obtain ⟨hreal, d, after, hp, hd, hland⟩ := foldl_push_eq_landing (s := s) hfs hf
        rw [hreal, hland]
        exact foldl_push_eq_drive_iff he hd hp
    · obtain ⟨hreal, d, after, hp, hd, hland⟩ := foldl_push_eq_landing (s := s) hes he
      by_cases hf : Appended .windows fs
      · rw [hreal, hland, eq_comm, foldl_push_eq_drive_iff hf hd hp, eq_comm]
      · rw [hreal, (foldl_push_eq_landing (s := s) hfs hf).1]

end Torrentina.Core.Path
