import Torrentina.Core.PathPush

/-!
# When pushed names are just more components

The names pushed onto a buffer are its components and then the names, each one
ordinary, exactly when no name carries a prefix and the buffer does not stop
inside one. A name with a prefix takes the place of everything before it. On a
buffer that stops inside a prefix the first name is read into the prefix or put
behind a new root, and since later names never take a prefix back this shows in
the components for good.
-/

namespace Torrentina.Core.Path

/-! ## Incomplete buffers -/

/-- How far the prefix of a buffer has come. Pushing names never takes it back. -/
def stage : Option PathPrefix → Nat
  | none => 0
  | some (.deviceNS []) => 1
  | some (.verbatim ['U', 'N', 'C']) => 1
  | some (.verbatimUNC _ []) => 2
  | some _ => 3

/-- A path with a prefix is past the first stage. -/
theorem stage_some_pos (p : PathPrefix) : 0 < stage (some p) := by
  unfold stage
  split <;> simp_all

/-- A device with a name is at the last stage. -/
theorem stage_deviceNS {device : List Char} (h : device ≠ []) :
    stage (some (.deviceNS device)) = 3 := by
  cases device with
  | nil => exact absurd rfl h
  | cons => rfl

/-- A verbatim share with a name is at the last stage. -/
theorem stage_verbatimUNC {server share : List Char} (h : share ≠ []) :
    stage (some (.verbatimUNC server share)) = 3 := by
  cases share with
  | nil => exact absurd rfl h
  | cons => rfl

/-- A plain name that is no prefix is no drive. -/
theorem Plain.parseDrive_eq {n : List Char} (hn : Plain n) (hd : parsePrefix .windows n = none) :
    parseDrive n = none := by
  match n, hn, hd with
  | [], _, _ => rfl
  | [_], _, _ => rfl
  | a :: b :: rest, hn, hd =>
    rw [parsePrefix_single (by simp [hn.noSep a (by simp)])] at hd
    exact Option.map_eq_none_iff.mp hd

/-- A plain name that is no prefix is a name in a verbatim path too. -/
theorem Plain.parseVerbatim_eq {n : List Char} (hn : Plain n)
    (hd : parsePrefix .windows n = none) : parseVerbatim n = .verbatim n := by
  have hunc : ¬((n ++ []).take 3 = ['U', 'N', 'C'] ∧ (n ++ [])[3]?.any winSep = true) := by
    rintro ⟨-, hany⟩
    obtain ⟨c, hc, hsep⟩ := (Option.any_eq_true _ _).mp hany
    rw [List.append_nil] at hc
    rw [hn.noSep c (List.mem_of_getElem? hc)] at hsep
    cases hsep
  have hdrive : parseDriveExact n = none := by
    rw [parseDriveExact, hn.parseDrive_eq hd, ite_self]
  have hname := parseVerbatim_name (fun c hc => hn.verbatimSep_false hc) (.nil _) hunc hdrive
  rwa [List.append_nil] at hname

/-- What two separators, a server and a name make. -/
def Begun (server name : List Char) (p : PathPrefix) : Prop :=
  p = .unc server name ∨ (p = .deviceNS name ∧ server = ['.']) ∨
    (p = .verbatim name ∧ server = ['?'])

/-- A name after two separators and a name makes a prefix. -/
theorem parsePrefix_push_of_startsPrefix {s n : List Char} (hn : Plain n)
    (hd : parsePrefix .windows n = none) (h : parsePrefix .windows s = none)
    (hs : startsPrefix s = true) :
    ∃ p, parsePrefix .windows (push .windows s n) = some p ∧
      Begun (parseNextComponent winSep (s.drop 2)).1 n p := by
  match s, hs with
  | a :: b :: rest, hs =>
    obtain ⟨server, t, rfl, hserver, ht⟩ := exists_next winSep rest
    simp only [startsPrefix, parseNextComponent_append hserver ht, Bool.and_eq_true,
      Bool.not_eq_true', List.isEmpty_eq_false_iff, List.isEmpty_iff] at hs
    obtain ⟨⟨⟨ha, hb⟩, hne⟩, htail⟩ := hs
    have hshare : (parseNextComponent winSep n).1 = n := by
      have := parseNextComponent_append hn.noSep (.nil _)
      rw [List.append_nil] at this
      rw [this]
    have hsome : ∀ c, winSep c = true →
        ∃ p, parsePrefix .windows (a :: b :: (server ++ c :: n)) = some p ∧ Begun server n p := by
      intro c hc
      rw [parsePrefix_doubled ha hb, parseDoubled_server hne hserver hc, hshare, if_neg hn.ne_nil]
      split
      · rename_i hq
        exact ⟨_, rfl, .inr (.inr ⟨hn.parseVerbatim_eq hd, hq.2.2.2⟩)⟩
      · split
        · rename_i hdot
          exact ⟨_, rfl, .inr (.inl ⟨rfl, hdot⟩)⟩
        · exact ⟨_, rfl, .inl rfl⟩
    have hdrop : (parseNextComponent winSep ((a :: b :: (server ++ t)).drop 2)).1 = server := by
      rw [List.drop_succ_cons, List.drop_succ_cons, List.drop_zero,
        parseNextComponent_append hserver ht]
    have hpush := push_plain hn hd (s := a :: b :: (server ++ t)) (by simp [h])
    have hbare : bareDrive .windows (a :: b :: (server ++ t)) = false := by simp [bareDrive, h]
    rw [hpush, hbare, hdrop]
    cases t with
    | nil =>
      have hlast : (a :: b :: server).getLast? = some (server.getLast hne) := by
        rw [← List.getLast?_eq_some_getLast hne]
        exact List.getLast?_append_of_ne_nil [a, b] hne
      have hsep := hserver _ (List.getLast_mem hne)
      rw [List.append_nil, hlast, if_pos (by simpa [isSep] using hsep)]
      exact hsome _ (by rfl)
    | cons c t =>
      obtain rfl : t = [] := htail
      have hlast : (a :: b :: (server ++ [c])).getLast? = some c :=
        List.getLast?_append_cons (a :: b :: server) c []
      have hc := Stop.cons_iff.mp ht
      rw [hlast, if_neg (by simpa [isSep] using hc), List.cons_append, List.cons_append,
        List.append_assoc]
      exact hsome c hc

/-- A device path, and what it becomes when its name changes. -/
theorem exists_deviceNS {s device : List Char}
    (h : parsePrefix .windows s = some (.deviceNS device)) :
    ∃ a b e rest, s = a :: b :: '.' :: e :: rest ∧ winSep e = true ∧
      ∀ u, parsePrefix .windows (a :: b :: '.' :: e :: u) =
        some (.deviceNS (parseNextComponent winSep u).1) := by
  match s, h with
  | [], h => cases h
  | [_], h => cases h
  | a :: b :: rest, h =>
    by_cases hab : winSep a = true ∧ winSep b = true
    · rw [parsePrefix_doubled hab.1 hab.2] at h
      obtain ⟨server, e, w, rfl, hne, hserver, he⟩ := exists_of_parseDoubled h
      rw [parseDoubled_server hne hserver he] at h
      split at h
      · obtain ⟨-, -, -, -, hv⟩ := parseVerbatim_split w
        rw [Option.some.inj h] at hv
        cases hv
      · split at h
        · rename_i hdot
          subst hdot
          refine ⟨a, b, e, w, rfl, he, fun u => ?_⟩
          have hu := parseDoubled_server hne hserver he (a := a) (b := b) u
          rw [parsePrefix_doubled hab.1 hab.2]
          simpa using hu
        · split at h <;> cases h
    · rw [parsePrefix_single hab] at h
      obtain ⟨d, -, hd⟩ := Option.map_eq_some_iff.mp h
      cases hd

/-- A bare `\\.\` takes the name for its device. -/
theorem parsePrefix_push_of_deviceNS {s n : List Char} (hn : Plain n)
    (hd : parsePrefix .windows n = none) (h : parsePrefix .windows s = some (.deviceNS []))
    (hi : incomplete .windows s = true) :
    parsePrefix .windows (push .windows s n) = some (.deviceNS n) := by
  have hpush := push_plain hn hd (s := s) (by simp [h, PathPrefix.isVerbatim])
  have hbare : bareDrive .windows s = false := by simp [bareDrive, h, PathPrefix.isDrive]
  obtain ⟨a, b, e, rest, rfl, he, hparse⟩ := exists_deviceNS h
  obtain rfl : rest = [] := by
    simpa [incomplete, h, PathPrefix.incomplete, PathPrefix.len] using hi
  have hshare := parseNextComponent_append hn.noSep (.nil _)
  rw [List.append_nil] at hshare
  rw [hpush, hbare, if_neg (by simpa [isSep] using he)]
  simpa [hshare] using hparse n

/-- A verbatim path to a share, taken apart. -/
theorem exists_of_parseVerbatim_unc {w server share : List Char}
    (h : parseVerbatim w = .verbatimUNC server share) :
    ∃ e t, w = 'U' :: 'N' :: 'C' :: e :: (server ++ t) ∧ winSep e = true ∧
      (∀ c ∈ server, verbatimSep c = false) ∧ Stop verbatimSep t := by
  by_cases hunc : w.take 3 = ['U', 'N', 'C'] ∧ w[3]?.any winSep = true
  · obtain ⟨e, rest, rfl, he⟩ := exists_of_take_three hunc
    obtain ⟨server', t, rfl, hserver, ht⟩ := exists_next verbatimSep rest
    rw [parseVerbatim_unc _ _ he, parseNextComponent_append hserver ht] at h
    obtain ⟨rfl, -⟩ := PathPrefix.verbatimUNC.inj h
    exact ⟨e, t, rfl, he, hserver, ht⟩
  · rw [parseVerbatim, if_neg hunc] at h
    split at h <;> cases h

/-- The text `push` puts after a verbatim prefix starts with a name. -/
theorem exists_push_verbatim {v t n : List Char} {p : PathPrefix} (hn : Plain n)
    (hd : parsePrefix .windows n = none) (h : parsePrefix .windows (v ++ t) = some p)
    (hlen : p.len = v.length) (hv : p.isVerbatim = true) (ht : Stop p.stop t) :
    ∃ x w, push .windows (v ++ t) n = v ++ '\\' :: (x ++ w) ∧ x ≠ [] ∧
      (∀ d ∈ x, verbatimSep d = false) ∧ Stop verbatimSep w := by
  rw [push_verbatim hn hd h hlen hv ht]
  obtain ⟨x, w, hxw, hx⟩ := exists_render_head (v := v) (by simp) (segment_snoc (t := t.tail) hn)
  exact ⟨x, w, by rw [hxw], hx⟩

/-- `\\?\UNC` takes the first name for a server. -/
theorem parsePrefix_push_of_unc {s n : List Char} (hn : Plain n)
    (hd : parsePrefix .windows n = none)
    (h : parsePrefix .windows s = some (.verbatim ['U', 'N', 'C'])) :
    parsePrefix .windows (push .windows s n) = some (.verbatimUNC n []) := by
  obtain ⟨w, rfl, hw⟩ := exists_verbatim h rfl
  obtain rfl := eq_of_parseVerbatim_eq_unc hw.symm
  have hpush := push_verbatim (v := ['\\', '\\', '?', '\\', 'U', 'N', 'C']) (t := []) hn hd h
    rfl rfl
    (.nil _)
  have hnext := parseNextComponent_append (fun c hc => hn.verbatimSep_false hc) (.nil _)
  rw [List.append_nil] at hnext hpush
  simp only [List.tail_nil, bodyComponents_nil, List.nil_append, List.cons_append, render, asNormal,
    Component.text, String.toList_ofList, Bool.false_eq_true, false_and, if_false,
    List.append_nil] at hpush
  rw [hpush, parsePrefix_verbatim, parseVerbatim_unc _ _ (by rfl), hnext]
  rfl

/-- Only a verbatim share without its server or its name is not settled. -/
theorem PathPrefix.not_settled {p : PathPrefix} (h : ¬p.Settled) :
    p = .verbatim ['U', 'N', 'C'] ∨ ∃ server, p = .verbatimUNC server [] := by
  simpa only [PathPrefix.Settled, not_and_or, not_forall, not_not] using h

/-- `\\?\UNC` takes the name for its server, and a server without a share the
first name there is. -/
theorem stage_push_of_unsettled {s n : List Char} {p : PathPrefix} (hn : Plain n)
    (hd : parsePrefix .windows n = none) (h : parsePrefix .windows s = some p)
    (hs : ¬p.Settled) :
    stage (some p) < stage (parsePrefix .windows (push .windows s n)) := by
  rcases PathPrefix.not_settled hs with rfl | ⟨server, rfl⟩
  · rw [parsePrefix_push_of_unc hn hd h]
    exact Nat.lt_succ_self 1
  · obtain ⟨w, rfl, hw⟩ := exists_verbatim h rfl
    obtain ⟨e, t, rfl, he, hserver, ht⟩ := exists_of_parseVerbatim_unc hw.symm
    have hlen : (PathPrefix.verbatimUNC server []).len =
        ('\\' :: '\\' :: '?' :: '\\' :: 'U' :: 'N' :: 'C' :: e :: server).length := by
      simp only [PathPrefix.len, if_true, List.length_cons]
      omega
    obtain ⟨x, w, hpush, hne, hx, hstop⟩ := exists_push_verbatim (t := t) hn hd h hlen rfl ht
    simp only [List.cons_append] at hpush
    rw [hpush, parsePrefix_verbatim, parseVerbatim_unc _ _ he,
      parseNextComponent_append hserver (.cons (by rfl) _), List.tail_cons,
      parseNextComponent_append hx hstop, stage_verbatimUNC hne]
    exact Nat.lt_succ_self 2

/-- After a verbatim prefix that stands alone, `push` writes a root. -/
theorem push_of_lone_verbatim {s n : List Char} {p : PathPrefix} (hn : Plain n)
    (hd : parsePrefix .windows n = none) (h : parsePrefix .windows s = some p)
    (hv : p.isVerbatim = true) (hset : p.Settled) (hi : incomplete .windows s = true) :
    parsePrefix .windows (push .windows s n) = some p ∧ Complete .windows (push .windows s n) ∧
      components .windows s = [.volume p] ∧
      components .windows (push .windows s n) = [.volume p, .rootDir, asNormal n] := by
  obtain ⟨v, t, hs, hlen, -⟩ := parsePrefix_split h
  obtain rfl := hs.eq
  rw [incomplete_of_prefixed h hlen] at hi
  cases t with
  | cons c t =>
    rw [PathPrefix.incomplete_cons hset] at hi
    cases hi
  | nil =>
    have hp := hs.reparse hset _ (Stop.cons p.stop_backslash
      (render v false (bodyComponents verbatimSep true [] ++ [asNormal n])))
    rw [push_verbatim hn hd h hlen hv (.nil _), List.tail_nil, hp, components_of_prefixed h hlen,
      components_of_prefixed hp hlen, afterPrefix_root (by rfl), hv, if_pos rfl,
      bodyComponents_render (segment_snoc hn)]
    refine ⟨rfl, ⟨?_, doubleSep_of_prefixed hp⟩, ?_, ?_⟩
    · rw [incomplete_of_prefixed hp hlen]
      exact PathPrefix.incomplete_cons hset _ _
    · simp [afterPrefix, hasPhysicalRoot, hv]
    · simp

/-- A push onto an incomplete buffer moves its prefix on, or makes a root the
buffer did not have. -/
theorem push_of_incomplete {s n : List Char} (hn : Plain n) (hd : parsePrefix .windows n = none)
    (hi : incomplete .windows s = true) :
    stage (parsePrefix .windows s) < stage (parsePrefix .windows (push .windows s n)) ∨
      (Complete .windows (push .windows s n) ∧ ∃ p, parsePrefix .windows s = some p ∧
        parsePrefix .windows (push .windows s n) = some p ∧ components .windows s = [.volume p] ∧
        components .windows (push .windows s n) = [.volume p, .rootDir, asNormal n]) := by
  cases hp : parsePrefix .windows s with
  | none =>
    simp only [incomplete, hp] at hi
    obtain ⟨p, hp', -⟩ := parsePrefix_push_of_startsPrefix hn hd hp hi
    rw [hp']
    exact .inl (stage_some_pos p)
  | some p =>
    cases hv : p.isVerbatim with
    | false =>
      -- of these only a device without a name is incomplete
      obtain rfl : p = .deviceNS [] := by
        simp only [incomplete, hp] at hi
        cases p with
        | deviceNS device =>
          simp only [PathPrefix.incomplete, Bool.and_eq_true, List.isEmpty_iff] at hi
          rw [hi.1]
        | unc => cases hi
        | disk => cases hi
        | _ => cases hv
      rw [parsePrefix_push_of_deviceNS hn hd hp hi, stage_deviceNS hn.ne_nil]
      exact .inl (by decide)
    | true =>
      by_cases hset : p.Settled
      · obtain ⟨hp', hc, hold, hnew⟩ := push_of_lone_verbatim hn hd hp hv hset hi
        exact .inr ⟨hc, p, rfl, hp', hold, hnew⟩
      · exact .inl (stage_push_of_unsettled hn hd hp hset)

/-- Pushing a name keeps the prefix or moves it to a later stage. -/
theorem stage_push {s n : List Char} (hn : Plain n) (hd : parsePrefix .windows n = none) :
    parsePrefix .windows (push .windows s n) = parsePrefix .windows s ∨
      stage (parsePrefix .windows s) < stage (parsePrefix .windows (push .windows s n)) := by
  cases hi : incomplete .windows s with
  | true =>
    rcases push_of_incomplete hn hd hi with h | ⟨-, p, h, h', -⟩
    · exact .inr h
    · exact .inl (h'.trans h.symm)
  | false =>
    cases hp : parsePrefix .windows s with
    | some p => exact .inl (push_of_complete_prefixed hn hd hp hi).1
    | none =>
      cases parsePrefix .windows (push .windows s n) with
      | none => exact .inl rfl
      | some p => exact .inr (stage_some_pos p)

/-- Pushing names keeps the prefix or moves it to a later stage. -/
theorem stage_foldl_push {s : List Char} {es : List (List Char)}
    (hes : ∀ e ∈ es, Plain e ∧ parsePrefix .windows e = none) :
    parsePrefix .windows (es.foldl (push .windows) s) = parsePrefix .windows s ∨
      stage (parsePrefix .windows s) <
        stage (parsePrefix .windows (es.foldl (push .windows) s)) := by
  induction es generalizing s with
  | nil => exact .inl rfl
  | cons e es ih =>
    obtain ⟨⟨he, hd⟩, hes⟩ := List.forall_mem_cons.mp hes
    rw [List.foldl_cons]
    rcases stage_push (s := s) he hd with h | h
    · rw [← h]
      exact ih hes
    · right
      rcases ih (s := push .windows s e) hes with h' | h'
      · rwa [h']
      · exact Nat.lt_trans h h'

/-- The prefix at the head of a list of components. -/
def volume? : List Component → Option PathPrefix
  | .volume p :: _ => some p
  | _ => none

/-- No component after the prefix is a prefix. -/
theorem parseSingleComponent_ne_volume {verbatim : Bool} {text : List Char} {p : PathPrefix} :
    parseSingleComponent verbatim text ≠ some (.volume p) := by
  unfold parseSingleComponent
  split
  · split <;> simp
  · split
    · simp
    · split <;> simp

/-- What follows the prefix has no prefix in it. -/
theorem volume_not_mem_afterPrefix {platform : Platform} {q : Option PathPrefix} {p : PathPrefix}
    (rest : List Char) : .volume p ∉ afterPrefix platform q rest := by
  have hbody : ∀ sep verbatim text, Component.volume p ∉ bodyComponents sep verbatim text := by
    intro sep verbatim text hp
    obtain ⟨piece, -, hpiece⟩ := List.mem_filterMap.mp hp
    exact parseSingleComponent_ne_volume hpiece
  intro hp
  simp only [afterPrefix] at hp
  split at hp
  · simp [hbody] at hp
  · split at hp <;> split at hp <;> simp [hbody] at hp

/-- The prefix of a path is the one among its components. -/
theorem volume?_components_append {platform : Platform} (path : List Char)
    (es : List (List Char)) :
    volume? (components platform path ++ es.map asNormal) = parsePrefix platform path := by
  rw [components]
  cases parsePrefix platform path with
  | some p => rfl
  | none =>
    rw [Option.toList_none, List.map_nil, List.nil_append]
    generalize hcs : afterPrefix platform none _ ++ es.map asNormal = cs
    cases cs with
    | nil => rfl
    | cons c cs =>
      cases c with
      | volume p =>
        have hp : Component.volume p ∈ afterPrefix platform none
            (path.drop (prefixLen platform path)) ++ es.map asNormal := by
          rw [hcs]
          exact List.mem_cons_self
        rcases List.mem_append.mp hp with hp | hp
        · exact absurd hp (volume_not_mem_afterPrefix _)
        · simp [asNormal] at hp
      | _ => rfl

/-- Paths that have the same components up to names have the same prefix. -/
theorem parsePrefix_eq_of_components {platform : Platform} {s u : List Char}
    {l m : List (List Char)}
    (h : components platform s ++ l.map asNormal = components platform u ++ m.map asNormal) :
    parsePrefix platform s = parsePrefix platform u := by
  rw [← volume?_components_append s l, h, volume?_components_append]

/-- Names pushed onto an incomplete buffer change its prefix for good, or follow
a root that was not there. -/
theorem foldl_push_of_incomplete {s e : List Char} {es : List (List Char)}
    (hes : ∀ x ∈ e :: es, Plain x ∧ parsePrefix .windows x = none)
    (hi : incomplete .windows s = true) :
    parsePrefix .windows ((e :: es).foldl (push .windows) s) ≠ parsePrefix .windows s ∨
      ∃ p, components .windows s = [.volume p] ∧
        components .windows ((e :: es).foldl (push .windows) s) =
          .volume p :: .rootDir :: (e :: es).map asNormal := by
  obtain ⟨⟨he, hd⟩, hes⟩ := List.forall_mem_cons.mp hes
  rw [List.foldl_cons]
  rcases push_of_incomplete he hd hi with hlt | ⟨hc, p, -, -, hold, hnew⟩
  · left
    intro hpp
    rcases stage_foldl_push (s := push .windows s e) hes with h | h
    · rw [← h, hpp] at hlt
      exact Nat.lt_irrefl _ hlt
    · rw [hpp] at h
      exact Nat.lt_irrefl _ (Nat.lt_trans hlt h)
  · right
    exact ⟨p, hold, by rw [hc.foldl_push hes, hnew]; rfl⟩

/-- Names pushed onto an incomplete buffer are never just more components. -/
theorem components_foldl_push_of_incomplete {s e : List Char} {es : List (List Char)}
    (hes : ∀ x ∈ e :: es, Plain x ∧ parsePrefix .windows x = none)
    (hi : incomplete .windows s = true) :
    components .windows ((e :: es).foldl (push .windows) s) ≠
      components .windows s ++ (e :: es).map asNormal := by
  intro heq
  rcases foldl_push_of_incomplete hes hi with hne | ⟨p, hold, hnew⟩
  · apply hne
    apply parsePrefix_eq_of_components (l := []) (m := e :: es)
    rwa [List.map_nil, List.append_nil]
  · rw [hold, hnew] at heq
    simp [asNormal] at heq

/-- Two separators and a name have no prefix yet, and start one. -/
theorem push_of_doubleSep {s n : List Char} (hn : Plain n) (hd : parsePrefix .windows n = none)
    (h : doubleSep .windows s = true) :
    parsePrefix .windows s = none ∧ parsePrefix .windows (push .windows s n) = none ∧
      startsPrefix (push .windows s n) = true ∧
      (parseNextComponent winSep ((push .windows s n).drop 2)).1 = n := by
  match s, h with
  | [a, b], h =>
    obtain ⟨ha, hb⟩ := Bool.and_eq_true_iff.mp h
    have hp : parsePrefix .windows [a, b] = none := by
      rw [parsePrefix_doubled ha hb, parseDoubled_of_noSep (by simp)]
    have hpush : push .windows [a, b] n = a :: b :: n := by
      rw [push_plain hn hd (by simp [hp]), if_neg (by simp [isSep, hb])]
      rfl
    have hnext := parseNextComponent_append hn.noSep (.nil _)
    rw [List.append_nil] at hnext
    rw [hpush]
    refine ⟨hp, ?_, ?_, ?_⟩
    · rw [parsePrefix_doubled ha hb, parseDoubled_of_noSep hn.noSep]
    · simpa [startsPrefix, hnext, ha, hb] using hn.ne_nil
    · simp [hnext]

/-- Two separators take one name as a component, and are incomplete with it. -/
theorem components_push_of_doubleSep {s n : List Char} (hn : Plain n)
    (hd : parsePrefix .windows n = none) (h : doubleSep .windows s = true) :
    components .windows (push .windows s n) = components .windows s ++ [asNormal n] ∧
      incomplete .windows (push .windows s n) = true := by
  obtain ⟨hp, hp', hs, -⟩ := push_of_doubleSep hn hd h
  refine ⟨components_push_of_none hn hd hp hp', ?_⟩
  simpa only [incomplete, hp'] using hs

/-! ## Names with a prefix -/

/-- A component that is a name is written as the name. -/
theorem eq_of_parseSingleComponent {verbatim : Bool} {text n : List Char}
    (h : parseSingleComponent verbatim text = some (asNormal n)) : text = n := by
  unfold parseSingleComponent at h
  split at h
  · split at h <;> cases h
  · split at h
    · cases h
    · split at h
      · cases h
      · exact asNormal_inj (Option.some.inj h)

/-- The only prefix a plain name can carry is a drive. The name is then not one
of its own components. -/
theorem Plain.drive {d : List Char} {p : PathPrefix} (hn : Plain d)
    (h : parsePrefix .windows d = some p) :
    (∃ c, p = .disk c) ∧ Complete .windows d ∧ asNormal d ∉ components .windows d := by
  match d, h with
  | [], h => cases h
  | [_], h => cases h
  | a :: b :: rest, h =>
    have hab : ¬(winSep a = true ∧ winSep b = true) := by simp [hn.noSep a (by simp)]
    have hdisk := h
    rw [parsePrefix_single hab] at hdisk
    obtain ⟨c, -, rfl⟩ := Option.map_eq_some_iff.mp hdisk
    have hrest : ∀ x ∈ rest, winSep x = false := fun x hx => hn.noSep x (by simp [hx])
    refine ⟨⟨c, rfl⟩, ⟨by simp [incomplete, h, PathPrefix.incomplete], doubleSep_of_prefixed h⟩, ?_⟩
    have hroot : hasPhysicalRoot .windows rest = false := by
      cases rest with
      | nil => rfl
      | cons x rest => exact hrest x (by simp)
    have hcomp : components .windows (a :: b :: rest) = _ :=
      components_of_prefixed (v := [a, b]) (t := rest) h rfl
    rw [hcomp, afterPrefix_drive_relative rfl hroot, bodyComponents_of_noSep hrest]
    intro hmem
    rcases List.mem_cons.mp hmem with hmem | hmem
    · cases hmem
    · have := congrArg List.length (eq_of_parseSingleComponent (Option.mem_toList.mp hmem))
      simp only [List.length_cons] at this
      omega

/-- The last name with a prefix, and the names after it. -/
theorem exists_last_prefixed {es : List (List Char)} (h : ∃ e ∈ es, parsePrefix .windows e ≠ none) :
    ∃ before d after, es = before ++ d :: after ∧ parsePrefix .windows d ≠ none ∧
      ∀ e ∈ after, parsePrefix .windows e = none := by
  induction es with
  | nil => simp at h
  | cons e es ih =>
    by_cases hes : ∃ e ∈ es, parsePrefix .windows e ≠ none
    · obtain ⟨before, d, after, rfl, hd, hafter⟩ := ih hes
      exact ⟨e :: before, d, after, rfl, hd, hafter⟩
    · have hnone : ∀ e ∈ es, parsePrefix .windows e = none := by simpa using hes
      obtain ⟨d, hd, hpd⟩ := h
      rcases List.mem_cons.mp hd with rfl | hd
      · exact ⟨[], d, es, rfl, hpd, hnone⟩
      · exact absurd (hnone d hd) hpd

/-- From its last name with a prefix on, a list of names does not depend on the
buffer it is pushed onto. -/
theorem components_foldl_push_of_prefixed {before after : List (List Char)} {d : List Char}
    (hd : Plain d) (hp : parsePrefix .windows d ≠ none)
    (hafter : ∀ e ∈ after, Plain e ∧ parsePrefix .windows e = none) (s : List Char) :
    components .windows ((before ++ d :: after).foldl (push .windows) s) =
      components .windows d ++ after.map asNormal := by
  obtain ⟨p, hp⟩ := Option.ne_none_iff_exists'.mp hp
  rw [List.foldl_append, List.foldl_cons, push_of_prefixed (by rw [hp]; rfl)]
  exact (hd.drive hp).2.1.foldl_push hafter

/-! ## The exact condition -/

/-- Pushing the names adds them as ordinary components. -/
def Joinable (platform : Platform) (s : List Char) (es : List (List Char)) : Prop :=
  (∀ e ∈ es, parsePrefix platform e = none) ∧ incomplete platform s = false ∧
    (doubleSep platform s = true → es.length = 1)

/-- When a name carries a prefix, the components are not those of the base and the names. -/
theorem not_components_of_prefixed {s : List Char} {es : List (List Char)} (hes : ∀ e ∈ es, Plain e)
    (h : ∃ e ∈ es, parsePrefix .windows e ≠ none) :
    components .windows (es.foldl (push .windows) s) ≠
      components .windows s ++ es.map asNormal := by
  obtain ⟨before, d, after, rfl, hd, hafter⟩ := exists_last_prefixed h
  have hplain := hes d (by simp)
  obtain ⟨p, hp⟩ := Option.ne_none_iff_exists'.mp hd
  rw [components_foldl_push_of_prefixed hplain hd
    (fun e he => ⟨hes e (by simp [he]), hafter e he⟩), List.map_append, List.map_cons,
    List.append_cons, ← List.append_assoc]
  intro heq
  apply (hplain.drive hp).2.2
  rw [List.append_cancel_right heq]
  simp

/-- Two names pushed on two separators do not become the components after it. -/
theorem not_components_of_doubleSep {s e e' : List Char} {es : List (List Char)}
    (hes : ∀ x ∈ e :: e' :: es, Plain x ∧ parsePrefix .windows x = none)
    (h : doubleSep .windows s = true) :
    components .windows ((e :: e' :: es).foldl (push .windows) s) ≠
      components .windows s ++ (e :: e' :: es).map asNormal := by
  obtain ⟨⟨he, hd⟩, hes⟩ := List.forall_mem_cons.mp hes
  obtain ⟨hc, hi⟩ := components_push_of_doubleSep he hd h
  rw [List.foldl_cons, List.map_cons, List.append_cons, ← hc]
  exact components_foldl_push_of_incomplete hes hi

/-- Pushed plain names are just more components, exactly when they are joinable. -/
theorem components_foldl_push_iff {platform : Platform} {s : List Char} {es : List (List Char)}
    (hne : es ≠ []) (hes : ∀ e ∈ es, Plain e) :
    components platform (es.foldl (push platform) s) =
        components platform s ++ es.map asNormal ↔ Joinable platform s es := by
  constructor
  · intro heq
    cases platform with
    | unix => exact ⟨fun _ _ => rfl, rfl, fun h => by cases h⟩
    | windows =>
      have hd : ∀ e ∈ es, parsePrefix .windows e = none := by
        by_contra hd
        exact not_components_of_prefixed hes (by simpa using hd) heq
      have hboth : ∀ e ∈ es, Plain e ∧ parsePrefix .windows e = none :=
        fun e he => ⟨hes e he, hd e he⟩
      match es, hne, hboth with
      | e :: es, _, hboth =>
        refine ⟨hd, ?_, ?_⟩
        · by_contra hi
          exact components_foldl_push_of_incomplete hboth (by simpa using hi) heq
        · intro h
          cases es with
          | nil => rfl
          | cons e' es => exact absurd heq (not_components_of_doubleSep hboth h)
  · rintro ⟨hd, hi, hs⟩
    cases h : doubleSep platform s with
    | false => exact Complete.foldl_push ⟨hi, h⟩ (fun e he => ⟨hes e he, hd e he⟩)
    | true =>
      obtain ⟨e, rfl⟩ := List.length_eq_one_iff.mp (hs h)
      cases platform with
      | unix => cases h
      | windows => exact (components_push_of_doubleSep (hes e (by simp)) (hd e (by simp)) h).1

end Torrentina.Core.Path
