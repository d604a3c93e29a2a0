import Mathlib.Data.List.TakeWhile
import Torrentina.Core.Path

/-!
# Windows prefixes as text

A path that parses to a prefix is the text of the prefix and a rest. The prefix
is read off its own text and the separator that ends it, so another rest after
such a separator leaves it as it is. The two prefixes of which this is not true
are unfinished ones: `\\?\UNC` and `\\?\UNC\server`.
-/

namespace Torrentina.Core.Path

/-- A backslash is a separator on Windows. -/
theorem winSep_of_verbatimSep {c : Char} (h : verbatimSep c = true) : winSep c = true := by
  simp_all [verbatimSep, winSep]

/-! ## Where a prefix stops -/

/-- Nothing follows, or a separator does. -/
def Stop (sep : Char → Bool) (t : List Char) : Prop := ∀ c ∈ t.head?, sep c = true

/-- The end of a path stops a component. -/
theorem Stop.nil (sep : Char → Bool) : Stop sep [] := by
  simp [Stop]

/-- A separator stops a component. -/
theorem Stop.cons {sep : Char → Bool} {c : Char} (h : sep c = true) (t : List Char) :
    Stop sep (c :: t) := by
  simpa [Stop] using h

/-- Text that goes on stops a component exactly with a separator. -/
theorem Stop.cons_iff {sep : Char → Bool} {c : Char} {t : List Char} :
    Stop sep (c :: t) ↔ sep c = true := by
  simp [Stop]

/-- The next component reaches up to the first separator. -/
theorem parseNextComponent_append {sep : Char → Bool} {x t : List Char}
    (hx : ∀ c ∈ x, sep c = false) (ht : Stop sep t) :
    parseNextComponent sep (x ++ t) = (x, t.tail) := by
  have hx' : ∀ c ∈ x, (!sep c) = true := by
    intro c hc
    rw [hx c hc]
    rfl
  rw [parseNextComponent, List.takeWhile_append_of_pos hx', List.dropWhile_append_of_pos hx']
  cases t with
  | nil => simp
  | cons c t => simp [Stop.cons_iff.mp ht]

/-- Every path is a component and what stops it. -/
theorem exists_next (sep : Char → Bool) (path : List Char) :
    ∃ x t, path = x ++ t ∧ (∀ c ∈ x, sep c = false) ∧ Stop sep t := by
  refine ⟨path.takeWhile (!sep ·), path.dropWhile (!sep ·), by simp, ?_, ?_⟩
  · intro c hc
    simpa using List.mem_takeWhile_imp hc
  · intro c hc
    have := List.head?_dropWhile_not (!sep ·) path
    rw [Option.mem_def.mp hc] at this
    simpa using this

namespace PathPrefix

/-- The characters that may follow a prefix. -/
def stop : PathPrefix → Char → Bool
  | .verbatim _ | .verbatimUNC _ _ => verbatimSep
  | .disk _ => fun _ => true
  | _ => winSep

/-- A prefix that a separator after it leaves as it is. -/
def Settled (p : PathPrefix) : Prop :=
  p ≠ .verbatim ['U', 'N', 'C'] ∧ ∀ server, p ≠ .verbatimUNC server []

end PathPrefix

/-- `UNC` and a separator. -/
theorem take_three_append {name t : List Char} (hne : name ≠ ['U', 'N', 'C'])
    (ht : Stop verbatimSep t) :
    ((name ++ t).take 3 = ['U', 'N', 'C'] ∧ (name ++ t)[3]?.any winSep = true) ↔
      (name.take 3 = ['U', 'N', 'C'] ∧ name[3]?.any winSep = true) := by
  have hU : ∀ c u, t = c :: u → c = '\\' := by
    rintro c u rfl
    simpa [verbatimSep] using Stop.cons_iff.mp ht
  match name with
  | [] =>
    cases t with
    | nil => rfl
    | cons c u => simp [hU c u rfl]
  | [a] =>
    cases t with
    | nil => rfl
    | cons c u => simp [hU c u rfl]
  | [a, b] =>
    cases t with
    | nil => rfl
    | cons c u => simp [hU c u rfl]
  | [a, b, c] => simp_all
  | a :: b :: c :: d :: name => simp

/-- A drive is a letter and a colon. -/
theorem parseDrive_cons_cons (a b : Char) (rest : List Char) :
    parseDrive (a :: b :: rest) = if b = ':' ∧ a.isAlpha = true then some a.toUpper else none := by
  by_cases hb : b = ':'
  · subst hb
    simp [parseDrive]
  · simp [parseDrive, hb]

/-- A path that begins with a separator has no drive. -/
theorem parseDrive_of_winSep {c : Char} (hc : winSep c = true) (rest : List Char) :
    parseDrive (c :: rest) = none := by
  have ha : c.isAlpha = false := by
    rw [winSep, Bool.or_eq_true, beq_iff_eq, beq_iff_eq] at hc
    rcases hc with rfl | rfl <;> rfl
  cases rest with
  | nil => rfl
  | cons b rest => simp [parseDrive_cons_cons, ha]

/-- Whether a component is a drive does not depend on what follows it. -/
theorem parseDriveExact_append {name t : List Char} (ht : Stop verbatimSep t) :
    parseDriveExact (name ++ t) = parseDriveExact name := by
  match name, t, ht with
  | name, [], _ => rw [List.append_nil]
  | [], c :: u, ht =>
    have hc := winSep_of_verbatimSep (Stop.cons_iff.mp ht)
    rw [List.nil_append, parseDriveExact, parseDrive_of_winSep hc]
    simp [parseDriveExact, parseDrive]
  | [a], c :: u, ht =>
    have hc : c ≠ ':' := by
      rintro rfl
      cases Stop.cons_iff.mp ht
    simp [parseDriveExact, parseDrive, hc]
  | [a, b], c :: u, ht =>
    simp [parseDriveExact, parseDrive_cons_cons, winSep_of_verbatimSep (Stop.cons_iff.mp ht)]
  | a :: b :: c :: name, t, _ => simp [parseDriveExact, parseDrive_cons_cons]

/-- The text of a prefix, the text after it, and what may be put there instead. -/
structure Split (parse : List Char → Option PathPrefix) (s : List Char) (p : PathPrefix)
    (v t : List Char) : Prop where
  eq : s = v ++ t
  stop : Stop p.stop t
  reparse : p.Settled → ∀ u, Stop p.stop u → parse (v ++ u) = some p

/-- A verbatim path to a share names its server and share. -/
theorem parseVerbatim_unc (e : Char) (rest : List Char) (he : winSep e = true) :
    parseVerbatim ('U' :: 'N' :: 'C' :: e :: rest) =
      .verbatimUNC (parseNextComponent verbatimSep rest).1
        (parseNextComponent verbatimSep (parseNextComponent verbatimSep rest).2).1 := by
  simp [parseVerbatim, he]

/-- Three letters and a separator are the beginning of the path. -/
theorem exists_of_take_three {path : List Char}
    (h : path.take 3 = ['U', 'N', 'C'] ∧ path[3]?.any winSep = true) :
    ∃ e rest, path = 'U' :: 'N' :: 'C' :: e :: rest ∧ winSep e = true := by
  match path, h with
  | a :: b :: c :: e :: rest, h =>
    simp only [List.take_succ_cons, List.take_zero, List.cons.injEq, and_true] at h
    obtain ⟨⟨rfl, rfl, rfl⟩, he⟩ := h
    exact ⟨e, rest, rfl, he⟩

/-- A verbatim path may begin with a drive. -/
theorem parseVerbatim_disk {c : Char} {t : List Char} (hc : c.isAlpha = true)
    (ht : Stop winSep t) : parseVerbatim (c :: ':' :: t) = .verbatimDisk c.toUpper := by
  have hd : parseDriveExact (c :: ':' :: t) = some c.toUpper := by
    cases t with
    | nil => simp [parseDriveExact, parseDrive_cons_cons, hc]
    | cons d t => simp [parseDriveExact, parseDrive_cons_cons, hc, Stop.cons_iff.mp ht]
  simp [parseVerbatim, hd]

/-- What a drive is read off. -/
theorem exists_of_parseDrive {path : List Char} {d : Char} (h : parseDrive path = some d) :
    ∃ c t, path = c :: ':' :: t ∧ c.isAlpha = true ∧ d = c.toUpper := by
  match path, h with
  | c :: b :: t, h =>
    rw [parseDrive_cons_cons] at h
    split at h
    · rename_i hb
      obtain ⟨rfl, hc⟩ := hb
      exact ⟨c, t, rfl, hc, (Option.some.inj h).symm⟩
    · cases h

/-- A drive that is a whole component is followed by a stop. -/
theorem exists_of_parseDriveExact {path : List Char} {d : Char}
    (h : parseDriveExact path = some d) :
    ∃ c t, path = c :: ':' :: t ∧ c.isAlpha = true ∧ Stop winSep t := by
  rw [parseDriveExact] at h
  split at h
  · rename_i hall
    obtain ⟨c, t, rfl, hc, -⟩ := exists_of_parseDrive h
    refine ⟨c, t, rfl, hc, ?_⟩
    cases t with
    | nil => exact .nil _
    | cons e t => exact .cons (by simpa using hall) t
  · cases h

/-- A verbatim path that begins with neither a share nor a drive begins with a name. -/
theorem parseVerbatim_name {name t : List Char} (hname : ∀ c ∈ name, verbatimSep c = false)
    (ht : Stop verbatimSep t)
    (hunc : ¬((name ++ t).take 3 = ['U', 'N', 'C'] ∧ (name ++ t)[3]?.any winSep = true))
    (hdrive : parseDriveExact name = none) : parseVerbatim (name ++ t) = .verbatim name := by
  rw [parseVerbatim, if_neg hunc, parseDriveExact_append ht, hdrive]
  simp only [parseNextComponent_append hname ht]

/-- The text after `\\?\`. -/
theorem parseVerbatim_split (path : List Char) :
    ∃ v t, Split (fun s => some (parseVerbatim s)) path (parseVerbatim path) v t ∧
      (parseVerbatim path).len = 4 + v.length ∧ (parseVerbatim path).isVerbatim = true := by
  by_cases hunc : path.take 3 = ['U', 'N', 'C'] ∧ path[3]?.any winSep = true
  · obtain ⟨e, rest, rfl, he⟩ := exists_of_take_three hunc
    obtain ⟨server, t, rfl, hserver, ht⟩ := exists_next verbatimSep rest
    obtain ⟨share, u, htail, hshare, hu⟩ := exists_next verbatimSep t.tail
    rw [parseVerbatim_unc _ _ he, parseNextComponent_append hserver ht, htail,
      parseNextComponent_append hshare hu]
    by_cases hnil : share = []
    · subst hnil
      refine ⟨'U' :: 'N' :: 'C' :: e :: server, t, ⟨rfl, ht, fun hs => ?_⟩, ?_, rfl⟩
      · exact absurd rfl (hs.2 server)
      · simp only [PathPrefix.len, if_true, List.length_cons]
        omega
    · cases t with
      | nil =>
        rw [List.tail_nil] at htail
        exact absurd (List.append_eq_nil_iff.mp htail.symm).1 hnil
      | cons d t =>
        rw [List.tail_cons] at htail
        subst htail
        refine ⟨'U' :: 'N' :: 'C' :: e :: (server ++ d :: share), u, ⟨by simp, hu, ?_⟩, ?_, rfl⟩
        · intro _ w hw
          have hw' := parseNextComponent_append hserver
            (Stop.cons (Stop.cons_iff.mp ht) (share ++ w))
          simp only [List.cons_append, List.append_assoc]
          rw [parseVerbatim_unc _ _ he, hw', List.tail_cons, parseNextComponent_append hshare hw]
        · simp only [PathPrefix.len, hnil, if_false, List.length_cons, List.length_append]
          omega
  · cases hdrive : parseDriveExact path with
    | some d =>
      obtain ⟨c, t, rfl, hc, ht⟩ := exists_of_parseDriveExact hdrive
      rw [parseVerbatim_disk hc ht]
      refine ⟨[c, ':'], t, ⟨rfl, ht, fun _ u hu => ?_⟩, rfl, rfl⟩
      exact congrArg some (parseVerbatim_disk hc hu)
    | none =>
      obtain ⟨name, t, rfl, hname, ht⟩ := exists_next verbatimSep path
      rw [parseDriveExact_append ht] at hdrive
      rw [parseVerbatim_name hname ht hunc hdrive]
      refine ⟨name, t, ⟨rfl, ht, fun hs u hu => ?_⟩, rfl, rfl⟩
      have hne : name ≠ ['U', 'N', 'C'] := fun he => hs.1 (he ▸ rfl)
      rw [take_three_append hne ht, ← take_three_append hne hu] at hunc
      exact congrArg some (parseVerbatim_name hname hu hunc hdrive)

/-- What two separators, a name and a separator start. -/
theorem parseDoubled_server {a b d : Char} {server : List Char} (hne : server ≠ [])
    (hserver : ∀ c ∈ server, winSep c = false) (hd : winSep d = true) (w : List Char) :
    parseDoubled a b (server ++ d :: w) =
      if a = '\\' ∧ b = '\\' ∧ d = '\\' ∧ server = ['?'] then some (parseVerbatim w)
      else if server = ['.'] then some (.deviceNS (parseNextComponent winSep w).1)
      else if (parseNextComponent winSep w).1 = [] then none
      else some (.unc server (parseNextComponent winSep w).1) := by
  have hunc : parseUNC (server ++ d :: w) =
      if (parseNextComponent winSep w).1 = [] then none
      else some (.unc server (parseNextComponent winSep w).1) := by
    rw [parseUNC, parseNextComponent_append hserver (.cons hd w)]
    simp [hne]
  rw [parseDoubled, hunc]
  match server, hne, hserver with
  | [x], _, _ => simp [hd, and_comm]
  | x :: y :: server, _, hserver =>
    have hy := hserver y (by simp)
    have hy' : y ≠ '\\' := by
      rintro rfl
      cases hy
    simp [hy, hy']

/-- Two leading separators alone name no share. -/
theorem parseDoubled_of_noSep {a b : Char} {path : List Char}
    (h : ∀ c ∈ path, winSep c = false) : parseDoubled a b path = none := by
  have hunc : parseUNC path = none := by
    have := parseNextComponent_append h (.nil _)
    rw [List.append_nil] at this
    rw [parseUNC, this]
    simp [parseNextComponent]
  rw [parseDoubled, hunc]
  match path, h with
  | [], _ => simp
  | [x], _ => simp
  | x :: y :: path, h =>
    have hy := h y (by simp)
    have hy' : y ≠ '\\' := by
      rintro rfl
      cases hy
    simp [hy, hy']

/-- Three leading separators are no prefix. -/
theorem parseDoubled_of_winSep {a b c : Char} (hc : winSep c = true) (w : List Char) :
    parseDoubled a b (c :: w) = none := by
  have hunc : parseUNC (c :: w) = none := by
    have := parseNextComponent_append (x := []) (by simp) (Stop.cons hc w)
    rw [List.nil_append] at this
    rw [parseUNC, this]
    simp
  have hq : c ≠ '?' := by
    rintro rfl
    cases hc
  have hdot : c ≠ '.' := by
    rintro rfl
    cases hc
  rw [parseDoubled, hunc]
  simp [hq, hdot]

/-- A prefix after two separators has a name and a separator in it. -/
theorem exists_of_parseDoubled {a b : Char} {path : List Char} {p : PathPrefix}
    (h : parseDoubled a b path = some p) :
    ∃ server d w, path = server ++ d :: w ∧ server ≠ [] ∧ (∀ c ∈ server, winSep c = false) ∧
      winSep d = true := by
  obtain ⟨server, t, rfl, hserver, ht⟩ := exists_next winSep path
  cases t with
  | nil =>
    rw [List.append_nil, parseDoubled_of_noSep hserver] at h
    cases h
  | cons d w =>
    have hd := Stop.cons_iff.mp ht
    refine ⟨server, d, w, rfl, ?_, hserver, hd⟩
    rintro rfl
    rw [List.nil_append, parseDoubled_of_winSep hd] at h
    cases h

/-- A path that ends in a component does not end in a separator. -/
theorem getLast?_noSep {l x : List Char} {d : Char} (hne : x ≠ [])
    (hx : ∀ c ∈ x, winSep c = false) : ∀ c ∈ (l ++ d :: x).getLast?, winSep c = false := by
  intro c hc
  rw [List.append_cons, List.getLast?_append_of_ne_nil _ hne] at hc
  exact hx c (List.mem_of_getLast? hc)

/-- The text after two separators. -/
theorem parseDoubled_split {a b : Char} {path : List Char} {p : PathPrefix}
    (h : parseDoubled a b path = some p) :
    ∃ v t, Split (parseDoubled a b) path p v t ∧ p.len = 2 + v.length ∧
      (p.isVerbatim = false → p ≠ .deviceNS [] → ∀ l : List Char, ∀ c ∈ (l ++ v).getLast?,
        winSep c = false) := by
  obtain ⟨server, d, w, rfl, hne, hserver, hd⟩ := exists_of_parseDoubled h
  rw [parseDoubled_server hne hserver hd] at h
  split at h
  · rename_i hq
    obtain rfl := Option.some.inj h
    obtain ⟨v, t, hsplit, hlen, hverb⟩ := parseVerbatim_split w
    refine ⟨server ++ d :: v, t, ⟨by simp [hsplit.eq], hsplit.stop, ?_⟩, ?_, ?_⟩
    · intro hs u hu
      rw [List.append_assoc, List.cons_append, parseDoubled_server hne hserver hd, if_pos hq]
      exact hsplit.reparse hs u hu
    · rw [hlen, hq.2.2.2]
      simp only [List.length_append, List.length_cons, List.length_nil]
      omega
    · intro hv
      rw [hverb] at hv
      cases hv
  · rename_i hq
    split at h
    · rename_i hdot
      obtain ⟨device, t, rfl, hdevice, ht⟩ := exists_next winSep w
      rw [parseNextComponent_append hdevice ht] at h
      obtain rfl := Option.some.inj h
      refine ⟨server ++ d :: device, t, ⟨by simp, ht, ?_⟩, ?_, ?_⟩
      · intro _ u hu
        rw [List.append_assoc, List.cons_append, parseDoubled_server hne hserver hd, if_neg hq,
          if_pos hdot, parseNextComponent_append hdevice hu]
      · rw [hdot]
        simp only [PathPrefix.len, List.length_append, List.length_cons, List.length_nil]
        omega
      · intro _ hdev l
        rw [← List.append_assoc]
        apply getLast?_noSep _ hdevice
        rintro rfl
        exact hdev rfl
    · rename_i hdot
      obtain ⟨share, t, rfl, hshare, ht⟩ := exists_next winSep w
      rw [parseNextComponent_append hshare ht] at h
      split at h
      · cases h
      · rename_i hnil
        obtain rfl := Option.some.inj h
        refine ⟨server ++ d :: share, t, ⟨by simp, ht, ?_⟩, ?_, ?_⟩
        · intro _ u hu
          rw [List.append_assoc, List.cons_append, parseDoubled_server hne hserver hd, if_neg hq,
            if_neg hdot, parseNextComponent_append hshare hu, if_neg hnil]
        · simp only [PathPrefix.len, List.length_append, List.length_cons, if_neg hnil]
          omega
        · intro _ _ l
          rw [← List.append_assoc]
          exact getLast?_noSep hnil hshare

/-- What two leading separators begin. -/
theorem parsePrefix_doubled {a b : Char} (ha : winSep a = true) (hb : winSep b = true)
    (rest : List Char) : parsePrefix .windows (a :: b :: rest) = parseDoubled a b rest := by
  simp [parsePrefix, ha, hb]

/-- Without two leading separators the only prefix is a drive. -/
theorem parsePrefix_single {a b : Char} (hab : ¬(winSep a = true ∧ winSep b = true))
    (rest : List Char) :
    parsePrefix .windows (a :: b :: rest) = (parseDrive (a :: b :: rest)).map .disk := by
  rw [parsePrefix, if_neg hab]

/-- A Windows prefix, the text after it, and what may be put there instead. -/
theorem parsePrefix_split {s : List Char} {p : PathPrefix}
    (h : parsePrefix .windows s = some p) :
    ∃ v t, Split (parsePrefix .windows) s p v t ∧ p.len = v.length ∧
      (p.isVerbatim = false → p ≠ .deviceNS [] → ∀ c ∈ v.getLast?, winSep c = false) := by
  match s, h with
  | [], h => cases h
  | [_], h => cases h
  | a :: b :: rest, h =>
    by_cases hab : winSep a = true ∧ winSep b = true
    · rw [parsePrefix_doubled hab.1 hab.2] at h
      obtain ⟨v, t, hsplit, hlen, hlast⟩ := parseDoubled_split h
      refine ⟨a :: b :: v, t, ⟨by simp [hsplit.eq], hsplit.stop, ?_⟩, ?_, ?_⟩
      · intro hs u hu
        rw [List.cons_append, List.cons_append, parsePrefix_doubled hab.1 hab.2]
        exact hsplit.reparse hs u hu
      · rw [hlen, List.length_cons, List.length_cons]
        omega
      · intro hv hd
        exact hlast hv hd [a, b]
    · rw [parsePrefix_single hab] at h
      obtain ⟨d, hdrive, rfl⟩ := Option.map_eq_some_iff.mp h
      obtain ⟨c, t, hct, hc, hd⟩ := exists_of_parseDrive hdrive
      obtain ⟨rfl, rfl, rfl⟩ := by simpa using hct
      refine ⟨[a, ':'], rest, ⟨rfl, fun _ _ => rfl, ?_⟩, rfl, ?_⟩
      · intro _ u _
        rw [List.cons_append, List.cons_append, List.nil_append, parsePrefix_single hab,
          parseDrive_cons_cons, if_pos ⟨rfl, hc⟩, hd]
        rfl
      · intro _ _ c hc
        obtain rfl := Option.some.inj hc
        rfl

end Torrentina.Core.Path
