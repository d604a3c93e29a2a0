import Torrentina.Core.PathPrefix

/-!
# What a push does to the components

A plain name is one that holds no separator of either platform and is not a dot
name. Pushing one adds it as a last ordinary component, unless the name carries
a drive or the buffer stops inside its own prefix. Both exceptions are exact, and
both are Windows ones.
-/

namespace Torrentina.Core.Path

/-- A name without separators that is neither empty nor a dot name. -/
structure Plain (n : List Char) : Prop where
  ne_nil : n ≠ []
  ne_dot : n ≠ ['.']
  ne_dotdot : n ≠ ['.', '.']
  noSep : ∀ c ∈ n, winSep c = false

/-- The component a plain name is read as. -/
def asNormal (n : List Char) : Component := .normal (String.ofList n)

/-- The component of a name tells which name it is. -/
theorem asNormal_inj {n m : List Char} (h : asNormal n = asNormal m) : n = m := by
  rw [asNormal, asNormal, Component.normal.injEq] at h
  exact String.ofList_injective h

/-! ## Separators -/

/-- A separator of either platform is one on Windows. -/
theorem winSep_of_isSep {platform : Platform} {c : Char} (h : isSep platform c = true) :
    winSep c = true := by
  cases platform with
  | unix => simp_all [isSep, winSep]
  | windows => exact h

/-- The separator that `push` puts in is one. -/
theorem isSep_mainSep (platform : Platform) : isSep platform (mainSep platform) = true := by
  cases platform <;> decide

namespace Plain

variable {n : List Char} (h : Plain n)

include h

/-- A plain name has no separator. -/
theorem isSep_false (platform : Platform) {c : Char} (hc : c ∈ n) : isSep platform c = false := by
  have hn := h.noSep c hc
  by_contra hs
  rw [winSep_of_isSep (by simpa using hs)] at hn
  cases hn

/-- A plain name has no backslash. -/
theorem verbatimSep_false {c : Char} (hc : c ∈ n) : verbatimSep c = false := by
  have hn := h.noSep c hc
  by_contra hs
  rw [winSep_of_verbatimSep (by simpa using hs)] at hn
  cases hn

/-- A plain name is read as itself. -/
theorem parseSingleComponent_eq (verbatim : Bool) :
    parseSingleComponent verbatim n = some (asNormal n) := by
  rw [parseSingleComponent, if_neg h.ne_dot, if_neg h.ne_dotdot, if_neg h.ne_nil, asNormal]

end Plain

/-! ## Bodies -/

@[simp] theorem bodyComponents_nil (sep : Char → Bool) (verbatim : Bool) :
    bodyComponents sep verbatim [] = [] := by
  simp [bodyComponents, parseSingleComponent]

/-- A separator splits the components of a path. -/
theorem bodyComponents_append_cons {sep : Char → Bool} {verbatim : Bool} {c : Char}
    (hc : sep c = true) (xs ys : List Char) :
    bodyComponents sep verbatim (xs ++ c :: ys) =
      bodyComponents sep verbatim xs ++ bodyComponents sep verbatim ys := by
  rw [bodyComponents, List.splitOnP_append_cons _ _ hc, List.filterMap_append]
  rfl

/-- Text without a separator is one component at most. -/
theorem bodyComponents_of_noSep {sep : Char → Bool} {verbatim : Bool} {text : List Char}
    (h : ∀ c ∈ text, sep c = false) :
    bodyComponents sep verbatim text = (parseSingleComponent verbatim text).toList := by
  rw [bodyComponents, List.splitOnP_eq_singleton h, List.filterMap_cons, List.filterMap_nil]
  cases parseSingleComponent verbatim text <;> rfl

/-- A plain name is the only component of itself. -/
theorem Plain.bodyComponents_eq {n : List Char} (h : Plain n) {sep : Char → Bool}
    (hs : ∀ c ∈ n, sep c = false) (verbatim : Bool) :
    bodyComponents sep verbatim n = [asNormal n] := by
  rw [bodyComponents_of_noSep hs, h.parseSingleComponent_eq]
  rfl

/-- `ys` is `xs` and then `n`, with a separator between them unless `xs` is
empty or ends in one. -/
inductive Joined (sep : Char → Bool) (n : List Char) : List Char → List Char → Prop
  | sep (xs : List Char) {c : Char} (hxs : ∀ d ∈ xs.getLast?, sep d = false) (hc : sep c = true) :
    Joined sep n xs (xs ++ c :: n)
  | nil : Joined sep n [] n
  | ended (xs : List Char) {c : Char} (hc : sep c = true) : Joined sep n (xs ++ [c]) (xs ++ c :: n)

/-- Joining a name adds it as the last component. -/
theorem Joined.bodyComponents_eq {sep : Char → Bool} {n xs ys : List Char}
    (h : Joined sep n xs ys) (hn : Plain n) (hs : ∀ c ∈ n, sep c = false) (verbatim : Bool) :
    bodyComponents sep verbatim ys = bodyComponents sep verbatim xs ++ [asNormal n] := by
  have hbody := hn.bodyComponents_eq hs verbatim
  cases h with
  | sep xs _ hc => rw [bodyComponents_append_cons hc, hbody]
  | nil => rw [hbody, bodyComponents_nil, List.nil_append]
  | ended xs hc =>
    rw [bodyComponents_append_cons hc, bodyComponents_append_cons hc, hbody, bodyComponents_nil,
      List.append_nil]

/-- Joining works on the end of the text only. -/
theorem Joined.of_cons {sep : Char → Bool} {n xs ys : List Char} {d : Char}
    (h : Joined sep n (d :: xs) ys) : ∃ zs, ys = d :: zs ∧ Joined sep n xs zs := by
  generalize hds : d :: xs = ds at h
  cases h with
  | sep _ hxs hc =>
    subst hds
    refine ⟨_, rfl, .sep xs ?_ hc⟩
    intro e he
    exact hxs e (List.mem_getLast?_cons he)
  | nil => cases hds
  | ended zs hc =>
    cases zs with
    | nil =>
      obtain ⟨rfl, rfl⟩ := List.cons.inj hds
      exact ⟨n, rfl, .nil⟩
    | cons z zs =>
      obtain ⟨rfl, rfl⟩ := List.cons.inj hds
      exact ⟨_, rfl, .ended zs hc⟩

/-- A name is joined to the end of a path, and what comes before stays. -/
theorem Joined.of_append {sep : Char → Bool} {n v xs ys : List Char}
    (h : Joined sep n (v ++ xs) ys) : ∃ zs, ys = v ++ zs ∧ Joined sep n xs zs := by
  induction v generalizing ys with
  | nil => exact ⟨ys, rfl, h⟩
  | cons d v ih =>
    obtain ⟨zs, rfl, hzs⟩ := h.of_cons
    obtain ⟨ws, rfl, hws⟩ := ih hzs
    exact ⟨ws, rfl, hws⟩

/-! ## Paths without a prefix -/

/-- Whether a path begins with a dot does not change when a name is joined. -/
theorem includeCurDir_joined {platform : Platform} {n xs ys : List Char} {d : Char}
    (h : Joined (isSep platform) n (d :: xs) ys) (hd : isSep platform d = false) :
    includeCurDir platform ys = includeCurDir platform (d :: xs) := by
  obtain ⟨zs, rfl, hzs⟩ := h.of_cons
  cases xs with
  | cons e xs =>
    obtain ⟨ws, rfl, -⟩ := hzs.of_cons
    by_cases hdot : d = '.'
    · subst hdot
      rfl
    · simp [includeCurDir, hdot]
  | nil =>
    -- the buffer is one character that is no separator, so one was put after it
    generalize hds : [d] = ds at h
    generalize hes : d :: zs = es at h
    cases h with
    | nil => cases hds
    | ended ws hc =>
      obtain ⟨rfl, hcd⟩ := List.append_inj' (show [] ++ [d] = _ from hds) rfl
      obtain rfl := List.singleton_inj.mp hcd
      rw [hc] at hd
      cases hd
    | sep _ _ hc =>
      subst hds
      obtain rfl := (List.cons.inj hes).2
      by_cases hdot : d = '.'
      · subst hdot
        exact hc
      · simp [includeCurDir, hdot]

/-- A plain name does not begin with a separator. -/
theorem Plain.hasPhysicalRoot_false {n : List Char} (hn : Plain n) (platform : Platform) :
    hasPhysicalRoot platform n = false := by
  cases n with
  | nil => exact absurd rfl hn.ne_nil
  | cons c n => exact hn.isSep_false platform List.mem_cons_self

/-- A plain name without a prefix is a single component. -/
theorem Plain.afterPrefix_none {platform : Platform} {n : List Char} (hn : Plain n) :
    afterPrefix platform none n = [asNormal n] := by
  have hdot : includeCurDir platform n = false := by
    unfold includeCurDir
    split
    · exact absurd rfl hn.ne_dot
    · exact hn.isSep_false platform (by simp)
    · rfl
  simp only [afterPrefix, hn.hasPhysicalRoot_false, hdot, Bool.false_eq_true, if_false]
  exact hn.bodyComponents_eq (fun c hc => hn.isSep_false platform hc) _

/-- Without a prefix a joined name is one more component. -/
theorem afterPrefix_none_joined {platform : Platform} {n xs ys : List Char} (hn : Plain n)
    (h : Joined (isSep platform) n xs ys) (hne : xs ≠ [] ∨ ys = n) :
    afterPrefix platform none ys = afterPrefix platform none xs ++ [asNormal n] := by
  cases xs with
  | nil =>
    obtain rfl := hne.resolve_left (fun hne => hne rfl)
    rw [hn.afterPrefix_none]
    rfl
  | cons d xs =>
    have hbody : ∀ {xs ys}, Joined (isSep platform) n xs ys →
        bodyComponents (isSep platform) false ys =
          bodyComponents (isSep platform) false xs ++ [asNormal n] := fun h =>
      h.bodyComponents_eq hn (fun c hc => hn.isSep_false platform hc) false
    obtain ⟨zs, rfl, hzs⟩ := h.of_cons
    by_cases hd : isSep platform d
    · simp only [afterPrefix, hasPhysicalRoot, List.head?_cons, Option.any_some, hd, if_true,
        List.tail_cons, Option.any_none, Bool.false_eq_true, if_false, List.cons_append]
      rw [hbody hzs]
    · simp only [afterPrefix, hasPhysicalRoot, List.head?_cons, Option.any_some, hd,
        Bool.false_eq_true, if_false, Option.any_none, List.tail_cons,
        includeCurDir_joined h (by simpa using hd)]
      split
      · rw [hbody hzs, List.cons_append]
      · rw [hbody h]

/-- The components of a path without a prefix. -/
theorem components_of_parsePrefix_none {platform : Platform} {path : List Char}
    (h : parsePrefix platform path = none) :
    components platform path = afterPrefix platform none path := by
  rw [components, prefixLen, h]
  rfl

/-- A plain name that is no prefix is a path of one component. -/
theorem Plain.components_eq {platform : Platform} {n : List Char} (hn : Plain n)
    (hd : parsePrefix platform n = none) : components platform n = [asNormal n] := by
  rw [components_of_parsePrefix_none hd, hn.afterPrefix_none]

/-! ## Pushing a plain name -/

/-- The buffer is a drive with nothing after it. -/
def bareDrive (platform : Platform) (buf : List Char) : Bool :=
  (parsePrefix platform buf).any PathPrefix.isDrive && prefixLen platform buf == buf.length

/-- A plain name that is no prefix has no root. -/
theorem Plain.hasRoot_false {platform : Platform} {n : List Char} (hn : Plain n)
    (hd : parsePrefix platform n = none) : hasRoot platform n = false := by
  simp [hasRoot, prefixLen, hd, hn.hasPhysicalRoot_false]

/-- A plain name that is no prefix is relative. -/
theorem Plain.isAbsolute_false {platform : Platform} {n : List Char} (hn : Plain n)
    (hd : parsePrefix platform n = none) : isAbsolute platform n = false := by
  cases platform with
  | unix => exact hn.hasRoot_false hd
  | windows => simp [isAbsolute, hd]

/-- Pushing a name that carries a prefix replaces the path. -/
theorem push_of_prefixed {platform : Platform} {buf n : List Char}
    (hd : (parsePrefix platform n).isSome = true) : push platform buf n = n := by
  simp [push, hd]

/-- A plain name that carries no prefix is appended. -/
theorem push_plain {platform : Platform} {s n : List Char} (hn : Plain n)
    (hd : parsePrefix platform n = none)
    (hv : (parsePrefix platform s).any PathPrefix.isVerbatim = false) :
    push platform s n =
      if s.getLast?.any (!isSep platform ·) && !bareDrive platform s then
        s ++ mainSep platform :: n
      else s ++ n := by
  simp only [push, hn.isAbsolute_false hd, hd, hv, hn.hasRoot_false hd, Option.isSome_none,
    Bool.or_false, Bool.false_and, Bool.false_eq_true, if_false]
  rfl

/-- Pushing a plain name on a path that is neither verbatim nor a bare drive joins it with a
separator. -/
theorem push_joined {platform : Platform} {s n : List Char} (hn : Plain n)
    (hd : parsePrefix platform n = none)
    (hv : (parsePrefix platform s).any PathPrefix.isVerbatim = false)
    (hb : bareDrive platform s = false) :
    Joined (isSep platform) n s (push platform s n) ∧ (s ≠ [] ∨ push platform s n = n) := by
  rw [push_plain hn hd hv, hb]
  rcases List.eq_nil_or_concat s with rfl | ⟨xs, c, rfl⟩
  · exact ⟨.nil, .inr rfl⟩
  · rw [List.concat_eq_append, List.getLast?_concat, Option.any_some]
    cases hc : isSep platform c with
    | true =>
      rw [if_neg (by simp), List.append_assoc]
      exact ⟨.ended xs hc, .inl (by simp)⟩
    | false =>
      rw [if_pos (by simp)]
      exact ⟨.sep _ (by simpa using hc) (isSep_mainSep platform), .inl (by simp)⟩

/-- Without a prefix in the way the name is one more component. -/
theorem components_push_of_none {platform : Platform} {buf n : List Char} (hn : Plain n)
    (hd : parsePrefix platform n = none) (hp : parsePrefix platform buf = none)
    (hp' : parsePrefix platform (push platform buf n) = none) :
    components platform (push platform buf n) = components platform buf ++ [asNormal n] := by
  obtain ⟨hj, hne⟩ := push_joined hn hd (s := buf) (by simp [hp]) (by simp [bareDrive, hp])
  rw [components_of_parsePrefix_none hp', components_of_parsePrefix_none hp]
  exact afterPrefix_none_joined hn hj hne

/-! ## Buffers with a prefix -/

/-- The components of a path with a prefix. -/
theorem components_of_prefixed {v t : List Char} {p : PathPrefix}
    (h : parsePrefix .windows (v ++ t) = some p) (hlen : p.len = v.length) :
    components .windows (v ++ t) = .volume p :: afterPrefix .windows (some p) t := by
  rw [components, prefixLen, h, Option.map_some, Option.getD_some, hlen, List.drop_left]
  rfl

/-- A separator after the prefix is the root. -/
theorem afterPrefix_root {p : PathPrefix} {c : Char} (hc : winSep c = true) (t : List Char) :
    afterPrefix .windows (some p) (c :: t) =
      .rootDir :: bodyComponents (if p.isVerbatim then verbatimSep else winSep) p.isVerbatim t := by
  simp only [afterPrefix, hasPhysicalRoot, List.head?_cons, Option.any_some, isSep, hc, if_true,
    List.tail_cons]

/-- A prefix other than a drive has an implicit root. -/
theorem afterPrefix_nil_implicit {p : PathPrefix} (hv : p.isVerbatim = false)
    (hd : p.isDrive = false) : afterPrefix .windows (some p) [] = [.rootDir] := by
  simp [afterPrefix, hasPhysicalRoot, PathPrefix.hasImplicitRoot, hv, hd]

/-- After a drive there is no root without a separator. -/
theorem afterPrefix_drive_relative {p : PathPrefix} (hd : p.isDrive = true) {t : List Char}
    (ht : hasPhysicalRoot .windows t = false) :
    afterPrefix .windows (some p) t = bodyComponents winSep false t := by
  cases p with
  | disk d => simp [afterPrefix, ht, PathPrefix.hasImplicitRoot, PathPrefix.isVerbatim, isSep, hd]
  | _ => cases hd

/-- After a prefix that is not verbatim a joined name is one more component. -/
theorem afterPrefix_some_joined {p : PathPrefix} {n t u : List Char} (hn : Plain n)
    (hv : p.isVerbatim = false) (ht : Stop p.stop t) (hne : t ≠ []) (h : Joined winSep n t u) :
    Stop p.stop u ∧
      afterPrefix .windows (some p) u = afterPrefix .windows (some p) t ++ [asNormal n] := by
  cases t with
  | nil => exact absurd rfl hne
  | cons c t =>
    obtain ⟨w, rfl, hw⟩ := h.of_cons
    refine ⟨.cons (Stop.cons_iff.mp ht) w, ?_⟩
    by_cases hc : winSep c = true
    · have hbody := hw.bodyComponents_eq hn (fun c hc => hn.noSep c hc) false
      simp only [afterPrefix_root hc, hv, Bool.false_eq_true, if_false, hbody, List.cons_append]
    · have hd : p.isDrive = true := by
        have hstop := Stop.cons_iff.mp ht
        cases p with
        | disk => rfl
        | unc => exact absurd hstop hc
        | deviceNS => exact absurd hstop hc
        | _ => cases hv
      rw [afterPrefix_drive_relative hd (by simpa [hasPhysicalRoot, isSep] using hc),
        afterPrefix_drive_relative hd (by simpa [hasPhysicalRoot, isSep] using hc),
        h.bodyComponents_eq hn (fun c hc => hn.noSep c hc)]

/-- A backslash ends every prefix. -/
theorem PathPrefix.stop_backslash (p : PathPrefix) : p.stop '\\' = true := by
  cases p <;> rfl

/-- A path with a prefix is a bare drive when that is a drive and nothing follows. -/
theorem bareDrive_of_prefixed {v t : List Char} {p : PathPrefix}
    (h : parsePrefix .windows (v ++ t) = some p) (hlen : p.len = v.length) :
    bareDrive .windows (v ++ t) = (p.isDrive && t.isEmpty) := by
  rw [bareDrive, prefixLen, h, Option.map_some, Option.getD_some, Option.any_some, hlen]
  cases t with
  | nil => simp
  | cons c t => simp

/-- A prefix that is not verbatim stays in front of what is pushed. -/
theorem push_prefixed {v t n : List Char} {p : PathPrefix} (hn : Plain n)
    (hd : parsePrefix .windows n = none) (h : parsePrefix .windows (v ++ t) = some p)
    (hlen : p.len = v.length) (hv : p.isVerbatim = false) (ht : Stop p.stop t)
    (hlast : t = [] → ∀ c ∈ v.getLast?, winSep c = false) :
    ∃ u, push .windows (v ++ t) n = v ++ u ∧ Stop p.stop u ∧
      afterPrefix .windows (some p) u = afterPrefix .windows (some p) t ++ [asNormal n] := by
  have hany : (parsePrefix .windows (v ++ t)).any PathPrefix.isVerbatim = false := by
    simpa [h] using hv
  by_cases hnil : t = []
  · subst hnil
    rw [push_plain hn hd hany, bareDrive_of_prefixed h hlen, List.append_nil]
    cases hdrive : p.isDrive with
    | true =>
      refine ⟨n, by simp, ?_, ?_⟩
      · cases p with
        | disk => exact fun _ _ => rfl
        | _ => cases hdrive
      · rw [afterPrefix_drive_relative hdrive (hn.hasPhysicalRoot_false _),
          afterPrefix_drive_relative hdrive rfl, hn.bodyComponents_eq hn.noSep, bodyComponents_nil,
          List.nil_append]
    | false =>
      have hne : v ≠ [] := by
        rintro rfl
        cases h
      have hc := List.getLast?_eq_some_getLast hne
      have hsep := hlast rfl _ hc
      refine ⟨'\\' :: n, by simp [hc, isSep, hsep, mainSep], .cons p.stop_backslash n, ?_⟩
      rw [afterPrefix_root (by rfl), afterPrefix_nil_implicit hv hdrive, hv]
      simp [hn.bodyComponents_eq hn.noSep]
  · have hb : bareDrive .windows (v ++ t) = false := by
      rw [bareDrive_of_prefixed h hlen]
      simp [hnil]
    obtain ⟨u, hu, hj⟩ := (push_joined hn hd hany hb).1.of_append
    exact ⟨u, hu, afterPrefix_some_joined hn hv ht hnil hj⟩

/-! ## Verbatim buffers -/

/-- The pieces of a split have no separator. -/
theorem noSep_of_mem_splitOnP {sep : Char → Bool} {text piece : List Char}
    (h : piece ∈ text.splitOnP sep) : ∀ c ∈ piece, sep c = false := by
  induction text generalizing piece with
  | nil =>
    obtain rfl := List.mem_singleton.mp h
    simp
  | cons x text ih =>
    rw [List.splitOnP_cons_eq_if_modifyHead] at h
    split at h
    · rcases List.mem_cons.mp h with rfl | h
      · simp
      · exact ih h
    · rename_i hx
      generalize hps : text.splitOnP sep = ps at h ih
      cases ps with
      | nil => exact absurd hps (List.splitOnP_ne_nil sep text)
      | cons q qs =>
        rcases List.mem_cons.mp h with rfl | h
        · intro c hc
          rcases List.mem_cons.mp hc with rfl | hc
          · simpa using hx
          · exact ih List.mem_cons_self c hc
        · exact ih (List.mem_cons_of_mem q h)

/-- A component that a verbatim body reads back from its text. -/
structure Segment (c : Component) : Prop where
  read : parseSingleComponent true (c.text []) = some c
  noSep : ∀ x ∈ c.text [], verbatimSep x = false

/-- What a verbatim path has between two backslashes is a segment, and is written as it was. -/
theorem Segment.of_parse {text : List Char} {c : Component}
    (h : parseSingleComponent true text = some c) (hs : ∀ x ∈ text, verbatimSep x = false) :
    Segment c ∧ c.text [] = text := by
  have htext : c.text [] = text := by
    rw [parseSingleComponent] at h
    split at h
    · rename_i he
      obtain rfl := Option.some.inj h
      exact he.symm
    · split at h
      · rename_i he
        obtain rfl := Option.some.inj h
        exact he.symm
      · split at h
        · cases h
        · obtain rfl := Option.some.inj h
          exact String.toList_ofList
  exact ⟨⟨by rw [htext, h], by rw [htext]; exact hs⟩, htext⟩

/-- The components of a verbatim path after its prefix are segments. -/
theorem segment_of_mem_bodyComponents {text : List Char} {c : Component}
    (h : c ∈ bodyComponents verbatimSep true text) : Segment c := by
  obtain ⟨piece, hpiece, hc⟩ := List.mem_filterMap.mp h
  exact (Segment.of_parse hc (noSep_of_mem_splitOnP hpiece)).1

/-- A plain name is a segment. -/
theorem Plain.segment {n : List Char} (hn : Plain n) : Segment (asNormal n) :=
  (Segment.of_parse (hn.parseSingleComponent_eq true) (fun _ hc => hn.verbatimSep_false hc)).1

/-- A plain name after segments leaves segments. -/
theorem segment_snoc {t n : List Char} (hn : Plain n) :
    ∀ c ∈ bodyComponents verbatimSep true t ++ [asNormal n], Segment c := by
  intro c hc
  rcases List.mem_append.mp hc with hc | hc
  · exact segment_of_mem_bodyComponents hc
  · rw [List.mem_singleton.mp hc]
    exact hn.segment

/-- A segment takes a separator, is not the root and is written the same after any prefix. -/
theorem Segment.shape {c : Component} (h : Segment c) :
    c.needsSep = true ∧ c ≠ .rootDir ∧ ∀ v, c.text v = c.text [] := by
  cases c with
  | volume p => cases h.read
  | rootDir => cases h.noSep '\\' (by simp [Component.text])
  | curDir => exact ⟨rfl, by simp, fun _ => rfl⟩
  | parentDir => exact ⟨rfl, by simp, fun _ => rfl⟩
  | normal name => exact ⟨rfl, by simp, fun _ => rfl⟩

/-- A segment is not written as nothing. -/
theorem Segment.text_ne_nil {c : Component} (h : Segment c) : c.text [] ≠ [] := by
  intro hnil
  have := h.read
  rw [hnil] at this
  cases this

/-- Rebuilding a verbatim path puts a backslash after each segment but the last. -/
theorem render_cons {v : List Char} {c : Component} {cs : List Component} (hc : Segment c)
    (hcs : ∀ d ∈ cs, Segment d) (hne : cs ≠ []) :
    render v false (c :: cs) = c.text [] ++ '\\' :: render v false cs := by
  obtain ⟨hsep, -, htext⟩ := hc.shape
  cases cs with
  | nil => exact absurd rfl hne
  | cons d ds =>
    have hroot := (hcs d List.mem_cons_self).shape.2.1
    simp [render, htext v, hsep, hroot]

/-- Segments put together are read back. -/
theorem bodyComponents_render {v : List Char} {cs : List Component}
    (h : ∀ c ∈ cs, Segment c) : bodyComponents verbatimSep true (render v false cs) = cs := by
  induction cs with
  | nil => simp [render]
  | cons c cs ih =>
    obtain ⟨hc, hcs⟩ := List.forall_mem_cons.mp h
    have hbody : bodyComponents verbatimSep true (c.text []) = [c] := by
      rw [bodyComponents_of_noSep hc.noSep, hc.read]
      rfl
    by_cases hne : cs = []
    · subst hne
      simpa [render, hc.shape.2.2 v] using hbody
    · rw [render_cons hc hcs hne, bodyComponents_append_cons (by rfl), hbody, ih hcs]
      rfl

/-- Segments put together start with a name. -/
theorem exists_render_head {v : List Char} {cs : List Component} (hne : cs ≠ [])
    (h : ∀ c ∈ cs, Segment c) :
    ∃ x w, render v false cs = x ++ w ∧ x ≠ [] ∧ (∀ d ∈ x, verbatimSep d = false) ∧
      Stop verbatimSep w := by
  cases cs with
  | nil => exact absurd rfl hne
  | cons c cs =>
    obtain ⟨hc, hcs⟩ := List.forall_mem_cons.mp h
    by_cases hnil : cs = []
    · subst hnil
      exact ⟨c.text [], [], by simp [render, hc.shape.2.2 v], hc.text_ne_nil, hc.noSep, .nil _⟩
    · exact ⟨c.text [], _, render_cons hc hcs hnil, hc.text_ne_nil, hc.noSep, .cons (by rfl) _⟩

/-- What ends a verbatim prefix is a separator. -/
theorem PathPrefix.winSep_of_stop (p : PathPrefix) (hv : p.isVerbatim = true) {c : Char}
    (h : p.stop c = true) : winSep c = true := by
  cases p with
  | verbatim => exact winSep_of_verbatimSep h
  | verbatimUNC => exact winSep_of_verbatimSep h
  | verbatimDisk => exact h
  | _ => cases hv

/-- No prefix is empty. -/
theorem PathPrefix.len_pos (p : PathPrefix) : 0 < p.len := by
  cases p <;> simp only [PathPrefix.len] <;> omega

/-- What `push` puts after a verbatim prefix: a root, the components there were,
and the name. -/
theorem push_verbatim {v t n : List Char} {p : PathPrefix} (hn : Plain n)
    (hd : parsePrefix .windows n = none) (h : parsePrefix .windows (v ++ t) = some p)
    (hlen : p.len = v.length) (hv : p.isVerbatim = true) (ht : Stop p.stop t) :
    push .windows (v ++ t) n = v ++ '\\' :: render v false
      (bodyComponents verbatimSep true t.tail ++ [asNormal n]) := by
  have hvol : (Component.volume p).needsSep = true := by
    cases p with
    | disk => cases hv
    | _ => simp [Component.needsSep, PathPrefix.isDrive, PathPrefix.len_pos]
  have hpush : push .windows (v ++ t) n =
      render v false (components .windows (v ++ t) ++ [asNormal n]) := by
    have hne : n.isEmpty = false := by simpa using hn.ne_nil
    simp only [push, hn.isAbsolute_false hd, hd, h, hv, hne, Option.isSome_none, Bool.or_false,
      Bool.false_eq_true, if_false, Option.any_some, Bool.not_false, Bool.and_self, if_true,
      prefixLen, Option.map_some, Option.getD_some, hlen, List.take_left, hn.components_eq hd]
    rfl
  rw [hpush, components_of_prefixed h hlen]
  cases t with
  | nil => simp [afterPrefix, hasPhysicalRoot, hv, render, hvol, asNormal, Component.text]
  | cons c t =>
    have hc := p.winSep_of_stop hv (Stop.cons_iff.mp ht)
    rw [afterPrefix_root hc, hv]
    simp [render, Component.text, Component.needsSep]

/-! ## Buffers that stop inside a prefix -/

/-- What follows the prefix does not fix it yet: the next name would be read into
it, or is put behind a root that was not there. -/
def PathPrefix.incomplete (rest : List Char) : PathPrefix → Bool
  | .verbatimUNC _ share => share.isEmpty || rest.isEmpty
  | .verbatim _ | .verbatimDisk _ => rest.isEmpty
  | .deviceNS device => device.isEmpty && rest.isEmpty
  | _ => false

/-- Two separators and a name, with at most a separator after it. -/
def startsPrefix : List Char → Bool
  | a :: b :: rest =>
    let (server, share) := parseNextComponent winSep rest
    winSep a && winSep b && !server.isEmpty && share.isEmpty
  | _ => false

/-- The buffer stops inside a prefix: pushing a name would change its prefix or
its root. -/
def incomplete : Platform → List Char → Bool
  | .unix, _ => false
  | .windows, path =>
    match parsePrefix .windows path with
    | some p => p.incomplete (path.drop p.len)
    | none => startsPrefix path

/-- The buffer is two separators, which a name and another one make a prefix. -/
def doubleSep : Platform → List Char → Bool
  | .windows, [a, b] => winSep a && winSep b
  | _, _ => false

/-- A verbatim prefix begins with the four characters that say so. -/
theorem exists_verbatim {s : List Char} {p : PathPrefix} (h : parsePrefix .windows s = some p)
    (hv : p.isVerbatim = true) :
    ∃ w, s = '\\' :: '\\' :: '?' :: '\\' :: w ∧ p = parseVerbatim w := by
  match s, h with
  | [], h => cases h
  | [_], h => cases h
  | a :: b :: rest, h =>
    by_cases hab : winSep a = true ∧ winSep b = true
    · rw [parsePrefix_doubled hab.1 hab.2] at h
      obtain ⟨server, d, w, rfl, hne, hserver, hsep⟩ := exists_of_parseDoubled h
      rw [parseDoubled_server hne hserver hsep] at h
      split at h
      · rename_i hq
        obtain ⟨rfl, rfl, rfl, rfl⟩ := hq
        exact ⟨w, rfl, (Option.some.inj h).symm⟩
      · split at h
        · obtain rfl := Option.some.inj h
          cases hv
        · split at h
          · cases h
          · obtain rfl := Option.some.inj h
            cases hv
    · rw [parsePrefix_single hab] at h
      obtain ⟨d, -, rfl⟩ := Option.map_eq_some_iff.mp h
      cases hv

/-- The four characters make a prefix verbatim. -/
theorem parsePrefix_verbatim (w : List Char) :
    parsePrefix .windows ('\\' :: '\\' :: '?' :: '\\' :: w) = some (parseVerbatim w) := by
  rw [parsePrefix_doubled (by rfl) (by rfl)]
  simp [parseDoubled]

/-- Nothing follows `\\?\UNC` where it is read as a plain verbatim prefix. -/
theorem eq_of_parseVerbatim_eq_unc {w : List Char}
    (h : parseVerbatim w = .verbatim ['U', 'N', 'C']) : w = ['U', 'N', 'C'] := by
  rw [parseVerbatim] at h
  split at h
  · cases h
  · rename_i hunc
    split at h
    · cases h
    · obtain ⟨name, t, rfl, hname, ht⟩ := exists_next verbatimSep w
      rw [parseNextComponent_append hname ht] at h
      obtain rfl := PathPrefix.verbatim.inj h
      cases t with
      | nil => rfl
      | cons c t =>
        have hc := winSep_of_verbatimSep (Stop.cons_iff.mp ht)
        exact absurd ⟨rfl, by simpa using hc⟩ hunc

/-- The prefix of a complete path can take no more characters. -/
theorem settled_of_complete {s : List Char} {p : PathPrefix} (h : parsePrefix .windows s = some p)
    (hi : incomplete .windows s = false) : p.Settled := by
  simp only [incomplete, h] at hi
  constructor
  · rintro rfl
    obtain ⟨w, rfl, hw⟩ := exists_verbatim h rfl
    obtain rfl := eq_of_parseVerbatim_eq_unc hw.symm
    simp [PathPrefix.incomplete, PathPrefix.len] at hi
  · rintro server rfl
    simp [PathPrefix.incomplete] at hi

/-- Whether a path with a prefix is complete depends on what follows the prefix. -/
theorem incomplete_of_prefixed {v t : List Char} {p : PathPrefix}
    (h : parsePrefix .windows (v ++ t) = some p) (hlen : p.len = v.length) :
    incomplete .windows (v ++ t) = p.incomplete t := by
  simp [incomplete, h, hlen]

/-- A settled prefix that is followed by anything is complete. -/
theorem PathPrefix.incomplete_cons {p : PathPrefix} (hs : p.Settled) (c : Char) (t : List Char) :
    p.incomplete (c :: t) = false := by
  cases p with
  | verbatimUNC server share =>
    have : share ≠ [] := by
      rintro rfl
      exact hs.2 server rfl
    simpa [PathPrefix.incomplete] using this
  | _ => simp [PathPrefix.incomplete]

/-- A prefix alone has no name. -/
theorem asNormal_not_mem_afterPrefix_nil {p : PathPrefix} (n : List Char) :
    asNormal n ∉ afterPrefix .windows (some p) [] := by
  simp only [afterPrefix, hasPhysicalRoot, List.head?_nil, Option.any_none, Bool.false_eq_true,
    if_false, bodyComponents_nil]
  split <;> simp [asNormal]

/-- One push onto a complete prefixed buffer. -/
theorem push_of_complete_prefixed {s n : List Char} {p : PathPrefix} (hn : Plain n)
    (hd : parsePrefix .windows n = none) (h : parsePrefix .windows s = some p)
    (hi : incomplete .windows s = false) :
    parsePrefix .windows (push .windows s n) = some p ∧
      incomplete .windows (push .windows s n) = false ∧
      components .windows (push .windows s n) = components .windows s ++ [asNormal n] := by
  obtain ⟨v, t, hs, hlen, hlast⟩ := parsePrefix_split h
  have hset := settled_of_complete h hi
  obtain rfl := hs.eq
  rw [incomplete_of_prefixed h hlen] at hi
  -- the text after the prefix, whatever its kind
  obtain ⟨u, hu, hstop, hne, hafter⟩ : ∃ u, push .windows (v ++ t) n = v ++ u ∧ Stop p.stop u ∧
      u ≠ [] ∧ afterPrefix .windows (some p) u =
        afterPrefix .windows (some p) t ++ [asNormal n] := by
    cases hv : p.isVerbatim with
    | true =>
      refine ⟨_, push_verbatim hn hd h hlen hv hs.stop, .cons p.stop_backslash _, by simp, ?_⟩
      cases t with
      | nil => cases p <;> simp_all [PathPrefix.incomplete, PathPrefix.isVerbatim]
      | cons c t =>
        have hc := p.winSep_of_stop hv (Stop.cons_iff.mp hs.stop)
        rw [afterPrefix_root (by rfl), afterPrefix_root hc, hv, if_pos rfl, List.tail_cons,
          bodyComponents_render (segment_snoc hn), List.cons_append]
    | false =>
      have hlast' : t = [] → ∀ c ∈ v.getLast?, winSep c = false := by
        rintro rfl
        apply hlast hv
        rintro rfl
        cases hi
      obtain ⟨u, hu, hstop, hafter⟩ := push_prefixed hn hd h hlen hv hs.stop hlast'
      refine ⟨u, hu, hstop, ?_, hafter⟩
      rintro rfl
      apply asNormal_not_mem_afterPrefix_nil (p := p) n
      rw [hafter]
      simp
  have hp := hs.reparse hset u hstop
  rw [hu, hp, incomplete_of_prefixed hp hlen, components_of_prefixed hp hlen,
    components_of_prefixed h hlen, hafter]
  refine ⟨rfl, ?_, rfl⟩
  cases u with
  | nil => exact absurd rfl hne
  | cons c u => exact PathPrefix.incomplete_cons hset c u

/-- No prefix, and none that a name would start. -/
structure Bare (s : List Char) : Prop where
  parsePrefix_eq : parsePrefix .windows s = none
  startsPrefix_eq : startsPrefix s = false
  doubleSep_eq : doubleSep .windows s = false

/-- A path without two leading separators and without a drive begins no prefix. -/
theorem Bare.of_single {a b : Char} {rest : List Char}
    (hab : ¬(winSep a = true ∧ winSep b = true)) (hd : parseDrive (a :: b :: rest) = none) :
    Bare (a :: b :: rest) := by
  have hab' : (winSep a && winSep b) = false := by simpa using hab
  refine ⟨by rw [parsePrefix_single hab, hd]; rfl, by simp [startsPrefix, hab'], ?_⟩
  cases rest with
  | nil => exact hab'
  | cons => rfl

/-- Two separators and whatever cannot be a server: the text after them is read as body. -/
theorem Bare.of_triple {a b c : Char} {rest : List Char} (ha : winSep a = true)
    (hb : winSep b = true) (hc : winSep c = true) : Bare (a :: b :: c :: rest) := by
  have hnext := parseNextComponent_append (x := []) (by simp) (Stop.cons hc rest)
  rw [List.nil_append] at hnext
  refine ⟨by rw [parsePrefix_doubled ha hb, parseDoubled_of_winSep hc], ?_, rfl⟩
  simp [startsPrefix, hnext]

/-- Past two separators and a name the two separators after it stay what they are. -/
theorem Bare.doubled {a b : Char} {rest n z : List Char} (h : Bare (a :: b :: rest))
    (hz : Joined winSep n rest z) (ha : winSep a = true) (hb : winSep b = true) :
    Bare (a :: b :: z) := by
  obtain ⟨server, t, rfl, hserver, ht⟩ := exists_next winSep rest
  have hstarts := h.startsPrefix_eq
  simp only [startsPrefix, parseNextComponent_append hserver ht, ha, hb, Bool.and_self,
    Bool.true_and] at hstarts
  match t, server, ht with
  | [], [], _ =>
    have := h.doubleSep_eq
    simp [doubleSep, ha, hb] at this
  | c :: t, [], ht =>
    obtain ⟨w, rfl, -⟩ := hz.of_cons
    exact .of_triple ha hb (Stop.cons_iff.mp ht)
  | [], _ :: _, _ => simp at hstarts
  | [c], _ :: _, _ => simp at hstarts
  | c :: d :: t, x :: server, ht =>
    have hc := Stop.cons_iff.mp ht
    have hparse := h.parsePrefix_eq
    rw [parsePrefix_doubled ha hb, parseDoubled_server (by simp) hserver hc] at hparse
    split at hparse
    · cases hparse
    · rename_i hq
      split at hparse
      · cases hparse
      · rename_i hdot
        split at hparse
        · rename_i hshare
          have hd : winSep d = true := by
            by_contra hd
            simp [parseNextComponent, hd] at hshare
          obtain ⟨_, rfl, hz₁⟩ := hz.of_append
          obtain ⟨_, rfl, hz₂⟩ := hz₁.of_cons
          obtain ⟨w, rfl, -⟩ := hz₂.of_cons
          have hnext := parseNextComponent_append (x := []) (by simp) (Stop.cons hd w)
          rw [List.nil_append] at hnext
          refine ⟨?_, ?_, rfl⟩
          · rw [parsePrefix_doubled ha hb, parseDoubled_server (by simp) hserver hc, if_neg hq,
              if_neg hdot, hnext, if_pos rfl]
          · have hnext' := parseNextComponent_append hserver (Stop.cons hc (d :: w))
            simp only [startsPrefix, hnext', List.tail_cons, List.isEmpty_cons, Bool.and_false]
        · cases hparse

/-- Nothing pushed onto a bare buffer gives it a prefix. -/
theorem Bare.joined {s n y : List Char} (h : Bare s) (hn : Plain n)
    (hd : parsePrefix .windows n = none) (hj : Joined winSep n s y) (hne : s ≠ [] ∨ y = n) :
    Bare y := by
  match s, h, hj, hne with
  | [], _, _, hne =>
    obtain rfl := hne.resolve_left (fun hne => hne rfl)
    match y, hn with
    | [], hn => exact absurd rfl hn.ne_nil
    | [a], _ => exact ⟨rfl, rfl, rfl⟩
    | a :: b :: rest, hn =>
      have ha := hn.noSep a (by simp)
      have hab : ¬(winSep a = true ∧ winSep b = true) := by simp [ha]
      apply Bare.of_single hab
      rw [parsePrefix_single hab] at hd
      exact Option.map_eq_none_iff.mp hd
  | [a], _, hj, _ =>
    generalize has : [a] = s at hj
    cases hj with
    | nil => cases has
    | sep _ hs hc =>
      subst has
      refine Bare.of_single (by simp [hs a rfl]) ?_
      rw [parseDrive_cons_cons, if_neg]
      rintro ⟨rfl, -⟩
      cases hc
    | ended xs hc =>
      obtain ⟨rfl, hac⟩ := List.append_inj' (show [] ++ [a] = _ from has) rfl
      obtain rfl := List.singleton_inj.mp hac
      cases n with
      | nil => exact absurd rfl hn.ne_nil
      | cons b n =>
        have hb := hn.noSep b (by simp)
        exact Bare.of_single (by simp [hb]) (parseDrive_of_winSep hc _)
  | a :: b :: rest, h, hj, _ =>
    obtain ⟨z, rfl, hz⟩ := hj.of_append (v := [a, b])
    by_cases hab : winSep a = true ∧ winSep b = true
    · exact h.doubled hz hab.1 hab.2
    · apply Bare.of_single hab
      have := h.parsePrefix_eq
      rw [parsePrefix_single hab, Option.map_eq_none_iff, parseDrive_cons_cons] at this
      rwa [List.append_eq, parseDrive_cons_cons]

/-- What a push keeps of a buffer that no name can complete. -/
def Complete (platform : Platform) (s : List Char) : Prop :=
  incomplete platform s = false ∧ doubleSep platform s = false

/-- A path without a prefix is complete exactly when no name can give it one. -/
theorem bare_iff {s : List Char} (h : parsePrefix .windows s = none) :
    Bare s ↔ Complete .windows s := by
  constructor
  · intro hb
    exact ⟨by rw [incomplete, h]; exact hb.startsPrefix_eq, hb.doubleSep_eq⟩
  · rintro ⟨hi, hs⟩
    rw [incomplete, h] at hi
    exact ⟨h, hi, hs⟩

/-- A path with a prefix is not one of two leading separators only. -/
theorem doubleSep_of_prefixed {s : List Char} {p : PathPrefix}
    (h : parsePrefix .windows s = some p) : doubleSep .windows s = false := by
  match s, h with
  | [], _ => rfl
  | [_], _ => rfl
  | [a, b], h =>
    by_contra hab
    rw [Bool.not_eq_false, doubleSep, Bool.and_eq_true] at hab
    rw [parsePrefix_doubled hab.1 hab.2, parseDoubled_of_noSep (by simp)] at h
    cases h
  | _ :: _ :: _ :: _, _ => rfl

/-- A plain name without a prefix is one more component of a complete buffer,
which stays complete. -/
theorem Complete.push {platform : Platform} {s n : List Char} (h : Complete platform s)
    (hn : Plain n) (hd : parsePrefix platform n = none) :
    Complete platform (push platform s n) ∧
      components platform (push platform s n) = components platform s ++ [asNormal n] := by
  cases platform with
  | unix => exact ⟨⟨rfl, rfl⟩, components_push_of_none hn hd rfl rfl⟩
  | windows =>
    cases hp : parsePrefix .windows s with
    | none =>
      have hb := (bare_iff hp).mpr h
      obtain ⟨hj, hne⟩ := push_joined hn hd (s := s) (by simp [hp]) (by simp [bareDrive, hp])
      have hb' := hb.joined hn hd hj hne
      exact ⟨(bare_iff hb'.parsePrefix_eq).mp hb',
        components_push_of_none hn hd hp hb'.parsePrefix_eq⟩
    | some p =>
      obtain ⟨hp', hi, hc⟩ := push_of_complete_prefixed hn hd hp h.1
      exact ⟨⟨hi, doubleSep_of_prefixed hp'⟩, hc⟩

/-- Names pushed on a complete path are its last components. -/
theorem Complete.foldl_push {platform : Platform} {s : List Char} {es : List (List Char)}
    (h : Complete platform s) (hes : ∀ e ∈ es, Plain e ∧ parsePrefix platform e = none) :
    components platform (es.foldl (Path.push platform) s) =
      components platform s ++ es.map asNormal := by
  induction es generalizing s with
  | nil => simp
  | cons e es ih =>
    obtain ⟨⟨he, hd⟩, hes⟩ := List.forall_mem_cons.mp hes
    obtain ⟨hs, hc⟩ := h.push he hd
    rw [List.foldl_cons, ih hs hes, hc, List.map_cons, List.append_assoc, List.singleton_append]

end Torrentina.Core.Path
