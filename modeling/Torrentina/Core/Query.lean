import Torrentina.Core.Percent
import Mathlib.Data.List.TakeWhile

/-!
# Query strings

What follows the first `?` of a URL, as segments between `&`s, each a name and a
percent-encoded value on the two sides of its first `=`. A query written from
names and values is read back as written, also when it is put behind another one.
-/

namespace Torrentina.Core

def byteQuestion : UInt8 := '?'.toUInt8
def byteAmpersand : UInt8 := '&'.toUInt8
def byteEquals : UInt8 := '='.toUInt8

/-- The bytes before the first occurrence of a delimiter, and those after it. -/
def splitFirst (c : UInt8) (bs : List UInt8) : List UInt8 × List UInt8 :=
  (bs.takeWhile (· != c), (bs.dropWhile (· != c)).tail)

/-- The query of a URL. -/
def urlQuery (url : List UInt8) : List UInt8 := (splitFirst byteQuestion url).2

/-- The segments of a query, empty ones dropped. -/
def querySegments (query : List UInt8) : List (List UInt8) :=
  (query.splitOn byteAmpersand).filter fun segment => !segment.isEmpty

/-- The name of a segment and its decoded value. -/
def readSegment (segment : List UInt8) : List UInt8 × List UInt8 :=
  let (name, value) := splitFirst byteEquals segment
  (name, percentDecode value)

/-- A name and an encoded value as a segment. -/
def writeSegment (set : AsciiSet) (p : List UInt8 × List UInt8) : List UInt8 :=
  p.1 ++ byteEquals :: percentEncode set p.2

/-- Segments joined to a query. -/
def writeQuery (set : AsciiSet) : List (List UInt8 × List UInt8) → List UInt8
  | [] => []
  | [p] => writeSegment set p
  | p :: p' :: ps => writeSegment set p ++ byteAmpersand :: writeQuery set (p' :: ps)

/-- Put a query behind a URL, after the one it has if there is one. -/
def addQuery (url query : List UInt8) : List UInt8 :=
  url ++ (if byteQuestion ∈ url then byteAmpersand else byteQuestion) :: query

/-! ## Splitting -/

private theorem bne_of_notMem {c : UInt8} {bs : List UInt8} (h : c ∉ bs) :
    ∀ b ∈ bs, (b != c) = true := by
  intro b hb
  exact bne_iff_ne.mpr fun he => h (he ▸ hb)

/-- Text is split at the first separator. -/
theorem splitFirst_append {c : UInt8} {front : List UInt8} (h : c ∉ front) (rest : List UInt8) :
    splitFirst c (front ++ c :: rest) = (front, rest) := by
  have hf := bne_of_notMem h
  rw [splitFirst, List.takeWhile_append_of_pos hf, List.dropWhile_append_of_pos hf,
    List.takeWhile_cons_of_neg (by simp), List.dropWhile_cons_of_neg (by simp), List.append_nil,
    List.tail_cons]

/-- Text without the separator is not split. -/
theorem splitFirst_of_notMem {c : UInt8} {bs : List UInt8} (h : c ∉ bs) :
    splitFirst c bs = (bs, []) := by
  have hb := bne_of_notMem h
  rw [splitFirst, List.takeWhile_eq_self_iff.mpr hb, List.dropWhile_eq_nil_iff.mpr hb,
    List.tail_nil]

/-- A delimiter that is there is found where it was, whatever is put behind. -/
theorem splitFirst_append_of_mem {c : UInt8} {bs : List UInt8} (h : c ∈ bs) (rest : List UInt8) :
    splitFirst c (bs ++ rest) = ((splitFirst c bs).1, (splitFirst c bs).2 ++ rest) := by
  obtain ⟨front, back, rfl, hf⟩ := List.eq_append_cons_of_mem h
  rw [List.append_assoc, List.cons_append, splitFirst_append hf, splitFirst_append hf]

/-- An `&` separates segments. -/
theorem querySegments_append (q r : List UInt8) :
    querySegments (q ++ byteAmpersand :: r) = querySegments q ++ querySegments r := by
  rw [querySegments, List.splitOn_append_cons_self, List.filter_append]
  rfl

/-- What stands before the query is left alone. -/
theorem splitFirst_addQuery_fst (url query : List UInt8) :
    (splitFirst byteQuestion (addQuery url query)).1 = (splitFirst byteQuestion url).1 := by
  by_cases h : byteQuestion ∈ url
  · rw [addQuery, splitFirst_append_of_mem h]
  · rw [addQuery, if_neg h, splitFirst_append h, splitFirst_of_notMem h]

/-- The segments of a URL stay as they are, and the added ones follow them. -/
theorem querySegments_addQuery (url query : List UInt8) :
    querySegments (urlQuery (addQuery url query)) =
      querySegments (urlQuery url) ++ querySegments query := by
  by_cases h : byteQuestion ∈ url
  · rw [addQuery, if_pos h, urlQuery, splitFirst_append_of_mem h, querySegments_append, urlQuery]
  · rw [addQuery, if_neg h, urlQuery, urlQuery, splitFirst_append h, splitFirst_of_notMem h]
    rfl

/-! ## Writing and reading -/

section

variable {set : AsciiSet}

/-- Another segment is put behind the query, after an `&`. -/
theorem writeQuery_concat {ps : List (List UInt8 × List UInt8)} (hne : ps ≠ [])
    (p : List UInt8 × List UInt8) : writeQuery set (ps ++ [p]) =
      writeQuery set ps ++ byteAmpersand :: writeSegment set p := by
  induction ps with
  | nil => exact absurd rfl hne
  | cons p₀ ps ih =>
    cases ps with
    | nil => rfl
    | cons p' ps =>
      have hrest := ih (List.cons_ne_nil p' ps)
      rw [List.cons_append] at hrest
      rw [List.cons_append, List.cons_append, writeQuery, hrest, writeQuery, List.append_assoc,
        List.cons_append]

/-- A segment has no separator other than the equals sign. -/
theorem notMem_writeSegment {c : UInt8} (hc : set.KeepsOut c) (he : c ≠ byteEquals)
    {p : List UInt8 × List UInt8} (hp : c ∉ p.1) : c ∉ writeSegment set p := by
  rw [writeSegment, List.mem_append, List.mem_cons]
  rintro (h | h | h)
  · exact hp h
  · exact he h
  · exact notMem_percentEncode hc p.2 h

/-- A query holds no byte that is kept out of its values and is not in its names. -/
theorem notMem_writeQuery {c : UInt8} (hc : set.KeepsOut c) (he : c ≠ byteEquals)
    (ha : c ≠ byteAmpersand) {ps : List (List UInt8 × List UInt8)} (hps : ∀ p ∈ ps, c ∉ p.1) :
    c ∉ writeQuery set ps := by
  induction ps with
  | nil => exact List.not_mem_nil
  | cons p ps ih =>
    obtain ⟨hp, hrest⟩ := List.forall_mem_cons.mp hps
    have hsegment := notMem_writeSegment hc he hp
    cases ps with
    | nil => exact hsegment
    | cons p' ps =>
      rw [writeQuery, List.mem_append, List.mem_cons]
      rintro (h | h | h)
      · exact hsegment h
      · exact ha h
      · exact ih hrest h

/-- A segment is not cut. -/
theorem querySegments_writeSegment (ha : set.KeepsOut byteAmpersand)
    {p : List UInt8 × List UInt8} (hp : byteAmpersand ∉ p.1) :
    querySegments (writeSegment set p) = [writeSegment set p] := by
  have hne : (writeSegment set p).isEmpty = false := by simp [writeSegment]
  rw [querySegments, List.splitOn_eq_singleton (notMem_writeSegment ha (by decide) hp),
    List.filter_cons_of_pos (by rw [hne]; rfl), List.filter_nil]

/-- The segments of a written query are the segments it was written from. -/
theorem querySegments_writeQuery (ha : set.KeepsOut byteAmpersand)
    {ps : List (List UInt8 × List UInt8)} (hps : ∀ p ∈ ps, byteAmpersand ∉ p.1) :
    querySegments (writeQuery set ps) = ps.map (writeSegment set) := by
  induction ps with
  | nil => rfl
  | cons p ps ih =>
    obtain ⟨hp, hrest⟩ := List.forall_mem_cons.mp hps
    cases ps with
    | nil => exact querySegments_writeSegment ha hp
    | cons p' ps =>
      rw [writeQuery, querySegments_append, querySegments_writeSegment ha hp, ih hrest]
      rfl

/-- A segment that was written is read back. -/
theorem readSegment_writeSegment (hset : set bytePercent = true)
    {p : List UInt8 × List UInt8} (hp : byteEquals ∉ p.1) :
    readSegment (writeSegment set p) = p := by
  rw [readSegment, writeSegment, splitFirst_append hp]
  simp only [percentDecode_percentEncode hset]

/-- Reading the segments a query was written from gives the names and values back. -/
theorem map_readSegment_writeSegment (hset : set bytePercent = true)
    {ps : List (List UInt8 × List UInt8)} (hps : ∀ p ∈ ps, byteEquals ∉ p.1) :
    (ps.map (writeSegment set)).map readSegment = ps := by
  have hread : ∀ p ∈ ps, (readSegment ∘ writeSegment set) p = id p := by
    intro p hp
    exact readSegment_writeSegment hset (hps p hp)
  rw [List.map_map, List.map_congr_left hread, List.map_id]

end

end Torrentina.Core
