import Rumoca.Solve.ScalarOutputPlacements
/-!
# The encodings of a placement agree

A checked placement answers every query from the list of its indices, whichever
way it is encoded: the index of an ordinal, the first ordinal of an index, and
the indices of the spans that it returns.
-/

namespace Rumoca.Solve

open Rumoca.Lib

/-! ## First positions -/

/-- The first position of `x` in the list, if there is one. -/
def IsFirst (l : List Nat) (x : Nat) : Option Nat → Prop
  | some o => l[o]? = some x ∧ ∀ o' < o, l[o']? ≠ some x
  | none => x ∉ l

namespace IsFirst

variable {l l' : List Nat} {x : Nat}

theorem of_findIdx? (l : List Nat) (x : Nat) : IsFirst l x (l.findIdx? (· = x)) := by
  cases h : l.findIdx? (· = x) with
  | none =>
    rw [List.findIdx?_eq_none_iff] at h
    exact fun hx => by simpa using h x hx
  | some o =>
    obtain ⟨hlt, heq, hbefore⟩ := List.findIdx?_eq_some_iff_getElem.mp h
    refine ⟨by simpa [hlt] using heq, fun o' ho' => ?_⟩
    have hlt' : o' < l.length := by omega
    have := hbefore o' ho'
    simpa [hlt'] using this

theorem append_left {o : Nat} (h : IsFirst l x (some o)) : IsFirst (l ++ l') x (some o) := by
  have hlt : o < l.length := (List.getElem?_eq_some_iff.mp h.1).1
  refine ⟨by rw [List.getElem?_append_left hlt]; exact h.1, fun o' ho' => ?_⟩
  rw [List.getElem?_append_left (by omega)]
  exact h.2 o' ho'

theorem append_right {r : Option Nat} (hl : IsFirst l x none) (h : IsFirst l' x r) :
    IsFirst (l ++ l') x (r.map (l.length + ·)) := by
  cases r with
  | none => exact fun hx => (List.mem_append.mp hx).elim hl h
  | some o =>
    rw [Option.map_some]
    refine ⟨by rw [List.getElem?_append_right (by omega), Nat.add_sub_cancel_left]; exact h.1, fun o' ho' => ?_⟩
    by_cases hlt : o' < l.length
    · rw [List.getElem?_append_left hlt]
      exact fun hx => hl (List.mem_of_getElem? hx)
    · rw [List.getElem?_append_right (by omega)]
      exact h.2 (o' - l.length) (by omega)

end IsFirst

/-! ## Segments -/

namespace ScalarOutputSegment

variable {segment : ScalarOutputSegment}

def Valid (segment : ScalarOutputSegment) : Prop := segment.checkedCount = some segment.indices.length

theorem valid_of_checkedCount {count : Nat} (h : segment.checkedCount = some count) :
    segment.Valid ∧ segment.indices.length = count := by
  cases segment with
  | range start stop =>
    simp only [Valid, checkedCount, indices, List.length_range'] at h ⊢
    split at h
    · exact ⟨by rw [if_pos ‹_›], Option.some.inj h⟩
    · cases h
  | explicit indices => exact ⟨rfl, Option.some.inj h⟩

theorem indexAt_eq (h : segment.Valid) (ordinal : Nat) : segment.indexAt ordinal = segment.indices[ordinal]? := by
  cases segment with
  | range start stop =>
    simp only [indexAt, show (range start stop).checkedCount = _ from h, indices, List.length_range',
      Option.bind_eq_bind, Option.bind_some]
    by_cases hlt : ordinal < stop - start
    · rw [if_pos hlt, List.getElem?_range' hlt, Nat.one_mul]
    · rw [if_neg hlt, List.getElem?_eq_none (by simpa using hlt)]
  | explicit indices => rfl

theorem isFirst_position (segment : ScalarOutputSegment) (x : Nat) : IsFirst segment.indices x (segment.position x) := by
  cases segment with
  | range start stop =>
    simp only [position, indices]
    split
    · next hin =>
      refine ⟨?_, fun o' ho' heq => ?_⟩
      · rw [List.getElem?_range' (by omega)]
        exact congrArg some (by omega)
      · rw [List.getElem?_range' (by omega), Option.some_inj] at heq
        omega
    · next hout =>
      intro hx
      rw [List.mem_range'_1] at hx
      omega
  | explicit indices => exact IsFirst.of_findIdx? indices x

theorem indices_of_isDenseAt {ordinal : Nat} (h : segment.isDenseAt ordinal = true) :
    segment.indices = List.range' ordinal segment.indices.length := by
  cases segment with
  | range start stop =>
    simp only [isDenseAt, Bool.or_eq_true, decide_eq_true_eq] at h
    simp only [indices, List.length_range']
    rcases h with h | rfl
    · rw [Nat.sub_eq_zero_of_le h]
      rfl
    · rfl
  | explicit indices =>
    refine List.ext_getElem? fun i => ?_
    change indices[i]? = (List.range' ordinal indices.length)[i]?
    by_cases hlt : i < indices.length
    · have hall := List.all_eq_true.mp h (indices[i], i) (List.mk_mem_zipIdx_iff_getElem?.mpr (List.getElem?_eq_getElem hlt))
      obtain ⟨heq, -⟩ := checkedUsize_eq_some.mp (of_decide_eq_true hall)
      rw [List.getElem?_range' hlt, List.getElem?_eq_getElem hlt, Nat.one_mul, heq]
    · rw [List.getElem?_eq_none (by omega), List.getElem?_eq_none (by simpa using hlt)]

end ScalarOutputSegment

/-! ## Spans -/

namespace ScalarProgramOutputSpan

variable {span : ScalarProgramOutputSpan}

/-- The span lists the indices of `l` from `ordinal` on. -/
def Lists (span : ScalarProgramOutputSpan) (l : List Nat) (ordinal count : Nat) : Prop :=
  span.count = count ∧ ∀ k < count, ∃ index, span.index k = some index ∧ l[ordinal + k]? = some index

theorem fromStartNext_spec {start next count : Nat} (h : fromStartNext start next count = some span) :
    span.start = start ∧ span.stride = (if start ≤ next then next - start else start - next) ∧
      span.descending = decide (next < start) ∧ span.count = count ∧ 0 < count ∧
      ∃ last, span.index (count - 1) = some last := by
  simp only [fromStartNext] at h
  split at h
  · cases h
  · next hcount =>
    obtain ⟨last, hlast, h⟩ := Option.bind_eq_some_iff.mp h
    obtain rfl := Option.some.inj h
    exact ⟨rfl, rfl, rfl, rfl, Nat.pos_of_ne_zero hcount, last, hlast⟩

theorem index_add {k offset first last : Nat} (hdescending : span.descending = false) (hstride : span.stride = 1)
    (hlast : span.index (span.count - 1) = some last) (hfirst : span.index offset = some first)
    (hk : offset + k < span.count) : span.index (offset + k) = some (first + k) := by
  have hindex : ∀ o < span.count, span.index o = (checkedUsize (o * 1)).bind fun o => checkedUsize (span.start + o) := by
    intro o ho
    rw [index, if_neg (by omega), hdescending, hstride]
    rfl
  rw [hindex _ (by omega)] at hlast hfirst ⊢
  obtain ⟨o, ho, hfirst⟩ := Option.bind_eq_some_iff.mp hfirst
  obtain ⟨o', ho', hlast⟩ := Option.bind_eq_some_iff.mp hlast
  have hlt := (checkedUsize_eq_some.mp ho').2
  obtain ⟨rfl, -⟩ := checkedUsize_eq_some.mp ho
  obtain ⟨rfl, -⟩ := checkedUsize_eq_some.mp ho'
  obtain ⟨rfl, -⟩ := checkedUsize_eq_some.mp hfirst
  have hroom := (checkedUsize_eq_some.mp hlast).2
  simp only [checkedUsize_eq_some.mpr ⟨rfl, show (offset + k) * 1 < usizeLimit by omega⟩, Option.bind_some]
  exact checkedUsize_eq_some.mpr ⟨by omega, by omega⟩

theorem contiguous_spec {start count : Nat} (hroom : start + count < usizeLimit)
    (h : contiguous start count = some span) :
    span.count = count ∧ ∀ k < count, span.index k = some (start + k) := by
  obtain ⟨next, hnext, h⟩ := Option.bind_eq_some_iff.mp h
  obtain ⟨hstart, hstride, hdescending, rfl, hpos, last, hlast⟩ := fromStartNext_spec h
  have hle : start ≤ next := by
    split at hnext
    · have := (checkedUsize_eq_some.mp hnext).1
      omega
    · exact le_of_eq (Option.some.inj hnext)
  rw [decide_eq_false (by omega)] at hdescending
  have hfirst : span.index 0 = some start := by
    rw [index, if_neg (by omega), hdescending, hstart, Nat.zero_mul]
    exact checkedUsize_eq_some.mpr ⟨rfl, by omega⟩
  refine ⟨rfl, fun k hk => ?_⟩
  rcases Nat.eq_zero_or_pos k with rfl | hkpos
  · exact hfirst
  · have hone : span.stride = 1 := by
      rw [if_pos (by omega)] at hnext
      have := (checkedUsize_eq_some.mp hnext).1
      rw [hstride, if_pos hle]
      omega
    have := index_add hdescending hone hlast hfirst (show 0 + k < span.count by omega)
    rwa [Nat.zero_add] at this

theorem checked_spec {indices : List Nat} (h : checked indices = some span) : span.Lists indices 0 indices.length := by
  obtain ⟨start, -, h⟩ := Option.bind_eq_some_iff.mp h
  obtain ⟨span', hspan, h⟩ := Option.bind_eq_some_iff.mp h
  split at h
  · next hall =>
    obtain rfl := Option.some.inj h
    obtain ⟨-, -, -, hcount, -⟩ := fromStartNext_spec hspan
    refine ⟨hcount, fun k hk => ⟨indices[k], ?_, by rw [Nat.zero_add, List.getElem?_eq_getElem hk]⟩⟩
    have := List.all_eq_true.mp hall (indices[k], k) (List.mk_mem_zipIdx_iff_getElem?.mpr (List.getElem?_eq_getElem hk))
    exact of_decide_eq_true this
  · cases h

end ScalarProgramOutputSpan

theorem ScalarOutputSegment.matchesSpan_spec {segment : ScalarOutputSegment} {span : ScalarProgramOutputSpan}
    {ordinal count offset last : Nat} (hvalid : segment.Valid) (hlast : span.index (span.count - 1) = some last)
    (hcount : ordinal + count ≤ segment.indices.length) (hoffset : offset + count ≤ span.count)
    (h : segment.matchesSpan ordinal count span offset = true) :
    ∀ k < count, ∃ index, span.index (offset + k) = some index ∧ segment.indices[ordinal + k]? = some index := by
  intro k hk
  unfold matchesSpan at h
  split at h
  · cases h
  next stop hstop =>
  obtain ⟨rfl, -⟩ := checkedUsize_eq_some.mp hstop
  cases segment with
  | range start stop =>
    simp only at h
    split at h
    · next first last' hfirst hlast' =>
      obtain ⟨rfl, -⟩ := checkedUsize_eq_some.mp hfirst
      obtain ⟨rfl, -⟩ := checkedUsize_eq_some.mp hlast'
      simp only [ScalarProgramOutputSpan.matchesContiguous, Bool.and_eq_true, Bool.or_eq_true, decide_eq_true_eq,
        Bool.not_eq_true'] at h
      simp only [indices, List.length_range'] at hcount ⊢
      refine ⟨start + ordinal + k, ?_, ?_⟩
      · rcases h with ⟨hindex, hone | ⟨hdescending, hstride⟩⟩
        · obtain rfl : k = 0 := by omega
          exact hindex
        · exact ScalarProgramOutputSpan.index_add hdescending hstride hlast hindex (by omega)
      · rw [List.getElem?_range' (by omega)]
        exact congrArg some (by omega)
    · cases h
  | explicit indices =>
    simp only at h
    split at h
    · next hle =>
      have hk' : ordinal + k < indices.length := by omega
      have hget : ((indices.take (ordinal + count)).drop ordinal)[k]? = some indices[ordinal + k] := by
        rw [List.getElem?_drop, List.getElem?_take_of_lt (by omega), List.getElem?_eq_getElem hk']
      have hall := List.all_eq_true.mp h (indices[ordinal + k], k) (List.mk_mem_zipIdx_iff_getElem?.mpr hget)
      obtain ⟨o, ho, hindex⟩ := Option.bind_eq_some_iff.mp (of_decide_eq_true hall)
      obtain ⟨rfl, -⟩ := checkedUsize_eq_some.mp ho
      exact ⟨indices[ordinal + k], hindex, List.getElem?_eq_getElem hk'⟩
    · cases h

/-! ## Programs -/

namespace ScalarProgramOutputPlacement

variable {segments : List ScalarOutputSegment}

def flat (segments : List ScalarOutputSegment) : List Nat := segments.flatMap ScalarOutputSegment.indices

@[simp] theorem flat_nil : flat [] = [] := rfl

@[simp] theorem flat_cons (segment : ScalarOutputSegment) (segments : List ScalarOutputSegment) :
    flat (segment :: segments) = segment.indices ++ flat segments := rfl

def Valid (segments : List ScalarOutputSegment) : Prop := ∀ segment ∈ segments, segment.Valid

theorem valid_cons {segment : ScalarOutputSegment} :
    Valid (segment :: segments) ↔ segment.Valid ∧ Valid segments := List.forall_mem_cons

theorem segmentsCount_spec {start count : Nat} (hstart : start < usizeLimit)
    (h : segments.foldlM (fun count segment => do checkedUsize (count + (← segment.checkedCount))) start = some count) :
    Valid segments ∧ start + (flat segments).length = count ∧ count < usizeLimit := by
  induction segments generalizing start with
  | nil =>
    obtain rfl := Option.some.inj h
    exact ⟨fun _ hs => absurd hs List.not_mem_nil, rfl, hstart⟩
  | cons segment segments ih =>
    rw [List.foldlM_cons] at h
    obtain ⟨next, hnext, h⟩ := Option.bind_eq_some_iff.mp h
    obtain ⟨size, hsize, hnext⟩ := Option.bind_eq_some_iff.mp hnext
    obtain ⟨hvalid, hlen⟩ := ScalarOutputSegment.valid_of_checkedCount hsize
    obtain ⟨rfl, hlt⟩ := checkedUsize_eq_some.mp hnext
    obtain ⟨hrest, hcount, hbound⟩ := ih hlt h
    refine ⟨valid_cons.mpr ⟨hvalid, hrest⟩, ?_, hbound⟩
    rw [flat_cons, List.length_append]
    omega

theorem segmentsIndexAt_eq (h : Valid segments) (ordinal : Nat) :
    segmentsIndexAt ordinal segments = (flat segments)[ordinal]? := by
  induction segments generalizing ordinal with
  | nil => rfl
  | cons segment segments ih =>
    obtain ⟨hvalid, hrest⟩ := valid_cons.mp h
    simp only [segmentsIndexAt, show segment.checkedCount = _ from hvalid, Option.bind_eq_bind, Option.bind_some, flat_cons]
    split
    · next hlt => rw [segment.indexAt_eq hvalid, List.getElem?_append_left hlt]
    · next hge => rw [ih hrest, List.getElem?_append_right (by omega)]

theorem segmentsPosition_spec (h : Valid segments) (x ordinal : Nat)
    (hroom : ordinal + (flat segments).length < usizeLimit) : ∃ r, IsFirst (flat segments) x r ∧ segmentsPosition x ordinal segments = r.map (ordinal + ·) := by
  induction segments generalizing ordinal with
  | nil => exact ⟨none, List.not_mem_nil, rfl⟩
  | cons segment segments ih =>
    obtain ⟨hvalid, hrest⟩ := valid_cons.mp h
    rw [flat_cons, List.length_append] at hroom
    have hfirst := segment.isFirst_position x
    cases hposition : segment.position x with
    | some position =>
      rw [hposition] at hfirst
      have hlt : position < segment.indices.length := (List.getElem?_eq_some_iff.mp hfirst.1).1
      refine ⟨some position, hfirst.append_left, ?_⟩
      simp only [segmentsPosition, hposition]
      exact checkedUsize_eq_some.mpr ⟨rfl, by omega⟩
    | none =>
      rw [hposition] at hfirst
      obtain ⟨r, hr, hresult⟩ := ih hrest (ordinal + segment.indices.length) (by omega)
      refine ⟨r.map (segment.indices.length + ·), hfirst.append_right hr, ?_⟩
      simp only [segmentsPosition, hposition, show segment.checkedCount = _ from hvalid, Option.bind_eq_bind,
        Option.bind_some,
        checkedUsize_eq_some.mpr ⟨rfl, show ordinal + segment.indices.length < usizeLimit by omega⟩, hresult,
        Option.map_map]
      exact congrArg (fun f => r.map f) (funext fun position => Nat.add_assoc ..)

theorem flat_of_segmentsDenseAt {ordinal : Nat} (h : segmentsDenseAt ordinal segments = true) :
    flat segments = List.range' ordinal (flat segments).length := by
  induction segments generalizing ordinal with
  | nil => rfl
  | cons segment segments ih =>
    rw [segmentsDenseAt] at h
    split at h
    · cases h
    · next hdense =>
      split at h
      · cases h
      · next next hnext =>
        obtain ⟨size, hsize, hnext⟩ := Option.bind_eq_some_iff.mp hnext
        obtain ⟨-, rfl⟩ := ScalarOutputSegment.valid_of_checkedCount hsize
        obtain ⟨rfl, -⟩ := checkedUsize_eq_some.mp hnext
        have hsegment := ScalarOutputSegment.indices_of_isDenseAt (by simpa using hdense)
        rw [flat_cons, List.length_append, ← List.range'_append_1, ← hsegment, ← ih h]

/-- What a checked count says of a placement. -/
structure Counted (placement : ScalarProgramOutputPlacement) : Prop where
  valid : Valid placement.intoSegments
  lt : placement.indices.length < usizeLimit

variable {placement : ScalarProgramOutputPlacement}

theorem counted_of_checkedCount {count : Nat} (h : placement.checkedCount = some count) :
    placement.Counted ∧ placement.indices.length = count := by
  obtain ⟨hvalid, hcount, hlt⟩ := segmentsCount_spec (by decide) h
  rw [Nat.zero_add] at hcount
  exact ⟨⟨hvalid, hcount.trans_lt hlt⟩, hcount⟩

theorem Counted.indexAt_eq (h : placement.Counted) (ordinal : Nat) :
    placement.indexAt ordinal = placement.indices[ordinal]? := segmentsIndexAt_eq h.valid ordinal

theorem Counted.isFirst_position (h : placement.Counted) (x : Nat) : IsFirst placement.indices x (placement.position x) := by
  obtain ⟨r, hr, hposition⟩ := segmentsPosition_spec h.valid x 0 (by rw [Nat.zero_add]; exact h.lt)
  have hzero : r.map (0 + ·) = r := by simp
  rw [position, hposition, hzero]
  exact hr

theorem indices_of_isDenseAt {ordinal : Nat} (h : placement.isDenseAt ordinal = true) :
    placement.indices = List.range' ordinal placement.indices.length := flat_of_segmentsDenseAt h

/-- The loop returns the span when the segments list it from `ordinal` on. -/
theorem segmentsMatch_spec {span result : ScalarProgramOutputSpan} {ordinal remaining last : Nat} (h : Valid segments)
    (hlast : span.index (span.count - 1) = some last) (hpos : 0 < remaining) (hremaining : remaining ≤ span.count)
    (hmatch : segmentsMatch span span.count ordinal remaining segments = some result) :
    result = span ∧ ∀ k < remaining, ∃ index, span.index (span.count - remaining + k) = some index ∧
      (flat segments)[ordinal + k]? = some index := by
  induction segments generalizing ordinal remaining with
  | nil => cases hmatch
  | cons segment segments ih =>
    obtain ⟨hvalid, hrest⟩ := valid_cons.mp h
    simp only [segmentsMatch, show segment.checkedCount = _ from hvalid, Option.bind_eq_bind, Option.bind_some] at hmatch
    split at hmatch
    · next hskip =>
      obtain ⟨rfl, hlists⟩ := ih hrest hpos hremaining hmatch
      refine ⟨rfl, fun k hk => ?_⟩
      obtain ⟨index, hindex, hget⟩ := hlists k hk
      refine ⟨index, hindex, ?_⟩
      rw [flat_cons, List.getElem?_append_right (by omega), ← hget]
      exact congrArg (fun o => (flat segments)[o]?) (by omega)
    split at hmatch
    · cases hmatch
    next hsize hagree =>
    have hagree' : segment.matchesSpan ordinal (min remaining (segment.indices.length - ordinal)) span
        (span.count - remaining) = true := by simpa using hagree
    have hsegment := ScalarOutputSegment.matchesSpan_spec hvalid hlast (by omega) (by omega) hagree'
    have hhere : ∀ k < min remaining (segment.indices.length - ordinal), ∃ index,
        span.index (span.count - remaining + k) = some index ∧ (flat (segment :: segments))[ordinal + k]? = some index := by
      intro k hk
      obtain ⟨index, hindex, hget⟩ := hsegment k hk
      exact ⟨index, hindex, by rw [flat_cons, List.getElem?_append_left (by omega)]; exact hget⟩
    split at hmatch
    · next hdone =>
      exact ⟨(Option.some.inj hmatch).symm, fun k hk => hhere k (by omega)⟩
    · next hmore =>
      obtain ⟨rfl, hlists⟩ := ih hrest (by omega) (by omega) hmatch
      refine ⟨rfl, fun k hk => ?_⟩
      by_cases hlt : k < min remaining (segment.indices.length - ordinal)
      · exact hhere k hlt
      · obtain ⟨index, hindex, hget⟩ := hlists (k - (segment.indices.length - ordinal)) (by omega)
        refine ⟨index, ?_, ?_⟩
        · rw [← hindex]
          exact congrArg result.index (by omega)
        · rw [flat_cons, List.getElem?_append_right (by omega), ← hget]
          exact congrArg (fun o => (flat segments)[o]?) (by omega)

theorem Counted.span_spec (h : placement.Counted) {ordinal count : Nat} {result : ScalarProgramOutputSpan}
    (hspan : placement.span ordinal count = some result) : result.Lists placement.indices ordinal count := by
  obtain ⟨first, -, hspan⟩ := Option.bind_eq_some_iff.mp hspan
  obtain ⟨next, -, hspan⟩ := Option.bind_eq_some_iff.mp hspan
  obtain ⟨span, hfrom, hspan⟩ := Option.bind_eq_some_iff.mp hspan
  obtain ⟨-, -, -, rfl, hpos, last, hlast⟩ := ScalarProgramOutputSpan.fromStartNext_spec hfrom
  obtain ⟨rfl, hlists⟩ := segmentsMatch_spec h.valid hlast hpos le_rfl hspan
  refine ⟨rfl, fun k hk => ?_⟩
  have := hlists k hk
  rwa [Nat.sub_self, Nat.zero_add] at this

end ScalarProgramOutputPlacement

/-! ## Blocks of programs -/

namespace ScalarOutputPlacements

open ScalarProgramOutputPlacement (Counted)

variable {S : Type} {entries : List ScalarProgramOutputPlacement} {programEnds : List Nat}

def entriesIndices (entries : List ScalarProgramOutputPlacement) : List Nat :=
  entries.flatMap ScalarProgramOutputPlacement.indices

@[simp] theorem entriesIndices_cons (entry : ScalarProgramOutputPlacement) (entries : List ScalarProgramOutputPlacement) :
    entriesIndices (entry :: entries) = entry.indices ++ entriesIndices entries := rfl

/-- Each program ends where its indices do, the first one starting at `start`. -/
def Aligned : (start : Nat) → List ScalarProgramOutputPlacement → List Nat → Prop
  | _, [], [] => True
  | start, entry :: entries, stop :: ends => entry.Counted ∧ start + entry.indices.length = stop ∧ Aligned stop entries ends
  | _, _, _ => False

/-- `programStart`, with the first program at `start`. -/
def startFrom (start : Nat) (programEnds : List Nat) : (program : Nat) → Nat
  | 0 => start
  | program + 1 => programEnds.getD program 0

theorem programStart_eq (programEnds : List Nat) (program : Nat) :
    programStart programEnds program = startFrom 0 programEnds program := by
  cases program <;> rfl

theorem startFrom_cons (start stop : Nat) (ends : List Nat) (program : Nat) :
    startFrom start (stop :: ends) (program + 1) = startFrom stop ends program := by
  cases program <;> rfl

theorem Aligned.locate {start ordinal : Nat} (h : Aligned start entries programEnds) (hle : start ≤ ordinal)
    (hlt : ordinal < start + (entriesIndices entries).length) :
    ∃ before entry after, entriesIndices entries = before ++ entry.indices ++ after ∧
      entries[partitionPoint (fun stop => decide (stop ≤ ordinal)) programEnds]? = some entry ∧
      programEnds[partitionPoint (fun stop => decide (stop ≤ ordinal)) programEnds]? =
        some (start + before.length + entry.indices.length) ∧
      startFrom start programEnds (partitionPoint (fun stop => decide (stop ≤ ordinal)) programEnds) =
        start + before.length ∧
      start + before.length ≤ ordinal ∧ ordinal < start + before.length + entry.indices.length ∧ entry.Counted := by
  induction entries generalizing start programEnds with
  | nil =>
    simp only [entriesIndices, List.flatMap_nil, List.length_nil] at hlt
    omega
  | cons entry entries ih =>
    cases programEnds with
    | nil => cases h
    | cons stop ends =>
      obtain ⟨hcounted, rfl, hrest⟩ := h
      rw [entriesIndices_cons, List.length_append] at hlt
      by_cases hhere : start + entry.indices.length ≤ ordinal
      · obtain ⟨before, entry', after, hindices, hentry, hend, hstart, hle', hlt', hcounted'⟩ := ih hrest hhere (by omega)
        have hpoint : partitionPoint (fun stop => decide (stop ≤ ordinal)) ((start + entry.indices.length) :: ends) =
            partitionPoint (fun stop => decide (stop ≤ ordinal)) ends + 1 := by
          simp [partitionPoint, hhere]
        have hlen : start + (entry.indices ++ before).length = start + entry.indices.length + before.length := by
          rw [List.length_append, Nat.add_assoc]
        refine ⟨entry.indices ++ before, entry', after, ?_, ?_⟩
        · rw [entriesIndices_cons, hindices]
          simp only [List.append_assoc]
        · rw [hpoint, List.getElem?_cons_succ, List.getElem?_cons_succ, startFrom_cons, hlen]
          exact ⟨hentry, hend, hstart, hle', hlt', hcounted'⟩
      · have hpoint : partitionPoint (fun stop => decide (stop ≤ ordinal)) ((start + entry.indices.length) :: ends) = 0 := by
          simp [partitionPoint, hhere]
        refine ⟨[], entry, entriesIndices entries, rfl, ?_⟩
        rw [hpoint]
        exact ⟨rfl, rfl, rfl, hle, by simpa using hhere, hcounted⟩

theorem checkCount_spec {expected actual program : Nat} {span : Option S}
    (h : checkCount expected actual program span = pure ()) : actual = expected := by
  unfold checkCount validateScalarProgramMetadataLengths at h
  split at h
  · exact absurd h throw_ne_pure
  split at h
  · exact absurd h throw_ne_pure
  · exact not_not.mp ‹_›

theorem rangesStep_spec {spans : List S} {s t : RangesPass} {entry : ScalarProgramOutputPlacement} {program : Nat}
    (h : rangesStep programEnds spans s (entry, program) = pure t) :
    entry.Counted ∧ programEnds[program]? = some (s.start + entry.indices.length) ∧
      t.start = s.start + entry.indices.length ∧ t.dense = (s.dense && entry.isDenseAt s.start) := by
  unfold rangesStep at h
  dsimp only at h
  cases hcount : entry.checkedCount with
  | none =>
    rw [hcount] at h
    exact absurd h throw_ne_pure
  | some actual =>
    obtain ⟨hcounted, rfl⟩ := ScalarProgramOutputPlacement.counted_of_checkedCount hcount
    rw [hcount] at h
    simp only [pure_bind] at h
    cases hend : programEnds[program]? with
    | none =>
      rw [hend] at h
      exact absurd h panic_ne_pure
    | some stop =>
      rw [hend] at h
      simp only at h
      split at h
      · obtain ⟨_, hpanic, -⟩ := bind_eq_pure h
        exact absurd hpanic panic_ne_pure
      · next hle =>
        obtain ⟨_, hcheck, h⟩ := bind_eq_pure h
        have hlen := checkCount_spec hcheck
        split at h
        · obtain ⟨_, hthrow, -⟩ := bind_eq_pure h
          exact absurd hthrow throw_ne_pure
        · obtain rfl := pure_injective h
          have hstop : stop = s.start + entry.indices.length := by omega
          exact ⟨hcounted, congrArg some hstop, hstop, rfl⟩

theorem rangesPass_spec {spans : List S} {s s' : RangesPass} {program : Nat}
    (hlen : entries.length = (programEnds.drop program).length)
    (h : (entries.zipIdx program).foldlM (rangesStep programEnds spans) s = pure s') :
    Aligned s.start entries (programEnds.drop program) ∧ s'.start = s.start + (entriesIndices entries).length ∧
      (s'.dense = true → s.dense = true ∧
        entriesIndices entries = List.range' s.start (entriesIndices entries).length) := by
  induction entries generalizing s program with
  | nil =>
    obtain rfl := pure_injective h
    have hnil : programEnds.drop program = [] := List.length_eq_zero_iff.mp hlen.symm
    rw [hnil]
    exact ⟨trivial, rfl, fun hdense => ⟨hdense, rfl⟩⟩
  | cons entry entries ih =>
    rw [List.zipIdx_cons, List.foldlM_cons] at h
    obtain ⟨t, ht, h⟩ := bind_eq_pure h
    obtain ⟨hcounted, hend, hstart, hdense⟩ := rangesStep_spec ht
    obtain ⟨hlt, hget⟩ := List.getElem?_eq_some_iff.mp hend
    rw [List.drop_eq_getElem_cons hlt, hget] at hlen ⊢
    obtain ⟨haligned, hfinal, hall⟩ := ih (by simpa using hlen) h
    rw [hstart] at haligned hfinal hall
    refine ⟨⟨hcounted, rfl, haligned⟩, by rw [hfinal, entriesIndices_cons, List.length_append, Nat.add_assoc], fun h' => ?_⟩
    obtain ⟨hdense', hrest⟩ := hall h'
    rw [hdense, Bool.and_eq_true] at hdense'
    refine ⟨hdense'.1, ?_⟩
    rw [entriesIndices_cons, List.length_append, ← List.range'_append_1,
      ← ScalarProgramOutputPlacement.indices_of_isDenseAt hdense'.2, ← hrest]

theorem Aligned.isFirst {ends : List Nat} {start program : Nat} (h : Aligned start entries ends)
    (hstarts : ∀ p, programStart programEnds (program + p) = startFrom start ends p) (x : Nat) :
    ∃ r, IsFirst (entriesIndices entries) x r ∧
      ((entries.zipIdx program).findSome? fun (entry, program) =>
        (entry.position x).map fun position => programStart programEnds program + position) = r.map (start + ·) := by
  induction entries generalizing start program ends with
  | nil => exact ⟨none, List.not_mem_nil, rfl⟩
  | cons entry entries ih =>
    cases ends with
    | nil => cases h
    | cons stop ends =>
      obtain ⟨hcounted, rfl, hrest⟩ := h
      have hstart : programStart programEnds program = start := hstarts 0
      have hfirst := hcounted.isFirst_position x
      rw [List.zipIdx_cons, List.findSome?_cons]
      cases hposition : entry.position x with
      | some position =>
        rw [hposition] at hfirst
        refine ⟨some position, hfirst.append_left, ?_⟩
        simp only [hposition, Option.map_some, hstart]
      | none =>
        rw [hposition] at hfirst
        have hnext : ∀ p, programStart programEnds (program + 1 + p) = startFrom (start + entry.indices.length) ends p := by
          intro p
          rw [← startFrom_cons start, ← hstarts (p + 1), Nat.add_assoc, Nat.add_comm 1]
        obtain ⟨r, hr, hresult⟩ := ih hrest hnext
        refine ⟨r.map (entry.indices.length + ·), hfirst.append_right hr, ?_⟩
        simp only [hposition, Option.map_none, hresult, Option.map_map]
        exact congrArg (fun f => r.map f) (funext fun position => Nat.add_assoc ..)

theorem ordinals_sorted (indices : List Nat) :
    ((List.range indices.length).mergeSort (ordinalLe indices)).Pairwise (fun a b => ordinalLe indices a b = true) := by
  refine List.pairwise_mergeSort (fun a b c => ?_) (fun a b => ?_) _
  · simp only [ordinalLe, decide_eq_true_eq]
    omega
  · simp only [ordinalLe, Bool.or_eq_true, decide_eq_true_eq]
    omega

theorem explicit_isFirst (placements : ScalarOutputPlacements) (indices : List Nat) (x : Nat)
    (hkind : placements.kind = .explicit indices ((List.range indices.length).mergeSort (ordinalLe indices))) :
    IsFirst indices x (placements.ordinalForOutput x programEnds) := by
  have hsorted := ordinals_sorted indices
  have hmem : ∀ o, o ∈ (List.range indices.length).mergeSort (ordinalLe indices) ↔ o < indices.length := fun o => by
    rw [List.mem_mergeSort, List.mem_range]
  have hget : ∀ o < indices.length, indices[o]? = some (indices.getD o 0) := fun o ho => by
    rw [List.getD_eq_getElem?_getD, List.getElem?_eq_getElem ho, Option.getD_some]
  obtain ⟨before, after, hsplit, hpoint, hbefore, hafter⟩ := exists_partition
    (p := fun ordinal => decide (indices.getD ordinal 0 < x)) (hsorted.imp fun {a b} hab hb => by
      simp only [ordinalLe, decide_eq_true_eq] at hab hb ⊢
      omega)
  simp only [decide_eq_true_eq, decide_eq_false_iff_not] at hbefore hafter
  -- an ordinal of `x` is after the cut
  have hplace : ∀ o, indices[o]? = some x → o ∈ after := by
    intro o ho
    have hlt : o < indices.length := (List.getElem?_eq_some_iff.mp ho).1
    rw [hget o hlt, Option.some_inj] at ho
    have hin := (hmem o).mpr hlt
    rw [hsplit] at hin
    rcases List.mem_append.mp hin with hin | hin
    · have := hbefore o hin
      omega
    · exact hin
  unfold ordinalForOutput
  rw [hkind]
  rw [hsplit] at hpoint
  simp only [Option.bind_eq_bind, hsplit, hpoint]
  rw [List.getElem?_append_right le_rfl, Nat.sub_self, ← List.head?_eq_getElem?]
  cases after with
  | nil =>
    intro hx
    obtain ⟨o, ho⟩ := List.mem_iff_getElem?.mp hx
    cases hplace o ho
  | cons first after =>
    have hfirst : first < indices.length := (hmem first).mp (by rw [hsplit]; simp)
    have hle : ∀ o ∈ after, ordinalLe indices first o = true := by
      rw [hsplit] at hsorted
      exact (List.pairwise_cons.mp (List.pairwise_append.mp hsorted).2.1).1
    rw [List.head?_cons, Option.bind_some]
    split
    · next heq =>
      refine ⟨by rw [hget first hfirst, heq], fun o ho hindex => ?_⟩
      rcases List.mem_cons.mp (hplace o hindex) with rfl | hin
      · omega
      · have := hle o hin
        rw [hget o (by omega), Option.some_inj] at hindex
        simp only [ordinalLe, decide_eq_true_eq] at this
        omega
    · next hne =>
      intro hx
      obtain ⟨o, ho⟩ := List.mem_iff_getElem?.mp hx
      have hlt : o < indices.length := (List.getElem?_eq_some_iff.mp ho).1
      have hge := hafter first (by simp)
      have hin := hplace o ho
      rw [hget o hlt, Option.some_inj] at ho
      rcases List.mem_cons.mp hin with rfl | hin
      · exact hne ho
      · have := hle o hin
        simp only [ordinalLe, decide_eq_true_eq] at this
        omega

/-! ## Checked placements -/

/-- What a checked placement has, by its encoding. -/
structure Checked (placements : ScalarOutputPlacements) (programEnds : List Nat) : Prop where
  count : placements.indices.length = placements.count
  explicit : ∀ indices ordinals, placements.kind = .explicit indices ordinals →
    ordinals = (List.range indices.length).mergeSort (ordinalLe indices)
  ranges : ∀ entries, placements.kind = .programRanges entries → Aligned 0 entries programEnds

theorem fromExplicit_spec (indices : List Nat) :
    (fromExplicit indices indices.length).Checked programEnds ∧ (fromExplicit indices indices.length).indices = indices := by
  unfold fromExplicit
  split
  · next hdense =>
    have hindices : List.range indices.length = indices := by
      refine List.ext_getElem? fun i => ?_
      by_cases hlt : i < indices.length
      · have := List.all_eq_true.mp hdense (indices[i], i)
          (List.mk_mem_zipIdx_iff_getElem?.mpr (List.getElem?_eq_getElem hlt))
        rw [List.getElem?_range hlt, List.getElem?_eq_getElem hlt, ← of_decide_eq_true this]
      · rw [List.getElem?_eq_none (by simpa using hlt), List.getElem?_eq_none (by omega)]
    exact ⟨⟨List.length_range, fun _ _ h => (nomatch h), fun _ h => (nomatch h)⟩, hindices⟩
  · refine ⟨⟨rfl, fun _ _ h => ?_, fun _ h => (nomatch h)⟩, rfl⟩
    obtain ⟨rfl, rfl⟩ := PlacementKind.explicit.inj h
    rfl

theorem Aligned.length_eq {start : Nat} (h : Aligned start entries programEnds) :
    start + (entriesIndices entries).length = programEnds.getLast?.getD start := by
  induction entries generalizing start programEnds with
  | nil =>
    cases programEnds with
    | nil => rfl
    | cons stop ends => cases h
  | cons entry entries ih =>
    cases programEnds with
    | nil => cases h
    | cons stop ends =>
      obtain ⟨-, rfl, hrest⟩ := h
      rw [entriesIndices_cons, List.length_append, ← Nat.add_assoc, ih hrest, List.getLast?_cons, Option.getD_some]

theorem checked_spec {wire : ScalarOutputPlacementsWire} {spans : List S} {placements : ScalarOutputPlacements}
    (h : checked wire programEnds spans = pure placements) :
    placements.Checked programEnds ∧ placements.indices = wire.indices := by
  cases wire with
  | dense actual =>
    dsimp only [checked] at h
    obtain ⟨_, hcheck, hresult⟩ := bind_eq_pure h
    obtain rfl := checkCount_spec hcheck
    obtain rfl := pure_injective hresult
    exact ⟨⟨List.length_range, fun _ _ h => (by cases h), fun _ h => (by cases h)⟩, rfl⟩
  | explicit indices =>
    dsimp only [checked] at h
    obtain ⟨_, hcheck, h⟩ := bind_eq_pure h
    have hlen := checkCount_spec hcheck
    rw [← hlen] at h
    split at h
    · exact absurd h throw_ne_pure
    · obtain rfl := pure_injective h
      exact fromExplicit_spec indices
  | programRanges entries =>
    dsimp only [checked] at h
    split at h
    · exact absurd h throw_ne_pure
    · next hlen =>
      obtain ⟨s, hpass, h⟩ := bind_eq_pure h
      obtain rfl := pure_injective h
      obtain ⟨haligned, -, hdense⟩ := rangesPass_spec (by simpa using hlen) hpass
      rw [List.drop_zero] at haligned
      have hcount := haligned.length_eq
      rw [Nat.zero_add] at hcount
      cases hflag : s.dense with
      | true =>
        obtain ⟨-, hindices⟩ := hdense hflag
        refine ⟨⟨List.length_range, fun _ _ h => (by cases h), fun _ h => (by cases h)⟩, ?_⟩
        change List.range (programEnds.getLast?.getD 0) = entriesIndices entries
        rw [hindices, ← hcount, List.range_eq_range']
      | false =>
        refine ⟨⟨hcount, fun _ _ h => (by cases h), fun _ h => ?_⟩, rfl⟩
        obtain rfl := PlacementKind.programRanges.inj h
        exact haligned

variable {placements : ScalarOutputPlacements}

theorem Checked.indexAt_eq (h : placements.Checked programEnds) (ordinal : Nat) :
    placements.indexAt ordinal programEnds = placements.indices[ordinal]? := by
  have hcount := h.count
  unfold indexAt
  split
  · next hle => rw [List.getElem?_eq_none (by omega)]
  · next hlt =>
    unfold indices at hcount ⊢
    cases hkind : placements.kind with
    | dense =>
      simp only [hkind] at hcount ⊢
      rw [List.getElem?_range (by omega)]
    | explicit indices ordinals => rfl
    | programRanges entries =>
      simp only [hkind] at hcount ⊢
      change (entriesIndices entries).length = _ at hcount
      obtain ⟨before, entry, after, hindices, hentry, -, hstart, hle, hlt', hcounted⟩ :=
        (h.ranges entries hkind).locate (Nat.zero_le ordinal) (by omega)
      change _ = (entriesIndices entries)[ordinal]?
      simp only [hentry, Option.bind_eq_bind, Option.bind_some, programStart_eq, hstart, Nat.zero_add]
      rw [hcounted.indexAt_eq, hindices, List.append_assoc, List.getElem?_append_right (by omega),
        List.getElem?_append_left (by omega)]

theorem Checked.isFirst (h : placements.Checked programEnds) (x : Nat) :
    IsFirst placements.indices x (placements.ordinalForOutput x programEnds) := by
  cases hkind : placements.kind with
  | dense =>
    unfold indices ordinalForOutput
    simp only [hkind]
    split
    · next hlt =>
      refine ⟨List.getElem?_range hlt, fun o ho heq => ?_⟩
      rw [List.getElem?_range (by omega), Option.some_inj] at heq
      omega
    · next hge =>
      intro hx
      exact hge (List.mem_range.mp hx)
  | explicit indices ordinals =>
    obtain rfl := h.explicit indices ordinals hkind
    have hfirst : IsFirst indices x (placements.ordinalForOutput x programEnds) :=
      explicit_isFirst placements indices x hkind
    unfold ScalarOutputPlacements.indices
    simp only [hkind]
    exact hfirst
  | programRanges entries =>
    have hstarts : ∀ p, programStart programEnds (0 + p) = startFrom 0 programEnds p := fun p => by
      rw [Nat.zero_add, programStart_eq]
    obtain ⟨r, hr, hresult⟩ := (h.ranges entries hkind).isFirst hstarts x
    have hzero : r.map (0 + ·) = r := by simp
    unfold indices ordinalForOutput
    simp only [hkind]
    rw [hresult, hzero]
    exact hr

theorem Checked.lists (h : placements.Checked programEnds) {ordinal count : Nat} {span : ScalarProgramOutputSpan}
    (hspan : placements.spanForOrdinals ordinal count programEnds = some span) :
    ordinal + count ≤ placements.count ∧ span.Lists placements.indices ordinal count := by
  have hcount := h.count
  obtain ⟨stop, hstop, hspan⟩ := Option.bind_eq_some_iff.mp hspan
  obtain ⟨rfl, hroom⟩ := checkedUsize_eq_some.mp hstop
  split at hspan
  · cases hspan
  next hin =>
  rw [not_or, not_lt] at hin
  refine ⟨hin.2, ?_⟩
  unfold indices at hcount ⊢
  cases hkind : placements.kind with
  | dense =>
    simp only [hkind] at hspan hcount ⊢
    obtain ⟨hsize, hindex⟩ := ScalarProgramOutputSpan.contiguous_spec hroom hspan
    exact ⟨hsize, fun k hk => ⟨ordinal + k, hindex k hk, List.getElem?_range (by omega)⟩⟩
  | explicit indices ordinals =>
    simp only [hkind] at hspan hcount ⊢
    rw [if_pos (by omega)] at hspan
    obtain ⟨hsize, hlists⟩ := ScalarProgramOutputSpan.checked_spec hspan
    have hlen : ((indices.take (ordinal + count)).drop ordinal).length = count := by
      rw [List.length_drop, List.length_take]
      omega
    rw [hlen] at hsize hlists
    refine ⟨hsize, fun k hk => ?_⟩
    obtain ⟨index, hindex, hget⟩ := hlists k hk
    rw [Nat.zero_add, List.getElem?_drop, List.getElem?_take_of_lt (by omega)] at hget
    exact ⟨index, hindex, hget⟩
  | programRanges entries =>
    simp only [hkind] at hspan hcount ⊢
    change (entriesIndices entries).length = _ at hcount
    obtain ⟨before, entry, after, hindices, hentry, hend, hstart, hle, hlt', hcounted⟩ :=
      (h.ranges entries hkind).locate (Nat.zero_le ordinal) (by omega)
    simp only [Nat.zero_add] at hend hstart hle hlt'
    simp only [hend, hentry, Option.bind_eq_bind, Option.bind_some, programStart_eq, hstart] at hspan
    split at hspan
    · cases hspan
    · next hwithin =>
      obtain ⟨hsize, hlists⟩ := hcounted.span_spec hspan
      refine ⟨hsize, fun k hk => ?_⟩
      obtain ⟨index, hindex, hget⟩ := hlists k hk
      refine ⟨index, hindex, ?_⟩
      change (entriesIndices entries)[ordinal + k]? = _
      rw [hindices, List.append_assoc, List.getElem?_append_right (by omega), List.getElem?_append_left (by omega), ← hget]
      exact congrArg (fun o => entry.indices[o]?) (by omega)

/-- The answers of a placement are those of the list of its indices, which is the one of the input. -/
structure Agrees (placements : ScalarOutputPlacements) (programEnds : List Nat) (wire : ScalarOutputPlacementsWire) : Prop
    where
  indices : placements.indices = wire.indices
  count : placements.indices.length = placements.count
  index_at : ∀ o, placements.indexAt o programEnds = placements.indices[o]?
  ordinal : ∀ x o, placements.ordinalForOutput x programEnds = some o ↔
    placements.indexAt o programEnds = some x ∧ ∀ o' < o, placements.indexAt o' programEnds ≠ some x
  no_ordinal : ∀ x, placements.ordinalForOutput x programEnds = none ↔ ∀ o, placements.indexAt o programEnds ≠ some x
  span : ∀ o c span, placements.spanForOrdinals o c programEnds = some span →
    o + c ≤ placements.count ∧ span.count = c ∧
      ∀ k < c, ∃ index, span.index k = some index ∧ placements.indexAt (o + k) programEnds = some index

/-- Every checked placement answers from the indices of its input, whichever way they are encoded. -/
theorem placements_agree {wire : ScalarOutputPlacementsWire} {spans : List S}
    (h : checked wire programEnds spans = pure placements) : placements.Agrees programEnds wire := by
  obtain ⟨hchecked, hindices⟩ := checked_spec h
  have hfirst : ∀ x o, placements.ordinalForOutput x programEnds = some o ↔
      placements.indexAt o programEnds = some x ∧ ∀ o' < o, placements.indexAt o' programEnds ≠ some x := by
    intro x o
    simp only [hchecked.indexAt_eq]
    have hx := hchecked.isFirst x
    cases hresult : placements.ordinalForOutput x programEnds with
    | none =>
      rw [hresult] at hx
      exact iff_of_false (by simp) fun ho => hx (List.mem_of_getElem? ho.1)
    | some first =>
      rw [hresult] at hx
      constructor
      · rintro heq
        obtain rfl := Option.some.inj heq
        exact hx
      · rintro ⟨ho, hbefore⟩
        rcases Nat.lt_trichotomy first o with hlt | rfl | hgt
        · exact absurd hx.1 (hbefore first hlt)
        · rfl
        · exact absurd ho (hx.2 o hgt)
  refine ⟨hindices, hchecked.count, hchecked.indexAt_eq, hfirst, fun x => ?_, fun o c span hspan => ?_⟩
  · simp only [hchecked.indexAt_eq]
    have hx := hchecked.isFirst x
    cases hresult : placements.ordinalForOutput x programEnds with
    | none =>
      rw [hresult] at hx
      exact iff_of_true rfl fun o ho => hx (List.mem_of_getElem? ho)
    | some first =>
      rw [hresult] at hx
      exact iff_of_false (by simp) fun hnone => hnone first hx.1
  · obtain ⟨hle, hsize, hlists⟩ := hchecked.lists hspan
    simp only [hchecked.indexAt_eq]
    exact ⟨hle, hsize, hlists⟩

/-- A program without outputs between one with a range and one that writes index 8 again. -/
theorem placements_agree_mixed :
    Agrees ⟨.programRanges [.range 8 12, .segments [], .explicit [2, 8]], 6, some 11⟩ [4, 4, 6]
      (.programRanges [.range 8 12, .segments [], .explicit [2, 8]]) :=
  placements_agree (show checked (.programRanges [.range 8 12, .segments [], .explicit [2, 8]]) [4, 4, 6] ([] : List Nat) =
    pure ⟨.programRanges [.range 8 12, .segments [], .explicit [2, 8]], 6, some 11⟩ from rfl)

end ScalarOutputPlacements

end Rumoca.Solve
