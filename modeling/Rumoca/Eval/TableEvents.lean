import Mathlib.Tactic.FieldSimp
import Mathlib.Tactic.Ring
import Rumoca.Eval.TableLookup
/-!
# Tables that repeat

A periodic table is read at the argument's phase in its cycle, and its events are
the images of its knots in all cycles. The last knot itself is read in place while
its images are read at the first knot, so a table whose first and last outputs
differ is not periodic there.
-/

namespace Rumoca.Eval

open ExternalTableData

variable {K : Type} [Field K] [LinearOrder K] [IsStrictOrderedRing K] [FloorRing K]

/-! ## Phases -/

def cycleOf (start span t : K) : Int := ⌊(t - start) / span⌋

def phase (start span t : K) : K := t - cycleOf start span t * span

section
variable {start span : K}

theorem phase_mem (hspan : 0 < span) (t : K) : start ≤ phase start span t ∧ phase start span t < start + span := by
  have hlow : (cycleOf start span t : K) * span ≤ t - start := (le_div_iff₀ hspan).1 (Int.floor_le _)
  have hhigh : t - start < (cycleOf start span t + 1 : K) * span := (div_lt_iff₀ hspan).1 (Int.lt_floor_add_one _)
  unfold phase
  constructor <;> linarith

theorem cycleOf_eq (hspan : 0 < span) {t : K} {m : Int} (hlow : start + m * span ≤ t)
    (hhigh : t < start + (m + 1) * span) : cycleOf start span t = m := by
  refine Int.floor_eq_iff.2 ⟨(le_div_iff₀ hspan).2 (by linarith), (div_lt_iff₀ hspan).2 (by linarith)⟩

theorem phase_add (hspan : 0 < span) (t : K) (m : Int) : phase start span (t + m * span) = phase start span t := by
  have hcycle : cycleOf start span (t + m * span) = cycleOf start span t + m := by
    unfold cycleOf
    rw [add_sub_right_comm, add_div, mul_div_cancel_right₀ _ hspan.ne', Int.floor_add_intCast]
  unfold phase
  rw [hcycle]
  push_cast
  ring

theorem phase_eq_self (hspan : 0 < span) {t : K} (hlow : start ≤ t) (hhigh : t < start + span) :
    phase start span t = t := by
  have hcycle : cycleOf start span t = 0 := cycleOf_eq hspan (by simpa using hlow) (by simpa using hhigh)
  rw [phase, hcycle, Int.cast_zero, zero_mul, sub_zero]

theorem wrapped_eq {a : K} (hspan : 0 < span) :
    (if remainder a span < 0 then remainder a span + span else remainder a span) = a - ⌊a / span⌋ * span := by
  have hlow : (⌊a / span⌋ : K) * span ≤ a := (le_div_iff₀ hspan).1 (Int.floor_le _)
  have hhigh : a < (⌊a / span⌋ + 1 : K) * span := (div_lt_iff₀ hspan).1 (Int.lt_floor_add_one _)
  unfold remainder truncate
  by_cases hsign : 0 ≤ a / span
  · rw [if_pos hsign, if_neg (not_lt.2 (sub_nonneg.2 hlow))]
  · rw [if_neg hsign]
    have hceil : a ≤ (⌈a / span⌉ : K) * span := (div_le_iff₀ hspan).1 (Int.le_ceil _)
    rcases hceil.lt_or_eq with hlt | heq
    · have hnext : ⌈a / span⌉ = ⌊a / span⌋ + 1 := by
        refine Int.ceil_eq_iff.2 ⟨?_, ?_⟩
        · push_cast
          rw [add_sub_cancel_right]
          refine lt_of_le_of_ne (Int.floor_le _) fun hfloor => ?_
          have hwhole : (⌈a / span⌉ : K) = a / span := by rw [← hfloor, Int.ceil_intCast]
          rw [hwhole, div_mul_cancel₀ _ hspan.ne'] at hlt
          exact lt_irrefl _ hlt
        · push_cast
          exact (Int.lt_floor_add_one _).le
      rw [if_pos (sub_neg.2 hlt), hnext]
      push_cast
      ring
    · have hwhole : a / span = (⌈a / span⌉ : K) := by
        rw [div_eq_iff hspan.ne']
        exact heq
      have hfloor : ⌊a / span⌋ = ⌈a / span⌉ := by
        rw [hwhole, Int.floor_intCast, Int.ceil_intCast]
      rw [hfloor, if_neg (not_lt.2 (sub_nonneg.2 heq.ge))]

theorem extrapolatedX_periodic {x xMax : K} (hlt : start < xMax) (hx : ¬(start ≤ x ∧ x ≤ xMax)) :
    extrapolatedX x start xMax 3 = (phase start (xMax - start) x, false, true) := by
  have hspan : 0 < xMax - start := sub_pos.2 hlt
  rw [extrapolatedX, if_neg (not_lt.2 hlt.le), if_neg hlt.ne, if_neg hx, if_neg (by decide), if_pos rfl, if_pos hspan]
  dsimp only
  rw [wrapped_eq hspan, phase, cycleOf, add_sub, add_sub_cancel]

end

/-! ## Segment ends -/

section
variable {table : ExternalTableData K} {requestedOutputCol col : Nat}

def ExternalTableData.StrictlyAscends (table : ExternalTableData K) : Prop :=
  ∀ i j, i < j → j < table.data.length →
    epsilon < table.knot j - table.knot i ∧ timeEventEps < table.knot j - table.knot i

omit [FloorRing K] in
theorem timeEventEps_pos : (0 : K) < timeEventEps := by
  unfold timeEventEps
  positivity

omit [FloorRing K] in
theorem ExternalTableData.StrictlyAscends.lt (h : table.StrictlyAscends) {i j : Nat} (hij : i < j)
    (hj : j < table.data.length) : table.knot i < table.knot j :=
  sub_pos.1 (timeEventEps_pos.trans (h i j hij hj).2)

omit [FloorRing K] in
theorem ExternalTableData.StrictlyAscends.ascends (h : table.StrictlyAscends) : table.Ascends := by
  refine ⟨fun i j hij hj => ?_, fun i j hij hj _ => h i j hij hj⟩
  rcases Nat.lt_or_eq_of_le hij with hlt | rfl
  · exact (h.lt hlt hj).le
  · exact le_refl _

omit [LinearOrder K] [IsStrictOrderedRing K] [FloorRing K] in
theorem knots_mapM (h : table.Reads requestedOutputCol col) :
    (List.range table.data.length).mapM (m := Except (TableRuntimeError K)) (fun row => do
      let x ← tableRowX table row
      let y ← tableRowValue table row col
      return (x, y)) = pure ((List.range table.data.length).map fun i => (table.knot i, table.output col i)) := by
  have hall : ∀ l : List Nat, (∀ i ∈ l, i < table.data.length) → l.mapM (m := Except (TableRuntimeError K)) (fun row => do
      let x ← tableRowX table row
      let y ← tableRowValue table row col
      return (x, y)) = pure (l.map fun i => (table.knot i, table.output col i)) := by
    intro l hl
    induction l with
    | nil => rfl
    | cons i l ih =>
      obtain ⟨hx, hy⟩ := h.row (hl i (by simp))
      rw [List.mapM_cons, ih fun j hj => hl j (by simp [hj]), hx, hy]
      rfl
  exact hall _ fun i hi => List.mem_range.1 hi

omit [FloorRing K] in
/-- The spline of a segment passes through its two rows. -/
theorem evalAkima1d_ends (h : table.Reads requestedOutputCol col) (hstrict : table.StrictlyAscends) {k : Nat}
    (hk : k + 1 < table.data.length) (preserveSlope : Bool) :
    (∃ slope, evalAkima1d table col (table.knot k) k false preserveSlope = pure ⟨table.output col k, slope⟩) ∧
      ∃ slope, evalAkima1d table col (table.knot (k + 1)) k false preserveSlope =
        pure ⟨table.output col (k + 1), slope⟩ := by
  have hknots := knots_mapM h
  have hget : ∀ i < table.data.length,
      ((List.range table.data.length).map fun i => (table.knot i, table.output col i)).getD i (0, 0) =
        (table.knot i, table.output col i) := by
    intro i hi
    rw [List.getD_eq_getElem?_getD, List.getElem?_map, List.getElem?_range hi]
    rfl
  have hdx : table.knot (k + 1) - table.knot k ≠ 0 := sub_ne_zero.2 (hstrict.lt (Nat.lt_succ_self k) hk).ne'
  constructor
  · simp only [evalAkima1d, hknots, pure_bind, Bool.false_and, Bool.false_eq_true, if_false, hget k (by omega), sub_self,
      mul_zero, add_zero]
    exact ⟨_, rfl⟩
  · simp only [evalAkima1d, hknots, pure_bind, Bool.false_and, Bool.false_eq_true, if_false, hget k (by omega), hget (k + 1) hk, akimaIntervalCoeffs]
    refine ⟨_, congrArg pure (congrArg₂ TableLookupResult.mk ?_ rfl)⟩
    field_simp
    ring

omit [FloorRing K] in
/-- A segment read at its ends has the outputs of its rows. -/
theorem segmentResult_ends (h : table.Reads requestedOutputCol col) (hstrict : table.StrictlyAscends)
    (hn : 2 ≤ table.data.length) :
    (∃ slope, segmentResult table col (table.knot 0) false true 0 = pure ⟨table.output col 0, slope⟩) ∧
      ∃ slope, segmentResult table col (table.knot (table.data.length - 1)) false true (table.data.length - 2) =
        pure ⟨table.output col (table.data.length - 1), slope⟩ := by
  have hclose : ∀ k, k + 1 < table.data.length → ¬|table.knot (k + 1) - table.knot k| ≤ epsilon := by
    intro k hk hle
    have hlt := (hstrict k (k + 1) (Nat.lt_succ_self k) hk).1
    exact absurd (lt_of_lt_of_le hlt (le_abs_self _)) (not_lt.2 hle)
  have hfirst : table.knot 0 < table.knot (table.data.length - 1) := hstrict.lt (by omega) (by omega)
  have hnext : table.data.length - 2 + 1 = table.data.length - 1 := by omega
  unfold segmentResult
  rw [if_neg (hclose 0 (by omega)), if_neg (hclose _ (by omega)), hnext]
  simp only [if_true]
  constructor
  · split_ifs with hconst hpast hakima
    · exact absurd hpast (not_le.2 hfirst)
    · exact ⟨0, rfl⟩
    · exact (evalAkima1d_ends h hstrict (show 0 + 1 < table.data.length by omega) true).1
    · exact ⟨_, congrArg pure (congrArg₂ TableLookupResult.mk (by rw [sub_self, zero_mul, add_zero]) rfl)⟩
  · split_ifs with hconst hpast hakima
    · exact ⟨0, rfl⟩
    · exact absurd (le_refl _) hpast
    · rw [← hnext]
      exact (evalAkima1d_ends h hstrict (by omega) true).2
    · have hne : table.knot (table.data.length - 1) - table.knot (table.data.length - 2) ≠ 0 :=
        sub_ne_zero.2 (hstrict.lt (by omega) (by omega)).ne'
      exact ⟨_, congrArg pure (congrArg₂ TableLookupResult.mk (linear_end hne) rfl)⟩

/-! ## Values by phase -/

namespace ExternalTableData

abbrev first (table : ExternalTableData K) : K := table.knot 0

abbrev last (table : ExternalTableData K) : K := table.knot (table.data.length - 1)

def span (table : ExternalTableData K) : K := table.last - table.first

def IsImage (table : ExternalTableData K) (x : K) : Prop :=
  ∃ i < table.data.length, ∃ m : Int, x = table.knot i + m * table.span

end ExternalTableData

def readAt (table : ExternalTableData K) (col : Nat) (x : K) : Except (TableRuntimeError K) K :=
  (segmentResult table col x false true (segment table x)).map TableLookupResult.value

/-- A periodic table of at least two rows. -/
structure ExternalTableData.Repeats (table : ExternalTableData K) (requestedOutputCol col : Nat) : Prop where
  reads : table.Reads requestedOutputCol col
  ascends : table.StrictlyAscends
  rows : 2 ≤ table.data.length
  extrapolation : table.extrapolation = 3

section
variable (h : table.Repeats requestedOutputCol col)

include h

omit [FloorRing K] in
theorem ExternalTableData.Repeats.first_lt_last : table.first < table.last :=
  h.ascends.lt (by have := h.rows; omega) (by have := h.rows; omega)

omit [FloorRing K] in
theorem ExternalTableData.Repeats.span_pos : 0 < table.span := sub_pos.2 h.first_lt_last

omit [LinearOrder K] [IsStrictOrderedRing K] [FloorRing K] h in
theorem first_add_span (table : ExternalTableData K) : table.first + table.span = table.last := add_sub_cancel _ _

theorem lookup_value (t : K) : (evalTable1dLookup table requestedOutputCol t).map TableLookupResult.value =
    if table.first ≤ t ∧ t ≤ table.last then readAt table col t else readAt table col (phase table.first table.span t) := by
  rw [lookup_eq h.reads h.ascends.ascends.mono h.rows h.first_lt_last.ne]
  split_ifs with ht
  · rw [extrapolatedX_inside _ h.first_lt_last ht]
    rfl
  · rw [h.extrapolation, extrapolatedX_periodic h.first_lt_last ht]
    rfl

theorem lookup_value_phase {t : K} (ht : t ≠ table.last) :
    (evalTable1dLookup table requestedOutputCol t).map TableLookupResult.value =
      readAt table col (phase table.first table.span t) := by
  rw [lookup_value h]
  split_ifs with hin
  · rw [phase_eq_self h.span_pos hin.1 (first_add_span table ▸ lt_of_le_of_ne hin.2 ht)]
  · rfl

omit [FloorRing K] in
theorem readAt_first : readAt table col table.first = pure (table.output col 0) := by
  obtain ⟨slope, hvalue⟩ := (segmentResult_ends h.reads h.ascends h.rows).1
  have hsegment : segment table table.first = 0 := if_pos (le_refl _)
  rw [readAt, hsegment, ExternalTableData.first, hvalue]
  rfl

theorem lookup_value_last : (evalTable1dLookup table requestedOutputCol table.last).map TableLookupResult.value =
    pure (table.output col (table.data.length - 1)) := by
  obtain ⟨slope, hvalue⟩ := (segmentResult_ends h.reads h.ascends h.rows).2
  have hsegment : segment table table.last = table.data.length - 2 := by
    rw [segment, if_neg (not_le.2 h.first_lt_last), if_pos (le_refl _)]
  rw [lookup_value h, if_pos ⟨h.first_lt_last.le, le_refl _⟩, readAt, hsegment, ExternalTableData.last, hvalue]
  rfl

theorem phase_last : phase table.first table.span table.last = table.first := by
  have hphase : phase table.first table.span (table.first + (1 : Int) * table.span) =
      phase table.first table.span table.first := phase_add h.span_pos table.first 1
  rw [Int.cast_one, one_mul, first_add_span table] at hphase
  rw [hphase, phase_eq_self h.span_pos (le_refl _) (lt_add_of_pos_right _ h.span_pos)]

/-- Where the end outputs agree, or off the images of the first abscissa, the phase decides the value. -/
theorem lookup_value_of_phase {s t : K} (hphase : phase table.first table.span s = phase table.first table.span t)
    (hends : table.output col 0 = table.output col (table.data.length - 1) ∨
      ∀ m : Int, t ≠ table.first + m * table.span) :
    (evalTable1dLookup table requestedOutputCol s).map TableLookupResult.value =
      readAt table col (phase table.first table.span t) := by
  by_cases hs : s = table.last
  · subst hs
    rw [phase_last h] at hphase
    have himage : t = table.first + cycleOf table.first table.span t * table.span := eq_add_of_sub_eq hphase.symm
    rw [lookup_value_last h, ← hphase, readAt_first h, hends.resolve_right fun hnot => hnot _ himage]
  · rw [lookup_value_phase h hs, hphase]

/-- The value is periodic at a time exactly when the end outputs agree or the time is no image of the first abscissa. -/
theorem lookup_periodic_iff (t : K) :
    (∀ m : Int, (evalTable1dLookup table requestedOutputCol (t + m * table.span)).map TableLookupResult.value =
        (evalTable1dLookup table requestedOutputCol t).map TableLookupResult.value) ↔
      (table.output col 0 = table.output col (table.data.length - 1) ∨ ∀ m : Int, t ≠ table.first + m * table.span) := by
  constructor
  · intro hperiodic
    by_contra hnot
    obtain ⟨hne, himage⟩ := not_or.1 hnot
    obtain ⟨m, hm⟩ := not_forall.1 himage
    have ht : t = table.first + m * table.span := not_not.1 hm
    have hfirst : t + (-m : Int) * table.span = table.first := by
      rw [ht]
      push_cast
      ring
    have hlast : t + (1 - m : Int) * table.span = table.last := by
      rw [← first_add_span table, ht]
      push_cast
      ring
    have hvalue := (hperiodic (-m)).trans (hperiodic (1 - m)).symm
    rw [hfirst, hlast, lookup_value_last h, lookup_value_phase h h.first_lt_last.ne,
      phase_eq_self h.span_pos (le_refl _) (lt_add_of_pos_right _ h.span_pos), readAt_first h] at hvalue
    exact hne (Except.ok.inj hvalue)
  · intro hends m
    rw [lookup_value_of_phase h (phase_add h.span_pos t m) hends, lookup_value_of_phase h rfl hends]

/-! ## Constant segments -/

omit [FloorRing K] in
theorem readAt_constant (hsmooth : table.smoothness = 3) {x : K} (hlow : table.first ≤ x) (hhigh : x < table.last) :
    readAt table col x = pure (table.output col (table.heldRow x)) := by
  have hrow : segment table x = table.heldRow x := by
    unfold segment
    rcases hlow.lt_or_eq with hlt | rfl
    · rw [if_neg (not_le.2 hlt), if_neg (not_le.2 hhigh)]
    · have hrows := h.rows
      rw [if_pos (le_refl _), heldRow_eq (i := 0) (by omega) (le_refl _) fun j hj hlast => h.ascends.lt hj hlast]
  rw [readAt, segmentResult_inside hsmooth, if_neg (not_le.2 hhigh), hrow]
  rfl

omit [IsStrictOrderedRing K] [FloorRing K] in
theorem heldRow_congr {s t : K} (ht : table.first ≤ t)
    (hsame : ∀ i < table.data.length, table.knot i ≤ s ↔ table.knot i ≤ t) : table.heldRow s = table.heldRow t := by
  have hlt := heldRow_lt h.reads.length_pos t
  have hle : table.knot (table.heldRow t) ≤ t := Nat.findGreatest_spec (P := fun i => table.knot i ≤ t) (Nat.zero_le _) ht
  refine heldRow_eq hlt ((hsame _ hlt).2 hle) fun j hj hlast => ?_
  refine not_le.1 fun hle' => ?_
  have hgreatest := Nat.le_findGreatest (P := fun i => table.knot i ≤ t) (show j ≤ table.data.length - 1 by omega)
    ((hsame j hlast).1 hle')
  exact absurd hj (not_lt.2 hgreatest)

/-- Between a time and the next image the held row stays. -/
theorem readAt_until (hsmooth : table.smoothness = 3) {s t e : K} (hs : t ≤ s) (hse : s < e)
    (hnone : ∀ x, table.IsImage x → t < x → e ≤ x) :
    readAt table col (phase table.first table.span s) = readAt table col (phase table.first table.span t) := by
  have hrows := h.rows
  obtain ⟨hlow, hhigh⟩ : table.first ≤ phase table.first table.span t ∧
      phase table.first table.span t < table.first + table.span := phase_mem h.span_pos t
  obtain ⟨hlow', hhigh'⟩ : table.first ≤ phase table.first table.span s ∧
      phase table.first table.span s < table.first + table.span := phase_mem h.span_pos s
  rw [first_add_span table] at hhigh hhigh'
  have hcycle : cycleOf table.first table.span s = cycleOf table.first table.span t := by
    have hnext := hnone (table.first + (cycleOf table.first table.span t + 1 : Int) * table.span)
      ⟨0, by omega, _, rfl⟩ (by
        have hspan := first_add_span table
        unfold phase at hhigh
        push_cast
        linarith)
    refine cycleOf_eq h.span_pos ?_ ?_
    · unfold phase at hlow
      linarith
    · push_cast at hnext
      linarith
  rw [readAt_constant h hsmooth hlow hhigh, readAt_constant h hsmooth hlow' hhigh', heldRow_congr h hlow fun i hi => ?_]
  unfold phase
  rw [hcycle, le_sub_iff_add_le, le_sub_iff_add_le]
  refine ⟨fun hle => ?_, fun hle => hle.trans hs⟩
  by_contra hpast
  have hbound := hnone _ ⟨i, hi, _, rfl⟩ (not_le.1 hpast)
  exact absurd (hle.trans_lt hse) (not_lt.2 hbound)

end

end

end Rumoca.Eval
