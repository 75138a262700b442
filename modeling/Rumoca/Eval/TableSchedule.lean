import Rumoca.Eval.TableEvents
/-!
# The next event of a table that repeats

The search looks at four cycles around the time's own. They hold the least image
past the time whenever their numbers fit; between the time and that event the value
of constant segments stays.
-/

namespace Rumoca.Eval

open ExternalTableData

variable {K : Type} [Field K] [LinearOrder K] [IsStrictOrderedRing K] [FloorRing K]
variable {table : ExternalTableData K} {requestedOutputCol col : Nat}

/-! ## Knots -/

omit [LinearOrder K] [IsStrictOrderedRing K] [FloorRing K] in
theorem mem_knots (h : table.Reads requestedOutputCol col) {x : K} :
    x ∈ (table.data.filterMap fun row => row.head?) ↔ ∃ i < table.data.length, x = table.knot i := by
  rw [List.mem_filterMap]
  constructor
  · rintro ⟨row, hrow, hx⟩
    obtain ⟨i, hi, rfl⟩ := List.mem_iff_getElem.1 hrow
    have hentry := (h.entries hi).1
    rw [List.getElem?_eq_getElem hi, Option.bind_eq_bind, Option.bind_some, hx] at hentry
    exact ⟨i, hi, Option.some.inj hentry⟩
  · rintro ⟨i, hi, rfl⟩
    have hentry := (h.entries hi).1
    rw [List.getElem?_eq_getElem hi, Option.bind_eq_bind, Option.bind_some] at hentry
    exact ⟨table.data[i], List.getElem_mem hi, hentry⟩

omit [LinearOrder K] [IsStrictOrderedRing K] [FloorRing K] in
theorem knots_ne_nil (h : table.Reads requestedOutputCol col) :
    (table.data.filterMap fun row => row.head?).isEmpty = false := by
  have hmem := (mem_knots h).2 ⟨0, h.length_pos, rfl⟩
  cases hknots : table.data.filterMap fun row => row.head? with
  | nil => exact absurd (hknots ▸ hmem) List.not_mem_nil
  | cons _ _ => rfl

/-! ## The search -/

def searchedCycles (start stop : Int) : List Int := (List.range (stop + 1 - start).toNat).map fun i : Nat => start + (i : Int)

theorem mem_searchedCycles {start stop n : Int} : n ∈ searchedCycles start stop ↔ start ≤ n ∧ n ≤ stop := by
  unfold searchedCycles
  rw [List.mem_map]
  constructor
  · rintro ⟨i, hi, rfl⟩
    have hlt := List.mem_range.1 hi
    omega
  · rintro ⟨hlow, hhigh⟩
    exact ⟨(n - start).toNat, List.mem_range.2 (by omega), by omega⟩

def candidates (table : ExternalTableData K) (knots : List K) (timeIn : K) (start stop : Int) : List K :=
  ((searchedCycles start stop).flatMap fun n : Int => knots.map fun x => x + n * table.span).filter
    (timeIn + timeEventEps < ·)

section
variable (h : table.Repeats requestedOutputCol col)

include h

omit [IsStrictOrderedRing K] [FloorRing K] in
theorem mem_candidates {timeIn : K} {start stop : Int} {x : K} :
    x ∈ candidates table (table.data.filterMap fun row => row.head?) timeIn start stop ↔
      timeIn + timeEventEps < x ∧ ∃ i < table.data.length, ∃ m : Int, (start ≤ m ∧ m ≤ stop) ∧
        x = table.knot i + m * table.span := by
  unfold candidates
  rw [List.mem_filter, List.mem_flatMap, decide_eq_true_eq, and_comm]
  refine and_congr_right fun _ => ?_
  constructor
  · rintro ⟨m, hm, hx⟩
    obtain ⟨y, hy, rfl⟩ := List.mem_map.1 hx
    obtain ⟨i, hi, rfl⟩ := (mem_knots h.reads).1 hy
    exact ⟨i, hi, m, mem_searchedCycles.1 hm, rfl⟩
  · rintro ⟨i, hi, m, hm, rfl⟩
    exact ⟨m, mem_searchedCycles.2 hm, List.mem_map.2 ⟨_, (mem_knots h.reads).2 ⟨i, hi, rfl⟩, rfl⟩⟩

omit [FloorRing K] in
theorem knot_bounds {i : Nat} (hi : i < table.data.length) : table.first ≤ table.knot i ∧ table.knot i ≤ table.last :=
  ⟨h.ascends.ascends.mono 0 i (Nat.zero_le _) hi, h.ascends.ascends.mono i _ (by omega) (by omega)⟩

omit [IsStrictOrderedRing K] [FloorRing K] in
theorem timeEventEps_lt_span : timeEventEps < table.span :=
  (h.ascends 0 (table.data.length - 1) (by have := h.rows; omega) (by have := h.rows; omega)).2

theorem candidates_least {t : K} {c : Int} (hc : c = cycleOf table.first table.span t) :
    ∃ e, (candidates table (table.data.filterMap fun row => row.head?) t (c - 1) (c + 2)).min? = some e ∧
      IsLeast {x | table.IsImage x ∧ t + timeEventEps < x} e := by
  have hspan := h.span_pos
  obtain ⟨hlow, hhigh⟩ : table.first ≤ phase table.first table.span t ∧
      phase table.first table.span t < table.first + table.span := phase_mem hspan t
  unfold phase at hlow hhigh
  rw [← hc] at hlow hhigh
  have heps := timeEventEps_lt_span h
  -- the image of the first knot two cycles on lies past the time
  have hlater : table.knot 0 + (c + 2 : Int) * table.span ∈
      candidates table (table.data.filterMap fun row => row.head?) t (c - 1) (c + 2) := by
    refine (mem_candidates h).2 ⟨?_, 0, h.reads.length_pos, c + 2, by omega, rfl⟩
    push_cast
    linarith
  obtain ⟨e, he⟩ : ∃ e, (candidates table (table.data.filterMap fun row => row.head?) t (c - 1) (c + 2)).min? = some e := by
    cases hmin : (candidates table (table.data.filterMap fun row => row.head?) t (c - 1) (c + 2)).min? with
    | none => exact absurd (List.min?_eq_none_iff.1 hmin ▸ hlater) List.not_mem_nil
    | some e => exact ⟨e, rfl⟩
  obtain ⟨hmem, hleast⟩ := List.min?_eq_some_iff.1 he
  obtain ⟨hpast, i, hi, m, -, rfl⟩ := (mem_candidates h).1 hmem
  refine ⟨_, he, ⟨⟨i, hi, m, rfl⟩, hpast⟩, ?_⟩
  rintro x ⟨⟨j, hj, n, rfl⟩, hx⟩
  obtain ⟨hfirst, hlast⟩ := knot_bounds h hj
  rcases lt_or_ge n (c - 1) with hbefore | hfrom
  · -- an image of an earlier cycle is not past the time
    have hn : (n : K) + 1 ≤ c - 1 := by exact_mod_cast Int.add_one_le_iff.2 hbefore
    have hmul := mul_le_mul_of_nonneg_right hn hspan.le
    have hend := first_add_span table
    have heps' := timeEventEps_pos (K := K)
    have hnone : table.knot j + n * table.span ≤ t := by
      rw [add_mul, one_mul, sub_mul, one_mul] at hmul
      linarith
    exact absurd hx (not_lt.2 (hnone.trans (by linarith)))
  · rcases le_or_gt n (c + 2) with hto | hafter
    · exact hleast _ ((mem_candidates h).2 ⟨hx, j, hj, n, ⟨hfrom, hto⟩, rfl⟩)
    · have hn : (c : K) + 2 ≤ n := by exact_mod_cast hafter.le
      have hmul := mul_le_mul_of_nonneg_right hn hspan.le
      refine (hleast _ hlater).trans ?_
      push_cast
      linarith

theorem nextEvent_eq {t : K} (hcycle : IsI64 (cycleOf table.first table.span t)) :
    (IsI64 (cycleOf table.first table.span t - 1) ∧ IsI64 (cycleOf table.first table.span t + 2) ∧
        ∃ e, evalTimeTableNextEvent table t = pure e ∧ IsLeast {x | table.IsImage x ∧ t + timeEventEps < x} e) ∨
      ¬(IsI64 (cycleOf table.first table.span t - 1) ∧ IsI64 (cycleOf table.first table.span t + 2)) ∧
        evalTimeTableNextEvent table t = throw (.periodicEventCycleOutOfRange table.id t) := by
  have hfloor : finiteFloorToI64 ((t - table.first) / table.span) table.id t =
      pure (cycleOf table.first table.span t) := by
    rw [finiteFloorToI64, show checkedI64 ⌊(t - table.first) / table.span⌋ = some (cycleOf table.first table.span t) from
      checkedI64_eq_some.2 ⟨rfl, hcycle⟩]
  have hspan : ¬table.last - table.first ≤ timeEventEps := not_le.2 (timeEventEps_lt_span h)
  have hsearch : nextPeriodicTimeEvent table (table.data.filterMap fun row => row.head?) t =
      ((checkedI64 (cycleOf table.first table.span t - 1)).bind fun start =>
        (checkedI64 (cycleOf table.first table.span t + 2)).map fun stop =>
          (candidates table (table.data.filterMap fun row => row.head?) t start stop).min?).elim
        (throw (.periodicEventCycleOutOfRange table.id t)) pure := by
    unfold nextPeriodicTimeEvent
    rw [h.reads.bounds]
    simp only [pure_bind]
    rw [if_neg hspan]
    simp only [span] at hfloor ⊢
    refine (congrArg (· >>= _) hfloor).trans ?_
    rw [pure_bind]
    cases checkedI64 (cycleOf table.first (table.last - table.first) t - 1) <;>
      cases checkedI64 (cycleOf table.first (table.last - table.first) t + 2) <;> rfl
  unfold evalTimeTableNextEvent
  simp only [knots_ne_nil h.reads, h.extrapolation, Bool.false_eq_true, if_false, if_true, hsearch]
  by_cases hfits : IsI64 (cycleOf table.first table.span t - 1) ∧ IsI64 (cycleOf table.first table.span t + 2)
  · obtain ⟨e, hmin, hleast⟩ := candidates_least h (t := t) rfl
    rw [checkedI64_eq_some.2 ⟨rfl, hfits.1⟩, checkedI64_eq_some.2 ⟨rfl, hfits.2⟩]
    refine .inl ⟨hfits.1, hfits.2, e, ?_, hleast⟩
    simp only [Option.bind_some, Option.map_some, Option.elim_some, pure_bind, hmin]
  · refine .inr ⟨hfits, ?_⟩
    have hnone : ∀ z, ¬IsI64 z → checkedI64 z = none := fun z hz => if_neg hz
    rcases not_and_or.1 hfits with hstart | hstop
    · rw [hnone _ hstart]
      rfl
    · rw [hnone _ hstop]
      cases checkedI64 (cycleOf table.first table.span t - 1) <;> rfl

end

/-! ## A table of one row -/

omit [LinearOrder K] [IsStrictOrderedRing K] [FloorRing K] in
theorem isImage_single (hone : table.data.length = 1) {x : K} : table.IsImage x ↔ x = table.first := by
  have hspan : table.span = 0 := by rw [span, last, hone, Nat.sub_self, sub_self]
  constructor
  · rintro ⟨i, hi, m, rfl⟩
    obtain rfl : i = 0 := by omega
    rw [hspan, mul_zero, add_zero]
  · rintro rfl
    exact ⟨0, by omega, 0, by rw [Int.cast_zero, zero_mul, add_zero]⟩

theorem nextEvent_single (h : table.Reads requestedOutputCol col) (hone : table.data.length = 1) (t : K) :
    evalTimeTableNextEvent table t = pure (if t + timeEventEps < table.first then table.first else noNextTimeEvent) := by
  have hknots : (table.data.filterMap fun row => row.head?) = [table.first] := by
    obtain ⟨row, hrow⟩ := List.length_eq_one_iff.1 hone
    have hentry := (h.entries (show 0 < table.data.length by omega)).1
    rw [hrow, List.getElem?_cons_zero, Option.bind_eq_bind, Option.bind_some] at hentry
    rw [hrow, List.filterMap_cons, hentry, List.filterMap_nil]
  have hspan : table.last - table.first ≤ timeEventEps := by
    rw [last, hone, Nat.sub_self, sub_self]
    exact timeEventEps_pos.le
  have hperiodic : nextPeriodicTimeEvent table [table.first] t = pure none := by
    unfold nextPeriodicTimeEvent
    rw [h.bounds]
    simp only [pure_bind]
    rw [if_pos hspan]
  unfold evalTimeTableNextEvent
  simp only [hknots, hperiodic, ite_self, pure_bind, List.find?_singleton, decide_eq_true_eq, List.isEmpty_cons,
    Bool.false_eq_true, if_false]
  split_ifs <;> rfl

/-! ## The value by id and column -/

omit [IsStrictOrderedRing K] in
theorem evalTableLookupValueIn_eq {tables : List (ExternalTableData K)} {tableId colArg : K}
    (htable : lookupExternalTable tableId tables = pure table) (hcol : tableColIndex table colArg = pure requestedOutputCol)
    (x : K) : evalTableLookupValueIn tableId colArg x tables =
      (evalTable1dLookup table requestedOutputCol x).map TableLookupResult.value := by
  unfold evalTableLookupValueIn
  rw [htable]
  simp only [pure_bind]
  rw [hcol]
  simp only [pure_bind]
  cases evalTable1dLookup table requestedOutputCol x <;> rfl

/-- What a periodic table promises at a time: the next event, the period, and constant segments up to the event. -/
def PeriodicAt (table : ExternalTableData K) (value : K → Except (TableRuntimeError K) K) (t : K) : Prop :=
  (∃ e, evalTimeTableNextEvent table t = pure e ∧ IsLeast {x | table.IsImage x ∧ t + timeEventEps < x} e) ∧
    (∀ m : Int, value (t + m * table.span) = value t) ∧
    (table.smoothness = 3 → (∀ x, table.IsImage x → ¬(t < x ∧ x ≤ t + timeEventEps)) →
      ∀ e, evalTimeTableNextEvent table t = pure e → ∀ s, t ≤ s → s < e → value s = value t)

theorem periodicAt_iff_of_repeats (h : table.Repeats requestedOutputCol col) {t : K}
    (hcycle : IsI64 (cycleOf table.first table.span t)) :
    PeriodicAt table (fun x => (evalTable1dLookup table requestedOutputCol x).map TableLookupResult.value) t ↔
      IsI64 (cycleOf table.first table.span t - 1) ∧ IsI64 (cycleOf table.first table.span t + 2) ∧
        (table.output col 0 = table.output col (table.data.length - 1) ∨
          ∀ m : Int, t ≠ table.first + m * table.span) := by
  constructor
  · rintro ⟨⟨e, he, -⟩, hperiodic, -⟩
    rcases nextEvent_eq h hcycle with ⟨hstart, hstop, -⟩ | ⟨-, herror⟩
    · exact ⟨hstart, hstop, (lookup_periodic_iff h t).1 hperiodic⟩
    · rw [herror] at he
      cases he
  · rintro ⟨hstart, hstop, hends⟩
    rcases nextEvent_eq h hcycle with ⟨-, -, e, he, hleast⟩ | ⟨hnot, -⟩
    · refine ⟨⟨e, he, hleast⟩, (lookup_periodic_iff h t).2 hends, fun hsmooth hclear e' he' s hts hse => ?_⟩
      obtain rfl : e = e' := Except.ok.inj (he.symm.trans he')
      have hnone : ∀ x, table.IsImage x → t < x → e ≤ x := fun x hx hlt =>
        hleast.2 ⟨hx, not_le.1 fun hle => hclear x hx ⟨hlt, hle⟩⟩
      have hvalue : ∀ x, t ≤ x → x < e → (evalTable1dLookup table requestedOutputCol x).map TableLookupResult.value =
          readAt table col (phase table.first table.span t) := by
        intro x htx hxe
        rcases htx.lt_or_eq with hlt | rfl
        · have hx : x ≠ table.last := by
            rintro rfl
            have hrows := h.rows
            have himage : table.IsImage table.last :=
              ⟨table.data.length - 1, by omega, 0, by rw [Int.cast_zero, zero_mul, add_zero]⟩
            exact absurd hxe (not_lt.2 (hnone _ himage hlt))
          rw [lookup_value_phase h hx, readAt_until h hsmooth htx hxe hnone]
        · exact lookup_value_of_phase h rfl hends
      exact (hvalue s hts hse).trans (hvalue t (le_refl _) (lt_of_le_of_lt hts hse)).symm
    · exact absurd ⟨hstart, hstop⟩ hnot

/-- A periodic table keeps its promises at a time exactly when the cycles searched fit and the value at the first
abscissa's images is one: the end outputs agree, or the time is no such image. One row has one event and no later. -/
theorem periodicAt_exact (table : ExternalTableData K) (tables : List (ExternalTableData K)) (tableId colArg : K)
    (requestedOutputCol col : Nat) (htable : lookupExternalTable tableId tables = pure table)
    (hcol : tableColIndex table colArg = pure requestedOutputCol) (hreads : table.Reads requestedOutputCol col)
    (hascends : table.StrictlyAscends) (hperiodic : table.extrapolation = 3) (t : K)
    (hcycle : IsI64 (cycleOf table.first table.span t)) :
    PeriodicAt table (fun x => evalTableLookupValueIn tableId colArg x tables) t ↔
      (table.data.length = 1 ∧ t + timeEventEps < table.first) ∨
        2 ≤ table.data.length ∧ IsI64 (cycleOf table.first table.span t - 1) ∧
          IsI64 (cycleOf table.first table.span t + 2) ∧
          (table.output col 0 = table.output col (table.data.length - 1) ∨
            ∀ m : Int, t ≠ table.first + m * table.span) := by
  have hvalue : (fun x => evalTableLookupValueIn tableId colArg x tables) =
      fun x => (evalTable1dLookup table requestedOutputCol x).map TableLookupResult.value :=
    funext (evalTableLookupValueIn_eq htable hcol)
  rw [hvalue]
  have hpos := hreads.length_pos
  rcases Nat.lt_or_ge table.data.length 2 with hsmall | hn
  · have hone : table.data.length = 1 := by omega
    have hconstant : ∀ x, (evalTable1dLookup table requestedOutputCol x).map TableLookupResult.value =
        pure (table.output col 0) := fun x => by
      rw [lookup_single hreads hone]
      rfl
    rw [or_iff_left fun hmany => absurd hmany.1 (by omega), and_iff_right hone]
    constructor
    · rintro ⟨⟨e, -, ⟨himage, hpast⟩, -⟩, -⟩
      rwa [(isImage_single hone).1 himage] at hpast
    · intro hpast
      refine ⟨⟨table.first, ?_, ⟨(isImage_single hone).2 rfl, hpast⟩, fun x hx => ?_⟩, fun m => ?_,
        fun _ _ e _ s _ _ => ?_⟩
      · rw [nextEvent_single hreads hone, if_pos hpast]
      · exact ((isImage_single hone).1 hx.1).ge
      · exact (hconstant _).trans (hconstant _).symm
      · exact (hconstant _).trans (hconstant _).symm
  · rw [or_iff_right fun hsingle => absurd hsingle.1 (by omega), and_iff_right hn]
    exact periodicAt_iff_of_repeats ⟨hreads, hascends, hn, hperiodic⟩ hcycle

/-! ## A saw tooth -/

def sawTooth : ExternalTableData Rat := ⟨1, [[0, 0], [1, 1]], [2], 3, 3⟩

theorem sawTooth_reads : sawTooth.Reads 0 1 := ⟨⟨[0, 0], rfl, by decide, rfl⟩, by decide⟩

theorem sawTooth_ascends : sawTooth.StrictlyAscends := by
  intro i j hij hj
  have hj' : j < 2 := hj
  interval_cases j <;> interval_cases i
  decide +kernel

theorem sawTooth_half : PeriodicAt sawTooth (fun x => evalTableLookupValueIn 1 1 x [sawTooth]) (1 / 2) := by
  have hno : ∀ m : Int, (1 / 2 : Rat) ≠ sawTooth.first + m * sawTooth.span := by
    intro m hm
    have hspan : sawTooth.span = 1 := by decide +kernel
    have hfirst : sawTooth.first = 0 := rfl
    rw [hspan, hfirst, zero_add, mul_one] at hm
    have hden := congrArg Rat.den hm
    rw [Rat.den_intCast] at hden
    exact absurd hden (by decide +kernel)
  exact (periodicAt_exact sawTooth [sawTooth] 1 1 0 1 (by decide +kernel) (by decide +kernel) sawTooth_reads
    sawTooth_ascends rfl (1 / 2) (by decide +kernel)).2 (.inr ⟨by decide, by decide +kernel, by decide +kernel, .inr hno⟩)

/-- At the last abscissa the value is the last row's; a span later, and before the next event, it is the first row's. -/
theorem sawTooth_last : evalTableLookupValueIn 1 1 1 [sawTooth] = pure 1 ∧
    evalTableLookupValueIn 1 1 (1 + sawTooth.span) [sawTooth] = pure 0 ∧
    evalTimeTableNextEvent sawTooth 1 = pure 2 ∧ evalTableLookupValueIn 1 1 (3 / 2) [sawTooth] = pure 0 :=
  ⟨by decide +kernel, by decide +kernel, by decide +kernel, by decide +kernel⟩

end Rumoca.Eval
