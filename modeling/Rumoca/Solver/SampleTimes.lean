import Mathlib.Algebra.Order.Archimedean.Basic
import Mathlib.Algebra.Order.Field.Basic
import Mathlib.Algebra.Order.Floor.Ring
import Mathlib.Data.Rat.Floor
import Mathlib.Data.Set.Finite.Lattice
import Mathlib.Tactic.Linarith
import Mathlib.Tactic.NormNum
import Rumoca.Lib.Nearness
/-!
# Sample times

Times match within a tolerance. `next_schedule_event_time` searches a periodic
schedule for its next tick: from the tick at or before the current time on, in
at most four rounds, each of which steps over the tolerance of the tick before.
Where the period is not too small beside the times, the rounds reach the first
tick due, and the event times of all schedules are distinct and miss no tick.
-/

namespace Rumoca.Solver

open Rumoca.Lib

variable {K : Type} [Field K] [LinearOrder K] [IsStrictOrderedRing K]

/-! ## Matching -/

/-- A tolerance of times, as `sample_time_tolerance` gives it, whose match is a nearness. -/
structure TimeTolerance (K : Type) [Field K] [LinearOrder K] [IsStrictOrderedRing K] where
  sampleTimeTolerance : K → K → K
  nearness : Nearness fun a b => |a - b| ≤ sampleTimeTolerance a b

/-- `SCHEDULE_TIME_RELATIVE_TOLERANCE`. -/
def scheduleTimeRelativeTolerance : K := 1 / 1000000000000

theorem scheduleTimeRelativeTolerance_pos : (0 : K) < scheduleTimeRelativeTolerance := by
  unfold scheduleTimeRelativeTolerance
  norm_num

theorem scheduleTimeRelativeTolerance_le : (scheduleTimeRelativeTolerance : K) ≤ 1 / 2 := by
  unfold scheduleTimeRelativeTolerance
  norm_num

theorem max_abs_le (a b c : K) : max |b| |c| ≤ max |a| |c| + |b - a| := by
  have hb : |b| ≤ |a| + |b - a| := by linarith [abs_sub_abs_le_abs_sub b a]
  refine max_le (hb.trans (add_le_add_left (le_max_left ..) _)) ?_
  exact (le_max_right |a| |c|).trans (le_add_of_nonneg_right (abs_nonneg _))

theorem le_relativeTolerance {gap rest scale scale' : K} (hrest : 0 ≤ rest) (hscale : scale ≤ scale' + rest)
    (h : gap + rest ≤ scheduleTimeRelativeTolerance * (1 + scale)) :
    gap ≤ scheduleTimeRelativeTolerance * (1 + scale') := by
  have hgrow := mul_le_mul_of_nonneg_left hscale (scheduleTimeRelativeTolerance_pos (K := K)).le
  have hshrink : scheduleTimeRelativeTolerance * rest ≤ rest :=
    mul_le_of_le_one_left hrest (scheduleTimeRelativeTolerance_le.trans (by norm_num))
  linarith

theorem relativeTolerance_nearness :
    Nearness fun a b : K => |a - b| ≤ scheduleTimeRelativeTolerance * (1 + max |a| |b|) := by
  refine ⟨fun a => ?_, fun a b h => ?_, fun a b c hab hbc h => ⟨?_, ?_⟩⟩
  · rw [sub_self, abs_zero]
    exact mul_nonneg scheduleTimeRelativeTolerance_pos.le (add_nonneg zero_le_one ((abs_nonneg a).trans (le_max_left ..)))
  · rwa [abs_sub_comm, max_comm]
  · rw [abs_of_nonpos (by linarith), neg_sub] at h ⊢
    have hscale := max_abs_le b c a
    rw [abs_of_nonneg (sub_nonneg.2 hbc), max_comm, max_comm |b|] at hscale
    exact le_relativeTolerance (sub_nonneg.2 hbc) hscale (by linarith)
  · rw [abs_of_nonpos (by linarith), neg_sub] at h ⊢
    have hscale := max_abs_le b a c
    rw [abs_sub_comm, abs_of_nonneg (sub_nonneg.2 hab)] at hscale
    exact le_relativeTolerance (sub_nonneg.2 hab) hscale (by linarith)

/-- `sample_time_tolerance` as the runtime fixes it. -/
def relativeTolerance : TimeTolerance K where
  sampleTimeTolerance a b := scheduleTimeRelativeTolerance * (1 + max |a| |b|)
  nearness := relativeTolerance_nearness

namespace TimeTolerance

variable (tol : TimeTolerance K)

/-- `sample_time_match_with_tol`. -/
def Matches (a b : K) : Prop := |a - b| ≤ tol.sampleTimeTolerance a b

instance (a b : K) : Decidable (tol.Matches a b) := inferInstanceAs (Decidable (_ ≤ _))

theorem matches_nearness : Nearness tol.Matches := tol.nearness

end TimeTolerance

/-! ## Periodic schedules -/

structure PeriodicEventSchedule (K : Type) [Field K] [LinearOrder K] where
  periodSeconds : K
  phaseSeconds : K
  period_pos : 0 < periodSeconds

def scheduleTickTime (schedule : PeriodicEventSchedule K) (tick : ℤ) : K :=
  schedule.phaseSeconds + tick * schedule.periodSeconds

section

variable (tol : TimeTolerance K)

def EventTimeInWindow (eventT currentT targetT : K) : Prop :=
  currentT < eventT ∧ (eventT < targetT ∨ tol.Matches eventT targetT)

instance (eventT currentT targetT : K) : Decidable (EventTimeInWindow tol eventT currentT targetT) :=
  inferInstanceAs (Decidable (_ ∧ _))

def ScheduledTimeInHorizon (eventT tStart tEnd : K) : Prop :=
  (tStart < eventT ∨ tol.Matches eventT tStart) ∧ (eventT < tEnd ∨ tol.Matches eventT tEnd)

instance (eventT tStart tEnd : K) : Decidable (ScheduledTimeInHorizon tol eventT tStart tEnd) :=
  inferInstanceAs (Decidable (_ ∧ _))

variable [FloorRing K]

def firstTick (schedule : PeriodicEventSchedule K) (currentT : K) : ℤ :=
  max ⌊(currentT - schedule.phaseSeconds) / schedule.periodSeconds⌋ 0

def nextTick (schedule : PeriodicEventSchedule K) (currentT : K) (tick : ℤ) : ℤ :=
  let tolerance := tol.sampleTimeTolerance (scheduleTickTime schedule tick) currentT
  let firstDistinctTime := currentT + tolerance
  max (max (⌊(firstDistinctTime - schedule.phaseSeconds) / schedule.periodSeconds⌋ + 1) (tick + 1)) 0

/-- `next_schedule_event_time`'s loop, with `rounds` left. -/
def searchTick (schedule : PeriodicEventSchedule K) (currentT targetT : K) : (rounds : Nat) → (tick : ℤ) → Option K
  | 0, _ => none
  | rounds + 1, tick =>
    let eventT := scheduleTickTime schedule tick
    if EventTimeInWindow tol eventT currentT targetT ∧ ¬tol.Matches eventT currentT then some eventT
    else if targetT < eventT ∧ ¬tol.Matches eventT targetT then none
    else
      let nextTick := nextTick tol schedule currentT tick
      if nextTick ≤ tick then none else searchTick schedule currentT targetT rounds nextTick

def nextScheduleEventTime (schedule : PeriodicEventSchedule K) (currentT targetT : K) : Option K :=
  if schedule.periodSeconds ≤ 0 then none
  else searchTick tol schedule currentT targetT 4 (firstTick schedule currentT)

def nextPeriodicEventTime (schedules : List (PeriodicEventSchedule K)) (currentT targetT : K) : Option K :=
  (schedules.filterMap fun schedule => nextScheduleEventTime tol schedule currentT targetT).min?

/-- `periodic_event_times`: the first `n` items of the iterator. -/
def periodicEventTimes (schedules : List (PeriodicEventSchedule K)) (targetT : K) :
    (n : Nat) → (currentT : K) → List K :=
  successors fun eventT => nextPeriodicEventTime tol schedules eventT targetT

/-! ## What the search finds -/

/-- A time that a query at `currentT` up to `targetT` may stop at. -/
def Due (currentT targetT x : K) : Prop := EventTimeInWindow tol x currentT targetT ∧ ¬tol.Matches x currentT

instance (currentT targetT x : K) : Decidable (Due tol currentT targetT x) := inferInstanceAs (Decidable (_ ∧ _))

variable {tol} {schedule : PeriodicEventSchedule K} {currentT targetT : K}

omit [FloorRing K] in
theorem due_iff {x : K} : Due tol currentT targetT x ↔
    Past tol.Matches currentT x ∧ (x < targetT ∨ tol.Matches x targetT) := by
  unfold Due EventTimeInWindow Past
  tauto

theorem scheduleTickTime_lt {tick other : ℤ} :
    scheduleTickTime schedule tick < scheduleTickTime schedule other ↔ tick < other := by
  unfold scheduleTickTime
  rw [add_lt_add_iff_left, mul_lt_mul_iff_of_pos_right schedule.period_pos, Int.cast_lt]

omit [FloorRing K] in
theorem scheduleTickTime_add_period_le {tick other : ℤ} (h : tick < other) :
    scheduleTickTime schedule tick + schedule.periodSeconds ≤ scheduleTickTime schedule other := by
  have hcast : (tick : K) + 1 ≤ other := by exact_mod_cast h
  have := mul_le_mul_of_nonneg_right hcast schedule.period_pos.le
  unfold scheduleTickTime
  linarith

omit [FloorRing K] in
theorem in_window_of_le {x y : K} (hyx : y ≤ x) (hx : x < targetT ∨ tol.Matches x targetT) :
    y < targetT ∨ tol.Matches y targetT := by
  have hn := tol.matches_nearness
  rcases hx with h | h
  · exact .inl (hyx.trans_lt h)
  · exact (lt_or_ge y targetT).imp_right fun hge => hn.symm _ _ (hn.convex _ _ _ hge hyx (hn.symm _ _ h)).1

omit [IsStrictOrderedRing K] in
theorem firstTick_nonneg : 0 ≤ firstTick schedule currentT := le_max_right ..

theorem firstTick_le {tick : ℤ} (htick : 0 ≤ tick) (h : currentT < scheduleTickTime schedule tick) :
    firstTick schedule currentT ≤ tick := by
  refine max_le (Int.floor_lt.2 ?_).le htick
  rw [div_lt_iff₀ schedule.period_pos, sub_lt_iff_lt_add']
  exact h

theorem nextTick_le_iff {tick other : ℤ} : nextTick tol schedule currentT tick ≤ other ↔
    currentT + tol.sampleTimeTolerance (scheduleTickTime schedule tick) currentT < scheduleTickTime schedule other ∧
      tick < other ∧ 0 ≤ other := by
  unfold nextTick
  simp only
  rw [max_le_iff, max_le_iff, Int.add_one_le_iff, Int.add_one_le_iff, Int.floor_lt, div_lt_iff₀ schedule.period_pos,
    sub_lt_iff_lt_add', and_assoc]
  rfl

theorem lt_time_nextTick (tick : ℤ) :
    currentT + tol.sampleTimeTolerance (scheduleTickTime schedule tick) currentT <
      scheduleTickTime schedule (nextTick tol schedule currentT tick) := (nextTick_le_iff.1 le_rfl).1

theorem lt_nextTick {tick : ℤ} : tick < nextTick tol schedule currentT tick := (nextTick_le_iff.1 le_rfl).2.1

theorem nextTick_nonneg {tick : ℤ} : 0 ≤ nextTick tol schedule currentT tick := (nextTick_le_iff.1 le_rfl).2.2

theorem le_iterate_nextTick (round : Nat) (tick : ℤ) : tick ≤ (nextTick tol schedule currentT)^[round] tick := by
  induction round generalizing tick with
  | zero => exact le_refl _
  | succ round ih =>
    rw [Function.iterate_succ_apply]
    exact lt_nextTick.le.trans (ih _)

theorem searchTick_due {rounds : Nat} {tick : ℤ} (htick : 0 ≤ tick) {x : K}
    (h : searchTick tol schedule currentT targetT rounds tick = some x) :
    Due tol currentT targetT x ∧ ∃ n : Nat, x = scheduleTickTime schedule n := by
  induction rounds generalizing tick with
  | zero => cases h
  | succ rounds ih =>
    unfold searchTick at h
    simp only at h
    split_ifs at h with hfound
    · obtain rfl := Option.some.inj h
      exact ⟨hfound, tick.toNat, by rw [Int.toNat_of_nonneg htick]⟩
    · exact ih nextTick_nonneg h

theorem searchTick_eq {rounds : Nat} {tick first : ℤ} (hdue : Due tol currentT targetT (scheduleTickTime schedule first))
    (hfirst : ∀ n < first, 0 ≤ n → ¬Due tol currentT targetT (scheduleTickTime schedule n)) (htick : 0 ≤ tick)
    {round : Nat} (hround : round < rounds) (hat : (nextTick tol schedule currentT)^[round] tick = first) :
    searchTick tol schedule currentT targetT rounds tick = some (scheduleTickTime schedule first) := by
  induction rounds generalizing tick round with
  | zero => cases hround
  | succ rounds ih =>
    unfold searchTick
    simp only
    cases round with
    | zero =>
      obtain rfl : tick = first := hat
      exact if_pos hdue
    | succ round =>
      rw [Function.iterate_succ_apply] at hat
      have hlt : tick < first := by
        exact lt_nextTick.trans_le (hat ▸ le_iterate_nextTick round _)
      have hlt' : scheduleTickTime schedule tick < scheduleTickTime schedule first := scheduleTickTime_lt.2 hlt
      have hstop : ¬(targetT < scheduleTickTime schedule tick ∧
          ¬tol.Matches (scheduleTickTime schedule tick) targetT) := fun ⟨hgt, hnot⟩ =>
        (in_window_of_le hlt'.le (due_iff.1 hdue).2).elim hgt.not_gt hnot
      have hnot : ¬(EventTimeInWindow tol (scheduleTickTime schedule tick) currentT targetT ∧
          ¬tol.Matches (scheduleTickTime schedule tick) currentT) := hfirst tick hlt htick
      rw [if_neg hnot, if_neg hstop, if_neg (not_le.2 lt_nextTick)]
      exact ih nextTick_nonneg (Nat.lt_of_succ_lt_succ hround) hat

end

/-! ## The rounds reach the first due tick -/

section

variable [FloorRing K] {schedule : PeriodicEventSchedule K} {currentT targetT : K}

/-- The search tells the ticks apart at times up to `bound`: four rounds step over all that a time matches. -/
def Resolved (schedule : PeriodicEventSchedule K) (bound : K) : Prop :=
  0 ≤ schedule.phaseSeconds ∧
    scheduleTimeRelativeTolerance ^ 3 * (1 + bound) ≤ (1 - scheduleTimeRelativeTolerance) * schedule.periodSeconds

omit [FloorRing K] in
theorem Resolved.mono {bound bound' : K} (h : Resolved schedule bound) (hle : bound' ≤ bound) :
    Resolved schedule bound' := by
  refine ⟨h.1, le_trans (mul_le_mul_of_nonneg_left ?_ (pow_nonneg scheduleTimeRelativeTolerance_pos.le 3)) h.2⟩
  exact (add_le_add_iff_left 1).2 hle

omit [FloorRing K] in
/-- Each round divides what the time may still match by the tolerance. -/
theorem period_lt {t period e₁ e₂ e₃ : K} (hperiod : 0 < period)
    (h₁ : t + scheduleTimeRelativeTolerance * (1 + |t|) < e₁) (h₁₂ : e₁ ≤ e₂)
    (h₂ : t + scheduleTimeRelativeTolerance * (1 + max |e₁| |t|) < e₂) (h₂₃ : e₂ + period ≤ e₃)
    (h₃ : e₃ - t ≤ scheduleTimeRelativeTolerance * (1 + max |e₃| |t|)) :
    (1 - scheduleTimeRelativeTolerance) * period < scheduleTimeRelativeTolerance ^ 3 * (1 + |t|) := by
  have hpos : (0 : K) < scheduleTimeRelativeTolerance := scheduleTimeRelativeTolerance_pos
  have hone : (0 : K) < 1 - scheduleTimeRelativeTolerance := by linarith [scheduleTimeRelativeTolerance_le (K := K)]
  have ht : t < e₁ := lt_of_le_of_lt (le_add_of_nonneg_right (mul_nonneg hpos.le (by positivity))) h₁
  have hfar : scheduleTimeRelativeTolerance * max |e₃| |t| ≤ scheduleTimeRelativeTolerance * (|t| + (e₃ - t)) := by
    have hscale := max_abs_le t e₃ t
    rw [max_self, abs_of_nonneg (by linarith : 0 ≤ e₃ - t)] at hscale
    exact mul_le_mul_of_nonneg_left hscale hpos.le
  have hnear : scheduleTimeRelativeTolerance * max |e₃| |t| ≤
      scheduleTimeRelativeTolerance * (max |e₁| |t| + (e₃ - e₁)) := by
    have hscale := max_abs_le e₁ e₃ t
    rw [abs_of_nonneg (by linarith : 0 ≤ e₃ - e₁)] at hscale
    exact mul_le_mul_of_nonneg_left hscale hpos.le
  have hgap : (1 - scheduleTimeRelativeTolerance) * (e₃ - t) ≤ scheduleTimeRelativeTolerance * (1 + |t|) := by
    linarith
  have hgap₁ : e₃ - e₁ < scheduleTimeRelativeTolerance * (e₃ - t) := by linarith
  have hgap₂ : period < scheduleTimeRelativeTolerance * (e₃ - e₁) := by linarith
  calc (1 - scheduleTimeRelativeTolerance) * period
      < (1 - scheduleTimeRelativeTolerance) *
          (scheduleTimeRelativeTolerance * (scheduleTimeRelativeTolerance * (e₃ - t))) :=
        mul_lt_mul_of_pos_left (hgap₂.trans (mul_lt_mul_of_pos_left hgap₁ hpos)) hone
    _ = scheduleTimeRelativeTolerance ^ 2 * ((1 - scheduleTimeRelativeTolerance) * (e₃ - t)) := by ring
    _ ≤ scheduleTimeRelativeTolerance ^ 2 * (scheduleTimeRelativeTolerance * (1 + |t|)) :=
        mul_le_mul_of_nonneg_left hgap (pow_nonneg hpos.le 2)
    _ = scheduleTimeRelativeTolerance ^ 3 * (1 + |t|) := by ring

omit [FloorRing K] in
theorem relativeTolerance_of_not_past {x : K} (hlt : currentT < x) (h : ¬Past relativeTolerance.Matches currentT x) :
    x - currentT ≤ scheduleTimeRelativeTolerance * (1 + max |x| |currentT|) := by
  have hnear := (not_past_iff.1 h).resolve_left (not_le.2 hlt)
  exact (abs_of_pos (sub_pos.2 hlt)).symm.le.trans hnear

omit [FloorRing K] in
theorem relativeTolerance_of_past {x : K} (h : Past relativeTolerance.Matches currentT x) :
    currentT + scheduleTimeRelativeTolerance * (1 + max |x| |currentT|) < x := by
  have hnot : ¬|x - currentT| ≤ scheduleTimeRelativeTolerance * (1 + max |x| |currentT|) := h.2
  rw [abs_of_pos (sub_pos.2 h.1)] at hnot
  linarith

theorem exists_round (hresolved : Resolved schedule |currentT|) {first : ℤ} (hnonneg : 0 ≤ first)
    (hdue : Due relativeTolerance currentT targetT (scheduleTickTime schedule first))
    (hfirst : ∀ n < first, 0 ≤ n → ¬Due relativeTolerance currentT targetT (scheduleTickTime schedule n)) :
    ∃ round < 4, (nextTick relativeTolerance schedule currentT)^[round] (firstTick schedule currentT) = first := by
  by_contra! hnone
  obtain ⟨hpast, hwindow⟩ := due_iff.1 hdue
  let tick (round : Nat) : ℤ := (nextTick relativeTolerance schedule currentT)^[round] (firstTick schedule currentT)
  have htick (round : Nat) : tick (round + 1) = nextTick relativeTolerance schedule currentT (tick round) :=
    Function.iterate_succ_apply' ..
  -- a round at a tick before the first one due goes on to no later one
  have hstep {n : ℤ} (hn : 0 ≤ n) (hlt : n < first) : nextTick relativeTolerance schedule currentT n ≤ first := by
    refine nextTick_le_iff.2 ⟨lt_of_le_of_lt ?_ (relativeTolerance_of_past hpast), hlt, hnonneg⟩
    have htime : 0 ≤ scheduleTickTime schedule n :=
      add_nonneg hresolved.1 (mul_nonneg (Int.cast_nonneg hn) schedule.period_pos.le)
    have habs := abs_le_abs_of_nonneg htime (scheduleTickTime_lt.2 hlt).le
    refine (add_le_add_iff_left _).2 (mul_le_mul_of_nonneg_left ?_ scheduleTimeRelativeTolerance_pos.le)
    exact (add_le_add_iff_left 1).2 (max_le_max_right _ habs)
  have hbelow : ∀ round < 4, 0 ≤ tick round ∧ tick round < first := by
    intro round
    induction round with
    | zero => exact fun h => ⟨firstTick_nonneg, lt_of_le_of_ne (firstTick_le hnonneg hpast.1) (hnone 0 h)⟩
    | succ round ih =>
      intro h
      obtain ⟨hn, hlt⟩ := ih (Nat.lt_of_succ_lt h)
      rw [htick]
      exact ⟨nextTick_nonneg, lt_of_le_of_ne (hstep hn hlt) (htick round ▸ hnone (round + 1) h)⟩
  have hlast : ¬Past relativeTolerance.Matches currentT (scheduleTickTime schedule (tick 3)) := fun h =>
    hfirst _ (hbelow 3 (by norm_num)).2 (hbelow 3 (by norm_num)).1
      (due_iff.2 ⟨h, in_window_of_le (scheduleTickTime_lt.2 (hbelow 3 (by norm_num)).2).le hwindow⟩)
  have hround (round : Nat) : currentT + relativeTolerance.sampleTimeTolerance (scheduleTickTime schedule (tick round))
      currentT < scheduleTickTime schedule (tick (round + 1)) := by
    rw [htick]
    exact lt_time_nextTick _
  have hordered (round : Nat) : tick round < tick (round + 1) := htick round ▸ lt_nextTick
  have hstart : currentT + scheduleTimeRelativeTolerance * (1 + |currentT|) < scheduleTickTime schedule (tick 1) := by
    refine lt_of_le_of_lt ((add_le_add_iff_left _).2 (mul_le_mul_of_nonneg_left ?_ ?_)) (hround 0)
    · exact (add_le_add_iff_left 1).2 (le_max_right ..)
    · exact scheduleTimeRelativeTolerance_pos.le
  have h₁₂ : scheduleTickTime schedule (tick 1) < scheduleTickTime schedule (tick 2) :=
    scheduleTickTime_lt.2 (hordered 1)
  have h₂₃ : scheduleTickTime schedule (tick 2) < scheduleTickTime schedule (tick 3) :=
    scheduleTickTime_lt.2 (hordered 2)
  have hafter : currentT < scheduleTickTime schedule (tick 1) :=
    lt_of_le_of_lt (le_add_of_nonneg_right (mul_nonneg scheduleTimeRelativeTolerance_pos.le (by positivity))) hstart
  have hlimit := relativeTolerance_of_not_past (hafter.trans (h₁₂.trans h₂₃)) hlast
  exact hresolved.2.not_gt
    (period_lt schedule.period_pos hstart h₁₂.le (hround 1) (scheduleTickTime_add_period_le (hordered 2)) hlimit)

theorem nextScheduleEventTime_first (hresolved : Resolved schedule |currentT|) {n : ℕ}
    (hn : Due relativeTolerance currentT targetT (scheduleTickTime schedule n)) :
    ∃ first : ℕ,
      nextScheduleEventTime relativeTolerance schedule currentT targetT = some (scheduleTickTime schedule first) ∧
      ∀ m : ℕ, Due relativeTolerance currentT targetT (scheduleTickTime schedule m) →
        scheduleTickTime schedule first ≤ scheduleTickTime schedule m := by
  have hexists : ∃ n : ℕ, Due relativeTolerance currentT targetT (scheduleTickTime schedule n) := ⟨n, hn⟩
  refine ⟨Nat.find hexists, ?_, fun m hm => ?_⟩
  · have hfirst : ∀ m < (Nat.find hexists : ℤ), 0 ≤ m →
        ¬Due relativeTolerance currentT targetT (scheduleTickTime schedule m) := by
      intro m hm hnonneg
      obtain ⟨m, rfl⟩ := Int.eq_ofNat_of_zero_le hnonneg
      exact Nat.find_min hexists (Int.ofNat_lt.1 hm)
    obtain ⟨round, hround, hat⟩ := exists_round hresolved (Int.natCast_nonneg _) (Nat.find_spec hexists) hfirst
    unfold nextScheduleEventTime
    rw [if_neg schedule.period_pos.not_ge]
    exact searchTick_eq (Nat.find_spec hexists) hfirst firstTick_nonneg hround hat
  · rcases (Nat.find_min' hexists hm).lt_or_eq with h | h
    · exact (scheduleTickTime_lt.2 (Int.ofNat_lt.2 h)).le
    · rw [h]

variable {schedules : List (PeriodicEventSchedule K)}

def Scheduled (schedules : List (PeriodicEventSchedule K)) (x : K) : Prop :=
  ∃ schedule ∈ schedules, ∃ n : ℕ, x = scheduleTickTime schedule n

theorem nextScheduleEventTime_due {x : K} (h : nextScheduleEventTime relativeTolerance schedule currentT targetT = some x) :
    Due relativeTolerance currentT targetT x ∧ ∃ n : ℕ, x = scheduleTickTime schedule n := by
  unfold nextScheduleEventTime at h
  rw [if_neg schedule.period_pos.not_ge] at h
  exact searchTick_due firstTick_nonneg h

theorem nextPeriodicEventTime_eq_some_iff (hresolved : ∀ schedule ∈ schedules, Resolved schedule |currentT|) {x : K} :
    nextPeriodicEventTime relativeTolerance schedules currentT targetT = some x ↔
      IsLeast {x | Scheduled schedules x ∧ Due relativeTolerance currentT targetT x} x := by
  have hmem {y : K} (hy : y ∈ schedules.filterMap fun schedule =>
      nextScheduleEventTime relativeTolerance schedule currentT targetT) :
      Scheduled schedules y ∧ Due relativeTolerance currentT targetT y := by
    obtain ⟨schedule, hschedule, hy⟩ := List.mem_filterMap.1 hy
    obtain ⟨hdue, n, hn⟩ := nextScheduleEventTime_due hy
    exact ⟨⟨schedule, hschedule, n, hn⟩, hdue⟩
  have hle {y : K} (hy : Scheduled schedules y ∧ Due relativeTolerance currentT targetT y) :
      ∃ z ∈ schedules.filterMap fun schedule => nextScheduleEventTime relativeTolerance schedule currentT targetT,
        z ≤ y := by
    obtain ⟨⟨schedule, hschedule, n, rfl⟩, hdue⟩ := hy
    obtain ⟨first, hfound, hleast⟩ := nextScheduleEventTime_first (hresolved schedule hschedule) hdue
    exact ⟨_, List.mem_filterMap.2 ⟨schedule, hschedule, hfound⟩, hleast n hdue⟩
  unfold nextPeriodicEventTime
  rw [List.min?_eq_some_iff]
  constructor
  · rintro ⟨hx, hmin⟩
    refine ⟨hmem hx, fun y hy => ?_⟩
    obtain ⟨z, hz, hzy⟩ := hle hy
    exact (hmin z hz).trans hzy
  · rintro ⟨hx, hleast⟩
    obtain ⟨z, hz, hzx⟩ := hle hx
    obtain rfl := le_antisymm hzx (hleast (hmem hz))
    exact ⟨hz, fun y hy => hleast (hmem hy)⟩

/-! ## The event times of a run -/

omit [FloorRing K] in
theorem abs_le_of_due {x : K} (h : Due relativeTolerance currentT targetT x) : |x| ≤ |currentT| + 2 * |targetT| + 1 := by
  have ht := abs_le.1 (le_refl |currentT|)
  have htarget := abs_le.1 (le_refl |targetT|)
  have habove : x ≤ 2 * |targetT| + 1 := by
    rcases (due_iff.1 h).2 with hlt | hmatch
    · linarith
    · by_contra! hlt
      have hgap : |x - targetT| ≤ scheduleTimeRelativeTolerance * (1 + max |x| |targetT|) := hmatch
      have hscale := max_abs_le targetT x targetT
      have hpos : (0 : K) < scheduleTimeRelativeTolerance := scheduleTimeRelativeTolerance_pos
      rw [max_self] at hscale
      have hgrow := mul_le_mul_of_nonneg_left hscale hpos.le
      have hhalf := mul_le_mul_of_nonneg_right (scheduleTimeRelativeTolerance_le (K := K))
        (by positivity : 0 ≤ 1 + |targetT| + |x - targetT|)
      have := le_abs_self (x - targetT)
      linarith
  refine abs_le.2 ⟨?_, ?_⟩
  · linarith [h.1.1]
  · linarith [abs_nonneg currentT]

theorem scheduled_finite (schedules : List (PeriodicEventSchedule K)) (bound : K) :
    {x | Scheduled schedules x ∧ x ≤ bound}.Finite := by
  have hticks (schedule : PeriodicEventSchedule K) : {n : ℕ | scheduleTickTime schedule n ≤ bound}.Finite := by
    obtain ⟨last, hlast⟩ := exists_nat_gt ((bound - schedule.phaseSeconds) / schedule.periodSeconds)
    rw [div_lt_iff₀ schedule.period_pos] at hlast
    refine (Set.finite_lt_nat last).subset fun n (hn : _ + _ * _ ≤ bound) => ?_
    have hlt : (n : K) * schedule.periodSeconds < last * schedule.periodSeconds := by
      rw [Int.cast_natCast] at hn
      linarith
    exact Nat.cast_lt.1 ((mul_lt_mul_iff_of_pos_right schedule.period_pos).1 hlt)
  refine ((List.finite_toSet schedules).biUnion fun schedule _ =>
    (hticks schedule).image fun n : ℕ => scheduleTickTime schedule n).subset ?_
  rintro x ⟨⟨schedule, hschedule, n, rfl⟩, hle⟩
  exact Set.mem_biUnion hschedule ⟨n, hle, rfl⟩

/-- `periodic_event_times` ends; its times are ticks of the window, none matches another, and every tick of the window
matches one of them. -/
theorem periodicEventTimes_covers
    (hresolved : ∀ schedule ∈ schedules, Resolved schedule (|currentT| + 2 * |targetT| + 1)) :
    ∃ n, (∀ m, n ≤ m → periodicEventTimes relativeTolerance schedules targetT m currentT =
        periodicEventTimes relativeTolerance schedules targetT n currentT) ∧
      (periodicEventTimes relativeTolerance schedules targetT n currentT).Pairwise (Past relativeTolerance.Matches) ∧
      (∀ x ∈ periodicEventTimes relativeTolerance schedules targetT n currentT,
        Scheduled schedules x ∧ Due relativeTolerance currentT targetT x) ∧
      ∀ x, Scheduled schedules x → Due relativeTolerance currentT targetT x →
        ∃ eventT ∈ periodicEventTimes relativeTolerance schedules targetT n currentT,
          relativeTolerance.Matches eventT x := by
  let points : Set K := {x | Scheduled schedules x ∧ Due relativeTolerance currentT targetT x}
  have hn := relativeTolerance.matches_nearness (K := K)
  have hfinite : points.Finite := (scheduled_finite schedules (|currentT| + 2 * |targetT| + 1)).subset
    fun x hx => ⟨hx.1, (le_abs_self x).trans (abs_le_of_due hx.2)⟩
  have hnext : ∀ b, b = currentT ∨ b ∈ points → ∀ c, nextPeriodicEventTime relativeTolerance schedules b targetT = some c ↔
      IsLeast {x | x ∈ points ∧ Past relativeTolerance.Matches b x} c := by
    intro b hb c
    have hafter : currentT ≤ b := hb.elim (fun h => h.ge) fun h => (due_iff.1 h.2).1.1.le
    have hbound : |b| ≤ |currentT| + 2 * |targetT| + 1 := by
      rcases hb with rfl | hb
      · linarith [abs_nonneg targetT]
      · exact abs_le_of_due hb.2
    rw [nextPeriodicEventTime_eq_some_iff fun schedule h => (hresolved schedule h).mono hbound]
    refine iff_of_eq (congrArg (IsLeast · c) (Set.ext fun x => ?_))
    simp only [points, Set.mem_ofPred_eq, due_iff]
    exact ⟨fun ⟨h, hpast, hw⟩ => ⟨⟨h, hn.past_of_le_of_past hafter hpast, hw⟩, hpast⟩,
      fun ⟨⟨h, _, hw⟩, hpast⟩ => ⟨h, hpast, hw⟩⟩
  obtain ⟨n, hend, hseparate, hfound, hcover⟩ := hn.exists_successors hfinite hnext
  refine ⟨n, hend, (List.pairwise_cons.1 hseparate).2, hfound, fun x hx hdue => ?_⟩
  exact hcover x ⟨hx, hdue⟩ (due_iff.1 hdue).1

end

def tenths : List (PeriodicEventSchedule ℚ) := [⟨1 / 10, 0, by norm_num⟩, ⟨1 / 5, 0, by norm_num⟩]

theorem periodicEventTimes_tenths :
    ∃ n, (∀ m, n ≤ m → periodicEventTimes relativeTolerance tenths (2 / 5) m 0 =
        periodicEventTimes relativeTolerance tenths (2 / 5) n 0) ∧
      (periodicEventTimes relativeTolerance tenths (2 / 5) n 0).Pairwise (Past relativeTolerance.Matches) ∧
      (∀ x ∈ periodicEventTimes relativeTolerance tenths (2 / 5) n 0,
        Scheduled tenths x ∧ Due relativeTolerance 0 (2 / 5) x) ∧
      ∀ x, Scheduled tenths x → Due relativeTolerance 0 (2 / 5) x →
        ∃ eventT ∈ periodicEventTimes relativeTolerance tenths (2 / 5) n 0, relativeTolerance.Matches eventT x := by
  refine periodicEventTimes_covers fun schedule h => ?_
  rcases List.mem_pair.1 h with rfl | rfl
  all_goals
    refine ⟨le_refl _, ?_⟩
    norm_num [scheduleTimeRelativeTolerance]

end Rumoca.Solver
