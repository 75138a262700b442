import Mathlib.Data.Sign.Basic
import Mathlib.Tactic.FieldSimp
import Mathlib.Tactic.Linarith
import Mathlib.Tactic.LinearCombination
import Mathlib.Tactic.Ring
import Rumoca.Solver.Delay
/-!
# What a delay channel reads

A value is read between two samples, from them and one neighbour on each side; a
root is read from the jumps around the query. Neither looks further, so a channel
that lost a prefix reads the same away from its new start.
-/

namespace Rumoca.Solver

open Rumoca.Lib

variable {K : Type} [LinearOrder K]

/-! ## The cut of a sorted list -/

theorem exists_bracket {first : DelayPoint K} {points : List (DelayPoint K)} {queryTime : K}
    (h : first.time ≤ queryTime) (hs : (first :: points).Pairwise fun a b => a.time ≤ b.time) :
    ∃ before lower after, first :: points = before ++ lower :: after ∧ (∀ p ∈ before, p.time ≤ queryTime) ∧
      lower.time ≤ queryTime ∧ ∀ p ∈ after, queryTime < p.time := by
  induction points generalizing first with
  | nil => exact ⟨[], first, [], rfl, by simp, h, by simp⟩
  | cons second points ih =>
    by_cases h2 : second.time ≤ queryTime
    · obtain ⟨before, lower, after, heq, hb, hl, ha⟩ := ih h2 hs.of_cons
      exact ⟨first :: before, lower, after, by rw [heq]; rfl, by simpa [h] using hb, hl, ha⟩
    · refine ⟨[], first, second :: points, rfl, by simp, h, ?_⟩
      intro p hp
      obtain rfl | hp := List.mem_cons.mp hp
      · exact not_le.mp h2
      · exact (not_le.mp h2).trans_le (List.rel_of_pairwise_cons hs.of_cons hp)

theorem partitionPoint_bracket {before after : List (DelayPoint K)} {lower : DelayPoint K} {queryTime : K}
    (hb : ∀ p ∈ before, p.time ≤ queryTime) (hl : lower.time ≤ queryTime) (ha : ∀ p ∈ after, queryTime < p.time) :
    partitionPoint (fun point : DelayPoint K => point.time ≤ queryTime) (before ++ lower :: after) =
      before.length + 1 := by
  rw [List.append_cons, partitionPoint_append, partitionPoint_of_not]
  · simp
  · intro p hp
    simpa using ha p (List.mem_of_mem_head? hp)
  · simpa [or_imp, forall_and, hl] using hb

section
variable {channel : DelayChannelHistory K} {before after : List K} {queryTime : K}
  (hc : activeDiscontinuities channel = before ++ after) (hb : ∀ d ∈ before, d < queryTime)
  (ha : ∀ d ∈ after, queryTime ≤ d)
include hc hb ha

theorem matchingDiscontinuityIndex_cut :
    matchingDiscontinuityIndex channel queryTime = if after.head? = some queryTime then some before.length else none := by
  have hcut : partitionPoint (fun d => decide (d < queryTime ∧ ¬ delayTimeMatches d queryTime)) (before ++ after) =
      before.length := by
    rw [partitionPoint_append, partitionPoint_of_not, Nat.add_zero]
    · intro d hd
      simp [(ha d (List.mem_of_mem_head? hd)).not_gt]
    · intro d hd
      simp [delayTimeMatches, hb d hd, (hb d hd).ne]
  have hafter : (before ++ after)[before.length]? = after.head? := by
    rw [List.getElem?_append_right le_rfl, Nat.sub_self, List.head?_eq_getElem?]
  have hbefore : ((before ++ after)[before.length - 1]?.any fun d => delayTimeMatches d queryTime) = true →
      before = [] ∨ after.head? = some queryTime := by
    intro h
    rcases List.eq_nil_or_concat before with rfl | ⟨front, d, rfl⟩
    · exact .inl rfl
    · have := hb d (by simp)
      simp [delayTimeMatches, this.ne] at h
  unfold matchingDiscontinuityIndex
  simp only [hc, hcut, hafter]
  by_cases h : after.head? = some queryTime
  · simp [h, delayTimeMatches]
  · rw [if_neg h, if_neg]
    · split
      · rfl
      · next hne =>
        rw [if_neg]
        intro hany
        exact (hbefore hany).elim (fun he => hne (by simp [he])) h
    · cases hd : after.head? with
      | none => simp
      | some d => simpa [delayTimeMatches, hd] using h

end

/-! ## Values -/

/-- The stencil between `lower` and `next`: one neighbour on each side, at a different time. -/
def stencilAround (previous : Option (DelayPoint K)) (lower next : DelayPoint K) (after : List (DelayPoint K)) :
    List (DelayPoint K) :=
  (previous.filter fun point => point.time < lower.time).toList ++ [lower, next] ++
    (after.tail.head?.filter fun point => next.time < point.time).toList

theorem stencilAround_cons {b l : DelayPoint K} (h : b.time < l.time) (n : DelayPoint K) (after : List (DelayPoint K)) :
    stencilAround (some b) l n after = b :: stencilAround none l n after := by
  simp [stencilAround, Option.filter_some, h]

theorem stencilAround_same {b l : DelayPoint K} (h : b.time = l.time) (n : DelayPoint K) (after : List (DelayPoint K)) :
    stencilAround (some b) l n after = stencilAround none l n after := by
  simp [stencilAround, Option.filter_some, h]

theorem stencilAround_none (l n : DelayPoint K) (after : List (DelayPoint K)) :
    stencilAround none l n after = [l, n] ∨ ∃ a, n.time < a.time ∧ stencilAround none l n after = [l, n, a] := by
  unfold stencilAround
  cases hafter : after.tail.head?.filter fun point => decide (n.time < point.time) with
  | none => exact .inl rfl
  | some a => exact .inr ⟨a, by simpa using (Option.filter_eq_some_iff.mp hafter).2, rfl⟩

variable [Field K]

/-- The value between `lower` and the sample after it, with the sample `previous` before `lower`. -/
def readBetween (previous : Option (DelayPoint K)) (lower : DelayPoint K) (after : List (DelayPoint K))
    (time currentSource queryTime : K) : K :=
  let next := after.head?.getD ⟨time, currentSource⟩
  if next.time ≤ lower.time then next.value
  else if (stencilAround previous lower next after).length < 3 then
    lower.value + max 0 (min 1 ((queryTime - lower.time) / (next.time - lower.time))) * (next.value - lower.value)
  else interpolate (stencilAround previous lower next after) lower.value queryTime

theorem smoothInterpolation_bracket (before after : List (DelayPoint K)) (lower next : DelayPoint K) (queryTime : K) :
    smoothInterpolation (before ++ lower :: after) (before.length + 1) next queryTime =
      if (stencilAround before.getLast? lower next after).length < 3 then none
      else some (interpolate (stencilAround before.getLast? lower next after) lower.value queryTime) := by
  have hbefore : (if before.length = 0 then none else
      (before ++ lower :: after)[before.length + 1 - 2]?.filter fun point => decide (point.time < lower.time)) =
      before.getLast?.filter fun point => decide (point.time < lower.time) := by
    rcases List.eq_nil_or_concat before with rfl | ⟨front, point, rfl⟩
    · rfl
    · simp
  have hafter : (if before.length + 1 < (before ++ lower :: after).length then
      (before ++ lower :: after)[before.length + 1 + 1]?.filter fun point => decide (next.time < point.time) else none) =
      after.tail.head?.filter fun point => decide (next.time < point.time) := by
    rw [List.getElem?_append_right (by omega)]
    cases after with
    | nil => simp
    | cons p after => cases after <;> simp [Nat.add_assoc]
  unfold smoothInterpolation stencilAround
  simp only [Nat.add_eq_zero_iff, one_ne_zero, and_false, if_false, Nat.add_sub_cancel, List.getElem?_append_right le_rfl,
    Nat.sub_self, List.getElem?_cons_zero] at hbefore ⊢
  rw [hbefore, hafter]

theorem delayedValue_bracket {channel : DelayChannelHistory K} {before after : List (DelayPoint K)}
    {first lower : DelayPoint K} {time delayTime : K} (currentSource : K) (discrete : Bool)
    (hp : activePoints channel = before ++ lower :: after) (hfirst : (before ++ lower :: after).head? = some first)
    (hq : first.time < time - delayTime) (hb : ∀ p ∈ before, p.time ≤ time - delayTime)
    (hl : lower.time ≤ time - delayTime) (ha : ∀ p ∈ after, time - delayTime < p.time)
    (hzero : ¬ (delayTime = 0 ∧ (activePoints channel).getLast?.all (fun point => point.time ≤ time) = true)) :
    delayedValue channel time delayTime currentSource discrete =
      if discrete then lower.value else readBetween before.getLast? lower after time currentSource (time - delayTime) := by
  obtain ⟨rest, hrest⟩ : ∃ rest, before ++ lower :: after = first :: rest := by
    cases hc : before ++ lower :: after with
    | nil => simp [hc] at hfirst
    | cons p rest =>
      rw [hc] at hfirst
      exact ⟨rest, by rw [Option.some.inj hfirst]⟩
  have hlower : (before ++ lower :: after).getD (before.length + 1 - 1) first = lower := by simp
  have hnext : (before ++ lower :: after)[before.length + 1]? = after.head? := by
    rw [List.getElem?_append_right (by omega)]
    cases after <;> simp
  have hjump : (after.head?.any fun point => decide (point.time = lower.time)) = false := by
    cases after with
    | nil => rfl
    | cons p after => simpa using (hl.trans_lt (ha p (by simp))).ne'
  unfold delayedValue
  simp only [if_neg hzero]
  rw [hp, hrest]
  simp only [← hrest]
  rw [if_neg (not_le.mpr hq), partitionPoint_bracket hb hl ha, hlower, hnext, hjump, smoothInterpolation_bracket]
  cases discrete with
  | true => simp
  | false =>
    unfold readBetween
    simp only [Bool.false_eq_true, or_self, if_false]
    split
    · rfl
    · by_cases hlen : (stencilAround before.getLast? lower (after.head?.getD ⟨time, currentSource⟩) after).length < 3
      · simp only [if_pos hlen]
      · simp only [if_neg hlen]

/-! ## One more node -/

section
variable {F : Type} [Field F]

/-- The weight of a node with one more node in the stencil, by how far the new node is off. -/
theorem weight_cons (x w wb : F) {b s u : F} (hbs : b ≠ s) (h : u * wb = w) :
    (x - b) / (s - b) * w - w = -((x - s) / (b - s) * u) * wb := by
  have hsb := sub_ne_zero.mpr hbs
  have hsb' := sub_ne_zero.mpr hbs.symm
  subst h
  field_simp
  ring

theorem weight_mul (x : F) {b s u : F} (h : b ≠ u) : (x - u) / (b - u) * ((b - u) / (s - u)) = (x - u) / (s - u) :=
  div_mul_div_cancel₀ (sub_ne_zero.mpr h)

theorem interpolate_two (l n : DelayPoint F) (x : F) :
    interpolate [l, n] l.value x = l.value + (x - l.time) / (n.time - l.time) * (n.value - l.value) := by
  simp [interpolate]

theorem interpolate_three (b l n : DelayPoint F) (base x : F) :
    interpolate [b, l, n] base x = base +
      ((x - l.time) / (b.time - l.time) * ((x - n.time) / (b.time - n.time)) * (b.value - base) +
        ((x - b.time) / (l.time - b.time) * ((x - n.time) / (l.time - n.time)) * (l.value - base) +
          (x - b.time) / (n.time - b.time) * ((x - l.time) / (n.time - l.time)) * (n.value - base))) := by
  simp [interpolate]

theorem interpolate_four (b l n a : DelayPoint F) (base x : F) :
    interpolate [b, l, n, a] base x = base +
      ((x - l.time) / (b.time - l.time) * ((x - n.time) / (b.time - n.time) * ((x - a.time) / (b.time - a.time))) *
          (b.value - base) +
        ((x - b.time) / (l.time - b.time) * ((x - n.time) / (l.time - n.time) * ((x - a.time) / (l.time - a.time))) *
            (l.value - base) +
          ((x - b.time) / (n.time - b.time) * ((x - l.time) / (n.time - l.time) * ((x - a.time) / (n.time - a.time))) *
              (n.value - base) +
            (x - b.time) / (a.time - b.time) * ((x - l.time) / (a.time - l.time) * ((x - n.time) / (a.time - n.time))) *
              (a.value - base)))) := by
  simp [interpolate]

/-- A third node changes the line by its own weight times its distance from the line. -/
theorem interpolate_line {b l n : DelayPoint F} (hbl : b.time ≠ l.time) (hbn : b.time ≠ n.time) (x : F) :
    interpolate [b, l, n] l.value x - interpolate [l, n] l.value x =
      (x - l.time) / (b.time - l.time) * ((x - n.time) / (b.time - n.time)) *
        (b.value - interpolate [l, n] l.value b.time) := by
  rw [interpolate_two, interpolate_two, interpolate_three]
  have hn := weight_cons x _ ((b.time - l.time) / (n.time - l.time)) hbn (weight_mul x hbl)
  linear_combination (n.value - l.value) * hn

/-- A fourth node changes the parabola by its own weight times its distance from the parabola. -/
theorem interpolate_parabola {b l n a : DelayPoint F} (hbl : b.time ≠ l.time) (hbn : b.time ≠ n.time)
    (hba : b.time ≠ a.time) (x : F) :
    interpolate [b, l, n, a] l.value x - interpolate [l, n, a] l.value x =
      (x - l.time) / (b.time - l.time) * ((x - n.time) / (b.time - n.time) * ((x - a.time) / (b.time - a.time))) *
        (b.value - interpolate [l, n, a] l.value b.time) := by
  rw [interpolate_three, interpolate_three, interpolate_four]
  have hn := weight_cons x _ ((b.time - l.time) / (n.time - l.time) * ((b.time - a.time) / (n.time - a.time))) hbn
    ((mul_mul_mul_comm _ _ _ _).trans (congrArg₂ _ (weight_mul x hbl) (weight_mul x hba)))
  have ha := weight_cons x _ ((b.time - l.time) / (a.time - l.time) * ((b.time - n.time) / (a.time - n.time))) hba
    ((mul_mul_mul_comm _ _ _ _).trans (congrArg₂ _ (weight_mul x hbl) (weight_mul x hbn)))
  linear_combination (n.value - l.value) * hn + (a.value - l.value) * ha

end

section
variable {b l n : DelayPoint K} {after : List (DelayPoint K)} {x : K}

theorem readBetween_cons (hln : l.time < n.time) (previous : Option (DelayPoint K)) (time currentSource : K) :
    readBetween previous l (n :: after) time currentSource x =
      if (stencilAround previous l n (n :: after)).length < 3 then
        l.value + max 0 (min 1 ((x - l.time) / (n.time - l.time))) * (n.value - l.value)
      else interpolate (stencilAround previous l n (n :: after)) l.value x :=
  if_neg (not_le.mpr hln)

theorem readBetween_neighbour (hbl : b.time < l.time) (hlx : l.time < x) (hxn : x < n.time) (time currentSource : K) :
    readBetween (some b) l (n :: after) time currentSource x =
      interpolate (b :: stencilAround none l n (n :: after)) l.value x := by
  rw [readBetween_cons (hlx.trans hxn), stencilAround_cons hbl]
  obtain h | ⟨a, -, h⟩ := stencilAround_none l n (n :: after)
  · exact if_neg (by simp [h])
  · exact if_neg (by simp [h])

variable [IsStrictOrderedRing K]

theorem readBetween_first (hlx : l.time < x) (hxn : x < n.time) (time currentSource : K) :
    readBetween none l (n :: after) time currentSource x =
      interpolate (stencilAround none l n (n :: after)) l.value x := by
  rw [readBetween_cons (hlx.trans hxn)]
  obtain h | ⟨a, -, h⟩ := stencilAround_none l n (n :: after)
  · have hpos : 0 < n.time - l.time := sub_pos.mpr (hlx.trans hxn)
    have h0 : 0 ≤ (x - l.time) / (n.time - l.time) := div_nonneg (sub_nonneg.mpr hlx.le) hpos.le
    have h1 : (x - l.time) / (n.time - l.time) ≤ 1 := (div_le_one hpos).mpr (sub_le_sub_right hxn.le _)
    rw [if_pos (by simp [h]), h, interpolate_two, min_eq_right h1, max_eq_right h0]
  · exact if_neg (by simp [h])

/-- Inside the first interval a dropped neighbour is not missed exactly when it lies on the curve through the rest. -/
theorem readBetween_none_iff (hbl : b.time ≤ l.time) (hlx : l.time < x) (hxn : x < n.time) (time currentSource : K) :
    readBetween none l (n :: after) time currentSource x = readBetween (some b) l (n :: after) time currentSource x ↔
      b.time = l.time ∨ interpolate (stencilAround none l n (n :: after)) l.value b.time = b.value := by
  obtain heq | hbl := hbl.eq_or_lt
  · rw [readBetween_cons (hlx.trans hxn), readBetween_cons (hlx.trans hxn), stencilAround_same heq]
    simp [heq]
  rw [readBetween_first hlx hxn, readBetween_neighbour hbl hlx hxn, or_iff_right hbl.ne, eq_comm, ← sub_eq_zero,
    eq_comm (b := b.value), ← sub_eq_zero (a := b.value)]
  have hbn := hbl.trans (hlx.trans hxn)
  have weight_ne {s : K} (hs : x ≠ s) (hb : b.time < s) : (x - s) / (b.time - s) ≠ 0 :=
    div_ne_zero (sub_ne_zero.mpr hs) (sub_ne_zero.mpr hb.ne)
  obtain h | ⟨a, hna, h⟩ := stencilAround_none l n (n :: after)
  · rw [h, interpolate_line hbl.ne hbn.ne, mul_eq_zero,
      or_iff_right (mul_ne_zero (weight_ne hlx.ne' hbl) (weight_ne hxn.ne hbn))]
  · have hba := hbn.trans hna
    rw [h, interpolate_parabola hbl.ne hbn.ne hba.ne, mul_eq_zero,
      or_iff_right (mul_ne_zero (weight_ne hlx.ne' hbl)
        (mul_ne_zero (weight_ne hxn.ne hbn) (weight_ne (hxn.trans hna).ne hba)))]

end

/-! ## Roots -/

section
variable {channel : DelayChannelHistory K} {before after : List K} {queryTime : K}

theorem discreteDelayRoot_cut (hc : activeDiscontinuities channel = before ++ after)
    (hb : ∀ d ∈ before, d < queryTime) (ha : ∀ d ∈ after, queryTime ≤ d) (hne : before ++ after ≠ []) :
    discreteDelayRoot channel queryTime =
      if after.head? = some queryTime then
        match channel.suppressedDiscontinuity.filter fun suppressed => suppressed.sourceTime = queryTime with
        | some suppressed => delayRootIntervalSign channel (before.length + suppressed.rightSide.toNat)
        | none => 0
      else
        delayRootIntervalSign channel before.length *
          nearest (before.getLast?.map (queryTime - ·)) (after.head?.map (· - queryTime)) := by
  have hafter : (before ++ after)[before.length]? = after.head? := by
    rw [List.getElem?_append_right le_rfl, Nat.sub_self, List.head?_eq_getElem?]
  have hbefore : (if before.length = 0 then none else (before ++ after)[before.length - 1]?.map (queryTime - ·)) =
      before.getLast?.map (queryTime - ·) := by
    rcases List.eq_nil_or_concat before with rfl | ⟨front, d, rfl⟩
    · rfl
    · simp
  unfold discreteDelayRoot
  rw [hc, if_neg hne, matchingDiscontinuityIndex_cut hc hb ha]
  by_cases h : after.head? = some queryTime
  · simp only [h, if_true, hafter]
    cases hs : channel.suppressedDiscontinuity with
    | none => rfl
    | some suppressed =>
      by_cases hm : suppressed.sourceTime = queryTime
      · simp [hm, delayTimeMatches, Option.filter_some]
      · simp [hm, delayTimeMatches, Option.filter_some]
  · simp only [h, if_false, partitionPoint_cut hb ha, hafter, hbefore]

theorem nearest_pos [IsStrictOrderedRing K] (hb : ∀ d ∈ before, d < queryTime) (ha : ∀ d ∈ after, queryTime ≤ d)
    (hne : before ++ after ≠ []) (hq : after.head? ≠ some queryTime) :
    0 < nearest (before.getLast?.map (queryTime - ·)) (after.head?.map (· - queryTime)) := by
  have hleft : ∀ d ∈ before.getLast?, 0 < queryTime - d := fun d hd => sub_pos.mpr (hb d (List.mem_of_getLast? hd))
  have hright : ∀ d ∈ after.head?, 0 < d - queryTime := fun d hd =>
    sub_pos.mpr ((ha d (List.mem_of_mem_head? hd)).lt_of_ne fun he => hq (he ▸ hd))
  cases hl : before.getLast? with
  | none =>
    cases hr : after.head? with
    | none => simp_all
    | some r => exact hright r hr
  | some l =>
    cases hr : after.head? with
    | none => exact hleft l hl
    | some r => exact lt_min (hleft l hl) (hright r hr)

theorem sign_discreteDelayRoot_cut [IsStrictOrderedRing K] (hc : activeDiscontinuities channel = before ++ after)
    (hb : ∀ d ∈ before, d < queryTime) (ha : ∀ d ∈ after, queryTime ≤ d) (hne : before ++ after ≠ []) :
    SignType.sign (discreteDelayRoot channel queryTime) =
      if after.head? = some queryTime then
        ((channel.suppressedDiscontinuity.filter fun suppressed => suppressed.sourceTime = queryTime).map fun suppressed =>
          SignType.sign (delayRootIntervalSign channel (before.length + suppressed.rightSide.toNat))).getD 0
      else SignType.sign (delayRootIntervalSign channel before.length) := by
  rw [discreteDelayRoot_cut hc hb ha hne]
  by_cases hq : after.head? = some queryTime
  · rw [if_pos hq, if_pos hq]
    cases channel.suppressedDiscontinuity.filter fun suppressed => decide (suppressed.sourceTime = queryTime) with
    | none => exact sign_zero
    | some suppressed => rfl
  · rw [if_neg hq, if_neg hq, sign_mul, sign_pos (nearest_pos hb ha hne hq), mul_one]

end

end Rumoca.Solver
