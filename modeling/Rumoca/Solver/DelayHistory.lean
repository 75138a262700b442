import Rumoca.Solver.DelayReading
/-!
# Histories that lose a prefix

A running channel and the same channel that never prunes differ by a consumed
prefix of samples and of jumps. Every operation keeps that, so it holds along any
run, and what the two read can be compared.
-/

namespace Rumoca.Solver

open Rumoca.Lib

/-! ## What the operations do to the active parts -/

theorem drop_compactConsumedPrefix {α : Type} (values : List α) (head : Nat) :
    (compactConsumedPrefix values head).1.drop (compactConsumedPrefix values head).2 = values.drop head := by
  unfold compactConsumedPrefix
  split <;> simp

theorem compactConsumedPrefix_head {α : Type} {values : List α} {head : Nat} (h : head ≤ values.length) :
    (compactConsumedPrefix values head).2 ≤ (compactConsumedPrefix values head).1.length := by
  unfold compactConsumedPrefix
  split
  · exact h
  · exact Nat.zero_le _

section
variable {K : Type} {channel : DelayChannelHistory K}

theorem activePoints_push (h : activePoints channel ≠ []) (points : List (DelayPoint K)) :
    activePoints { channel with points := channel.points ++ points } = activePoints channel ++ points := by
  have hlen : channel.pointsHead ≤ channel.points.length := by
    by_contra hlt
    exact h (List.drop_eq_nil_of_le (by omega))
  exact List.drop_append_of_le_length hlen

theorem activeDiscontinuities_push (h : channel.discontinuityHead ≤ channel.discontinuityTimes.length) (times : List K) :
    activeDiscontinuities { channel with discontinuityTimes := channel.discontinuityTimes ++ times } =
      activeDiscontinuities channel ++ times :=
  List.drop_append_of_le_length h

variable [LinearOrder K]

/-- The samples a commit appends after `last`. -/
def acceptedPoints (last : DelayPoint K) (time value : K) : List (DelayPoint K) :=
  if time = last.time ∧ value = last.value then [] else [⟨time, value⟩]

/-- Whether a sample after `last` is a discontinuity. -/
def isJump (last : DelayPoint K) (time value : K) (discrete : Bool) : Bool :=
  value ≠ last.value ∧ (time = last.time ∨ discrete = true)

theorem appendAcceptedPoint_eq {last : DelayPoint K} {time : K} (hl : (activePoints channel).getLast? = some last)
    (ht : last.time ≤ time) (value : K) (discrete : Bool) :
    appendAcceptedPoint channel time value discrete =
      ({ channel with points := channel.points ++ acceptedPoints last time value }, isJump last time value discrete) := by
  unfold appendAcceptedPoint acceptedPoints isJump
  rw [hl]
  simp only [if_neg ht.not_gt]
  by_cases he : time = last.time
  · by_cases hv : value = last.value
    · simp [he, hv]
    · simp [he, hv]
  · cases discrete <;> simp [he]

def newJump (discontinuities : List K) (time : K) : List K := if time ∈ discontinuities then [] else [time]

theorem insertDiscontinuityTime_eq {time : K} (hs : (activeDiscontinuities channel).Pairwise (· < ·))
    (hle : ∀ d ∈ activeDiscontinuities channel, d ≤ time)
    (hh : channel.discontinuityHead ≤ channel.discontinuityTimes.length) :
    insertDiscontinuityTime channel time =
      { channel with
        discontinuityTimes := channel.discontinuityTimes ++ newJump (activeDiscontinuities channel) time } := by
  obtain ⟨before, after, hc, hb, ha⟩ := exists_cut hs time
  have hcut : partitionPoint (fun d => decide (d < time)) (activeDiscontinuities channel) = before.length := by
    rw [hc]
    exact partitionPoint_cut hb ha
  have hafter : (activeDiscontinuities channel)[before.length]? = after.head? := by
    rw [hc, List.getElem?_append_right le_rfl, Nat.sub_self, List.head?_eq_getElem?]
  unfold insertDiscontinuityTime newJump
  simp only [hcut, hafter]
  cases after with
  | cons d after =>
    have hd : d = time := le_antisymm (hle d (by simp [hc])) (ha d (by simp))
    subst hd
    simp [hc]
  | nil =>
    rw [List.append_nil] at hc
    have hmem : time ∉ activeDiscontinuities channel := fun hm => (hb time (hc ▸ hm)).false
    have hprev : ¬ (before.length ≠ 0 ∧
        ((activeDiscontinuities channel)[before.length - 1]?.any fun d => delayTimeMatches d time) = true) := by
      rintro ⟨hne, hany⟩
      rw [hc] at hany
      rcases List.eq_nil_or_concat before with rfl | ⟨front, d, rfl⟩
      · exact hne rfl
      · have := hb d (by simp)
        simp [delayTimeMatches, this.ne] at hany
    have hlen : channel.discontinuityHead + before.length = channel.discontinuityTimes.length := by
      rw [← hc, activeDiscontinuities, List.length_drop]
      omega
    rw [if_neg (by simp), if_neg (by simpa using hprev), if_neg hmem, hlen, List.insertIdx_length_self]

theorem updateSuppressedDiscontinuity_eq (hs : (activeDiscontinuities channel).Pairwise (· < ·)) (queryTime : K) :
    updateSuppressedDiscontinuity channel queryTime =
      { channel with
        suppressedDiscontinuity :=
          if queryTime ∈ activeDiscontinuities channel then some ⟨queryTime, suppressedSide channel queryTime queryTime⟩
          else none
        acceptedQueryTime := queryTime } := by
  obtain ⟨before, after, hc, hb, ha⟩ := exists_cut hs queryTime
  have hafter : (activeDiscontinuities channel)[before.length]? = after.head? := by
    rw [hc, List.getElem?_append_right le_rfl, Nat.sub_self, List.head?_eq_getElem?]
  have hmem : queryTime ∈ activeDiscontinuities channel ↔ after.head? = some queryTime := by
    rw [hc, List.mem_append]
    constructor
    · rintro (h | h)
      · exact absurd (hb _ h) (lt_irrefl _)
      · cases after with
        | nil => cases h
        | cons d after =>
          rw [hc] at hs
          obtain rfl | h := List.mem_cons.mp h
          · rfl
          · exact absurd (List.rel_of_pairwise_cons (List.pairwise_append.mp hs).2.1 h) (ha d (by simp)).not_gt
    · exact fun h => .inr (List.mem_of_mem_head? h)
  unfold updateSuppressedDiscontinuity
  rw [matchingDiscontinuityIndex_cut hc hb ha]
  by_cases h : after.head? = some queryTime
  · rw [if_pos h, if_pos (hmem.mpr h), Option.bind_some, hafter, h]
    rfl
  · rw [if_neg h, if_neg (mt hmem.mp h)]
    rfl

theorem newJump_sorted {discontinuities : List K} {time : K} (hs : discontinuities.Pairwise (· < ·))
    (hle : ∀ d ∈ discontinuities, d ≤ time) : (discontinuities ++ newJump discontinuities time).Pairwise (· < ·) := by
  unfold newJump
  split
  · simpa using hs
  · next hmem =>
    refine List.pairwise_append.mpr ⟨hs, List.pairwise_singleton _ _, fun d hd e he => ?_⟩
    obtain rfl := List.mem_singleton.mp he
    exact (hle d hd).lt_of_ne fun he => hmem (he ▸ hd)

def recordedJumps (channel : DelayChannelHistory K) (last : DelayPoint K) (time : K) (row : DelayRow K)
    (discrete : Bool) : List K :=
  if isJump last time row.source discrete then newJump (activeDiscontinuities channel) time else []

theorem recordedJumps_sorted {time : K} (hs : (activeDiscontinuities channel).Pairwise (· < ·))
    (hle : ∀ d ∈ activeDiscontinuities channel, d ≤ time) (last : DelayPoint K) (row : DelayRow K) (discrete : Bool) :
    (activeDiscontinuities channel ++ recordedJumps channel last time row discrete).Pairwise (· < ·) := by
  unfold recordedJumps
  split
  · exact newJump_sorted hs hle
  · simpa using hs

/-! ## What pruning does to the active parts -/

theorem prunePoints_eq (channel : DelayChannelHistory K) (keepAfter : K) : prunePoints channel keepAfter =
    { channel with
      points := (prunePoints channel keepAfter).points
      pointsHead := (prunePoints channel keepAfter).pointsHead } := by
  unfold prunePoints
  dsimp only
  split <;> rfl

theorem activePoints_prunePoints (channel : DelayChannelHistory K) (keepAfter : K) :
    activePoints (prunePoints channel keepAfter) =
      (activePoints channel).drop
        (partitionPoint (fun point => decide (point.time < keepAfter)) (activePoints channel) - 1) := by
  unfold prunePoints
  dsimp only
  split
  · exact (drop_compactConsumedPrefix _ _).trans (List.drop_drop ..).symm
  · next h => rw [Nat.eq_zero_of_not_pos h, List.drop_zero]

theorem pruneDiscontinuities_eq (channel : DelayChannelHistory K) (keepAfter : K) :
    pruneDiscontinuities channel keepAfter =
      { channel with
        discontinuityTimes := (pruneDiscontinuities channel keepAfter).discontinuityTimes
        discontinuityHead := (pruneDiscontinuities channel keepAfter).discontinuityHead
        prunedDiscontinuityParity := (pruneDiscontinuities channel keepAfter).prunedDiscontinuityParity
        suppressedDiscontinuity := (pruneDiscontinuities channel keepAfter).suppressedDiscontinuity } := by
  unfold pruneDiscontinuities
  dsimp only
  split
  · split <;> rfl
  · rfl

def isGone (suppressed : Option (SuppressedDiscontinuity K)) (kept : List K) : Bool :=
  suppressed.any fun suppressed => kept.head?.all fun first => suppressed.sourceTime < first

theorem pruneDiscontinuities_cut {before after : List K} {keepAfter : K}
    (hc : activeDiscontinuities channel = before ++ after) (hb : ∀ d ∈ before, d < keepAfter)
    (ha : ∀ d ∈ after, keepAfter ≤ d) (hh : channel.discontinuityHead ≤ channel.discontinuityTimes.length) :
    activeDiscontinuities (pruneDiscontinuities channel keepAfter) = after ∧
      (pruneDiscontinuities channel keepAfter).prunedDiscontinuityParity =
        (channel.prunedDiscontinuityParity ^^ decide (before.length % 2 = 1)) ∧
      (pruneDiscontinuities channel keepAfter).discontinuityHead ≤
        (pruneDiscontinuities channel keepAfter).discontinuityTimes.length ∧
      (pruneDiscontinuities channel keepAfter).suppressedDiscontinuity =
        if before ≠ [] ∧ isGone channel.suppressedDiscontinuity after = true then none
        else channel.suppressedDiscontinuity := by
  have hcut : partitionPoint (fun d => decide (d < keepAfter ∧ ¬ delayTimeMatches d keepAfter))
      (activeDiscontinuities channel) = before.length := by
    rw [hc, partitionPoint_append, partitionPoint_of_not, Nat.add_zero]
    · intro d hd
      simp [(ha d (List.mem_of_mem_head? hd)).not_gt]
    · intro d hd
      simp [delayTimeMatches, hb d hd, (hb d hd).ne]
  have hlen : channel.discontinuityHead + before.length ≤ channel.discontinuityTimes.length := by
    have := congrArg List.length hc
    rw [activeDiscontinuities, List.length_drop, List.length_append] at this
    omega
  have hactive : activeDiscontinuities (consumeDiscontinuities channel before.length) = after := by
    refine (drop_compactConsumedPrefix _ _).trans ((List.drop_drop ..).symm.trans ?_)
    exact (congrArg (List.drop before.length) hc).trans (List.drop_left ..)
  have hprune : pruneDiscontinuities channel keepAfter = if before = [] then channel else
      { consumeDiscontinuities channel before.length with
        suppressedDiscontinuity :=
          if isGone channel.suppressedDiscontinuity after = true then none else channel.suppressedDiscontinuity } := by
    unfold pruneDiscontinuities
    simp only [hcut, hactive, List.length_pos_iff, ne_eq, ite_not]
    split
    · rfl
    · change (if isGone channel.suppressedDiscontinuity after = true then _ else _) = _
      split <;> rfl
  rw [hprune]
  by_cases hbefore : before = []
  · subst hbefore
    simp [hc, hh]
  · rw [if_neg hbefore]
    refine ⟨hactive, ?_, compactConsumedPrefix_head hlen, by simp [hbefore]⟩
    by_cases hodd : before.length % 2 = 1 <;> simp [consumeDiscontinuities, hodd]

/-! ## The two histories -/

/-- What holds of a running history that never pruned, whose last accepted time is `last`. -/
structure Recorded (last : K) (channel : DelayChannelHistory K) : Prop where
  sorted : (activePoints channel).Pairwise fun a b => a.time ≤ b.time
  jumps : (activePoints channel).IsChain fun a b => a.time = b.time → a.value ≠ b.value
  ends : ∃ point, (activePoints channel).getLast? = some point ∧ point.time = last
  increasing : (activeDiscontinuities channel).Pairwise (· < ·)
  accepted : ∀ d ∈ activeDiscontinuities channel, d ≤ last
  head : channel.discontinuityHead ≤ channel.discontinuityTimes.length
  parity : channel.prunedDiscontinuityParity = false
  suppressed : ∀ suppressed ∈ channel.suppressedDiscontinuity, suppressed.sourceTime ∈ activeDiscontinuities channel

/-- The suppressed jump, if it lies at `time`. -/
def suppressedAt (channel : DelayChannelHistory K) (time : K) : Option (SuppressedDiscontinuity K) :=
  channel.suppressedDiscontinuity.filter fun suppressed => suppressed.sourceTime = time

/-- `pruned` lost a prefix of samples and of jumps that `full` has; what was lost lies before `bound`. -/
structure Dropped (bound : K) (full pruned : DelayChannelHistory K) : Prop where
  nonempty : activePoints pruned ≠ []
  points : ∃ consumed, activePoints full = consumed ++ activePoints pruned ∧
    (consumed ≠ [] → ∃ first second rest, activePoints pruned = first :: second :: rest ∧ first.time < bound)
  discontinuities : ∃ consumed, activeDiscontinuities full = consumed ++ activeDiscontinuities pruned ∧
    (∀ d ∈ consumed, d < bound) ∧ pruned.prunedDiscontinuityParity = decide (consumed.length % 2 = 1)
  head : pruned.discontinuityHead ≤ pruned.discontinuityTimes.length
  acceptedQueryTime : pruned.acceptedQueryTime = full.acceptedQueryTime
  suppressed : ∀ d, bound ≤ d → suppressedAt pruned d = suppressedAt full d

theorem Dropped.mono {bound bound' : K} {full pruned : DelayChannelHistory K} (h : Dropped bound full pruned)
    (hb : bound ≤ bound') : Dropped bound' full pruned where
  nonempty := h.nonempty
  points := by
    obtain ⟨consumed, heq, hc⟩ := h.points
    refine ⟨consumed, heq, fun hne => ?_⟩
    obtain ⟨first, second, rest, hp, hf⟩ := hc hne
    exact ⟨first, second, rest, hp, hf.trans_le hb⟩
  discontinuities := by
    obtain ⟨consumed, heq, hc, hparity⟩ := h.discontinuities
    exact ⟨consumed, heq, fun d hd => (hc d hd).trans_le hb, hparity⟩
  head := h.head
  acceptedQueryTime := h.acceptedQueryTime
  suppressed d hd := h.suppressed d (hb.trans hd)

theorem Dropped.refl {last : K} {channel : DelayChannelHistory K} (h : Recorded last channel) (bound : K) :
    Dropped bound channel channel where
  nonempty := by
    obtain ⟨point, hp, -⟩ := h.ends
    rintro he
    simp [he] at hp
  points := ⟨[], rfl, fun hne => (hne rfl).elim⟩
  discontinuities := ⟨[], rfl, by simp, h.parity⟩
  head := h.head
  acceptedQueryTime := rfl
  suppressed _ _ := rfl

theorem Dropped.getLast_eq {bound : K} {full pruned : DelayChannelHistory K} (h : Dropped bound full pruned) :
    (activePoints full).getLast? = (activePoints pruned).getLast? := by
  obtain ⟨consumed, heq, -⟩ := h.points
  rw [heq, List.getLast?_append_of_ne_nil _ h.nonempty]

theorem Dropped.push {bound : K} {full pruned : DelayChannelHistory K} (h : Dropped bound full pruned)
    (points : List (DelayPoint K)) :
    Dropped bound { full with points := full.points ++ points } { pruned with points := pruned.points ++ points } := by
  obtain ⟨consumed, heq, hc⟩ := h.points
  have hne : activePoints full ≠ [] := by
    rw [heq]
    simp [h.nonempty]
  refine ⟨?_, ⟨consumed, ?_, fun hcons => ?_⟩, h.discontinuities, h.head, h.acceptedQueryTime, h.suppressed⟩
  · rw [activePoints_push h.nonempty]
    simp [h.nonempty]
  · rw [activePoints_push h.nonempty, activePoints_push hne, heq, List.append_assoc]
  · obtain ⟨first, second, rest, hp, hf⟩ := hc hcons
    rw [activePoints_push h.nonempty, hp]
    exact ⟨first, second, rest ++ points, rfl, hf⟩

theorem acceptedPoints_append {points : List (DelayPoint K)} {point : DelayPoint K} {time : K}
    (hs : points.Pairwise fun a b => a.time ≤ b.time)
    (hj : points.IsChain fun a b => a.time = b.time → a.value ≠ b.value) (hl : points.getLast? = some point)
    (ht : point.time ≤ time) (value : K) :
    ((points ++ acceptedPoints point time value).Pairwise fun a b => a.time ≤ b.time) ∧
      ((points ++ acceptedPoints point time value).IsChain fun a b => a.time = b.time → a.value ≠ b.value) ∧
      ∃ last, (points ++ acceptedPoints point time value).getLast? = some last ∧ last.time = time := by
  unfold acceptedPoints
  split
  · next h =>
    rw [List.append_nil]
    exact ⟨hs, hj, point, hl, h.1.symm⟩
  · next h =>
    obtain ⟨front, rfl⟩ := List.getLast?_eq_some_iff.mp hl
    refine ⟨List.pairwise_append.mpr ⟨hs, List.pairwise_singleton _ _, fun a ha b hb => ?_⟩,
      List.isChain_append.mpr ⟨hj, List.isChain_singleton _, fun a ha b hb heq hv => ?_⟩, ⟨time, value⟩, by simp, rfl⟩
    · obtain rfl := List.mem_singleton.mp hb
      obtain ha | ha := List.mem_append.mp ha
      · exact ((List.pairwise_append.mp hs).2.2 a ha point (by simp)).trans ht
      · obtain rfl := List.mem_singleton.mp ha
        exact ht
    · rw [List.getLast?_concat] at ha
      obtain rfl := Option.some.inj ha
      obtain rfl := Option.some.inj hb
      exact h ⟨heq.symm, hv.symm⟩

theorem Recorded.push {last time : K} {channel : DelayChannelHistory K} {point : DelayPoint K} (h : Recorded last channel)
    (hl : (activePoints channel).getLast? = some point) (ht : last ≤ time) (value : K) :
    Recorded time { channel with points := channel.points ++ acceptedPoints point time value } := by
  have hpoint : point.time = last := by
    obtain ⟨p, hp, rfl⟩ := h.ends
    rw [Option.some.inj (hl.symm.trans hp)]
  have hne : activePoints channel ≠ [] := by
    rintro he
    simp [he] at hl
  obtain ⟨hs, hj, hends⟩ := acceptedPoints_append h.sorted h.jumps hl (hpoint.trans_le ht) value
  rw [← activePoints_push hne] at hs hj hends
  exact ⟨hs, hj, hends, h.increasing, fun d hd => (h.accepted d hd).trans ht, h.head, h.parity, h.suppressed⟩

theorem suppressedSide_congr {full pruned : DelayChannelHistory K} {queryTime : K}
    (ha : pruned.acceptedQueryTime = full.acceptedQueryTime)
    (hs : suppressedAt pruned queryTime = suppressedAt full queryTime) :
    suppressedSide pruned queryTime queryTime = suppressedSide full queryTime queryTime := by
  unfold suppressedAt at hs
  unfold suppressedSide delayTimeMatches
  simp only [ha, hs]

theorem exists_kept {points : List (DelayPoint K)} {point : DelayPoint K} {bound : K}
    (hl : points.getLast? = some point) (hb : bound ≤ point.time) :
    ∃ before kept rest, points = before ++ kept :: rest ∧ (∀ p ∈ before, p.time < bound) ∧
      partitionPoint (fun p : DelayPoint K => decide (p.time < bound)) points = before.length := by
  induction points with
  | nil => cases hl
  | cons p points ih =>
    by_cases hp : p.time < bound
    · cases points with
      | nil =>
        obtain rfl := Option.some.inj hl
        exact absurd hp hb.not_gt
      | cons q points =>
        obtain ⟨before, kept, rest, heq, hbefore, hcut⟩ := ih (List.getLast?_cons_cons ▸ hl)
        refine ⟨p :: before, kept, rest, by rw [heq]; rfl, by simpa [hp] using hbefore, ?_⟩
        unfold partitionPoint at hcut ⊢
        rw [List.takeWhile_cons_of_pos (by simpa using hp), List.length_cons, hcut, List.length_cons]
    · exact ⟨[], p, points, rfl, by simp, partitionPoint_of_not (by simpa using hp)⟩

theorem Dropped.prunePoints {bound last : K} {full pruned : DelayChannelHistory K} (h : Dropped bound full pruned)
    (hf : Recorded last full) (hb : bound ≤ last) : Dropped bound full (prunePoints pruned bound) := by
  obtain ⟨point, hl, rfl⟩ := hf.ends
  obtain ⟨consumed, heq, hc⟩ := h.points
  obtain ⟨before, second, rest, hsplit, hbefore, hcut⟩ := exists_kept (h.getLast_eq ▸ hl) hb
  have hpoints := activePoints_prunePoints pruned bound
  rw [hcut] at hpoints
  rw [prunePoints_eq]
  rcases List.eq_nil_or_concat before with rfl | ⟨front, first, rfl⟩
  · rw [List.length_nil, Nat.zero_sub, List.drop_zero] at hpoints
    exact ⟨fun he => h.nonempty (hpoints ▸ he), ⟨consumed, heq.trans (congrArg _ hpoints.symm), hpoints ▸ hc⟩,
      h.discontinuities, h.head, h.acceptedQueryTime, h.suppressed⟩
  · -- what stays starts with the last sample before `bound`
    rw [List.concat_eq_append] at hsplit hbefore hpoints
    have hkept : activePoints (Solver.prunePoints pruned bound) = first :: second :: rest := by
      rw [hpoints, hsplit]
      simp
    have hfirst : first.time < bound := hbefore first (by simp)
    refine ⟨fun he => ?_, ⟨consumed ++ front, ?_, fun _ => ⟨first, second, rest, hkept, hfirst⟩⟩, h.discontinuities,
      h.head, h.acceptedQueryTime, h.suppressed⟩
    · exact List.cons_ne_nil _ _ (hkept.symm.trans he)
    · exact heq.trans (by rw [hsplit, List.append_assoc, List.append_assoc]; exact congrArg _ (congrArg _ hkept.symm))

theorem odd_add (m n : Nat) : (decide (m % 2 = 1) ^^ decide (n % 2 = 1)) = decide ((m + n) % 2 = 1) := by
  by_cases hm : m % 2 = 1 <;> by_cases hn : n % 2 = 1 <;> simp [hm, hn] <;> omega

theorem Dropped.pruneDiscontinuities {bound last : K} {full pruned : DelayChannelHistory K}
    (h : Dropped bound full pruned) (hf : Recorded last full) :
    Dropped bound full (pruneDiscontinuities pruned bound) := by
  obtain ⟨consumed, heq, hc, hparity⟩ := h.discontinuities
  have hincreasing := hf.increasing
  rw [heq] at hincreasing
  obtain ⟨before, after, hcut, hbefore, hafter⟩ := exists_cut (List.pairwise_append.mp hincreasing).2.1 bound
  obtain ⟨hactive, hparity', hhead, hsupp⟩ := pruneDiscontinuities_cut hcut hbefore hafter h.head
  rw [pruneDiscontinuities_eq]
  refine ⟨h.nonempty, h.points, ⟨consumed ++ before, ?_, ?_, ?_⟩, hhead, h.acceptedQueryTime, ?_⟩
  · exact heq.trans (by rw [hcut, List.append_assoc]; exact congrArg _ (congrArg _ hactive.symm))
  · intro d hd
    exact (List.mem_append.mp hd).elim (hc d) (hbefore d)
  · rw [List.length_append]
    exact hparity'.trans (hparity ▸ odd_add _ _)
  · intro d hd
    rw [← h.suppressed d hd]
    unfold suppressedAt
    rw [hsupp]
    split
    · -- a suppressed jump from `bound` on is kept, so it is not gone
      next hgone =>
      rw [Option.filter_none, eq_comm, Option.filter_eq_none_iff]
      intro suppressed hs hd'
      have hfull : suppressedAt full d = some suppressed := by
        rw [← h.suppressed d hd]
        exact Option.filter_eq_some_iff.mpr ⟨hs, hd'⟩
      have hmem := hf.suppressed suppressed (Option.filter_eq_some_iff.mp hfull).1
      rw [of_decide_eq_true hd', heq, hcut, List.mem_append, List.mem_append,
        or_iff_right (fun hm => (hc d hm).not_ge hd), or_iff_right (fun hm => (hbefore d hm).not_ge hd)] at hmem
      cases after with
      | nil => cases hmem
      | cons e after =>
        rw [hcut] at hincreasing
        have hle : e ≤ d := by
          obtain rfl | hm := List.mem_cons.mp hmem
          · exact le_rfl
          · exact (List.rel_of_pairwise_cons (List.pairwise_append.mp (List.pairwise_append.mp hincreasing).2.1).2.1 hm).le
        have hgone' := hgone.2
        rw [isGone, hs, Option.any_some, List.head?_cons, Option.all_some, of_decide_eq_true hd'] at hgone'
        exact absurd (of_decide_eq_true hgone') hle.not_gt
    · rfl

/-! ## A commit -/

theorem mem_recordedJumps {last : DelayPoint K} {time d : K} {row : DelayRow K} {discrete : Bool}
    (h : d ∈ recordedJumps channel last time row discrete) : d = time := by
  unfold recordedJumps newJump at h
  split at h
  · split at h
    · cases h
    · exact List.mem_singleton.mp h
  · cases h

variable [Field K]

theorem recordAccepted_eq {last : DelayPoint K} {time : K} (hl : (activePoints channel).getLast? = some last)
    (ht : last.time ≤ time) (hs : (activeDiscontinuities channel).Pairwise (· < ·))
    (hle : ∀ d ∈ activeDiscontinuities channel, d ≤ time)
    (hh : channel.discontinuityHead ≤ channel.discontinuityTimes.length) (row : DelayRow K) (discrete : Bool) :
    recordAccepted channel time row discrete =
      { channel with
        points := channel.points ++ acceptedPoints last time row.source
        delayTime := row.delayTime
        delayMax := row.delayMax
        acceptedQueryTime := time - row.delayTime
        discontinuityTimes := channel.discontinuityTimes ++ recordedJumps channel last time row discrete
        suppressedDiscontinuity :=
          if time - row.delayTime ∈ activeDiscontinuities channel ++ recordedJumps channel last time row discrete then
            some ⟨time - row.delayTime, suppressedSide channel (time - row.delayTime) (time - row.delayTime)⟩
          else none } := by
  have hl' : (activePoints { channel with delayTime := row.delayTime, delayMax := row.delayMax }).getLast? = some last := hl
  have happend := appendAcceptedPoint_eq hl' ht row.source discrete
  have hs' : (activeDiscontinuities { channel with
      points := channel.points ++ acceptedPoints last time row.source
      delayTime := row.delayTime
      delayMax := row.delayMax }).Pairwise (· < ·) := hs
  have hrecord : recordAccepted channel time row discrete =
      updateSuppressedDiscontinuity
        { channel with
          points := channel.points ++ acceptedPoints last time row.source
          delayTime := row.delayTime
          delayMax := row.delayMax
          discontinuityTimes := channel.discontinuityTimes ++ recordedJumps channel last time row discrete }
        (time - row.delayTime) := by
    unfold recordAccepted recordedJumps
    simp only [happend]
    cases isJump last time row.source discrete with
    | false => simp only [Bool.false_eq_true, if_false, List.append_nil]
    | true =>
      simp only [if_true]
      rw [insertDiscontinuityTime_eq hs' hle hh]
      rfl
  have hactive : activeDiscontinuities
      { channel with
        points := channel.points ++ acceptedPoints last time row.source
        delayTime := row.delayTime
        delayMax := row.delayMax
        discontinuityTimes := channel.discontinuityTimes ++ recordedJumps channel last time row discrete } =
      activeDiscontinuities channel ++ recordedJumps channel last time row discrete :=
    activeDiscontinuities_push hh _
  have hsorted := recordedJumps_sorted hs hle last row discrete
  rw [hrecord, updateSuppressedDiscontinuity_eq (hactive ▸ hsorted), hactive]
  rfl

theorem Recorded.record {last time : K} (h : Recorded last channel) (ht : last ≤ time) (row : DelayRow K)
    (discrete : Bool) : Recorded time (recordAccepted channel time row discrete) := by
  obtain ⟨point, hl, hpoint⟩ := h.ends
  have hle : ∀ d ∈ activeDiscontinuities channel, d ≤ time := fun d hd => (h.accepted d hd).trans ht
  have hpush := h.push hl ht row.source
  rw [recordAccepted_eq hl (hpoint.trans_le ht) h.increasing hle h.head]
  have hactive : ∀ jumps : List K, activeDiscontinuities { channel with
      discontinuityTimes := channel.discontinuityTimes ++ jumps } = activeDiscontinuities channel ++ jumps :=
    activeDiscontinuities_push h.head
  refine ⟨hpush.sorted, hpush.jumps, hpush.ends, ?_, ?_, h.head.trans (by simp), h.parity, ?_⟩
  · exact hactive _ ▸ recordedJumps_sorted h.increasing hle point row discrete
  · intro d hd
    obtain hd | hd := List.mem_append.mp (hactive _ ▸ hd)
    · exact hle d hd
    · exact (mem_recordedJumps hd).le
  · intro suppressed hs
    dsimp only at hs
    split at hs
    · next hq =>
      obtain rfl := Option.some.inj hs
      exact hactive _ ▸ hq
    · cases hs

theorem Dropped.record {bound last time : K} {full pruned : DelayChannelHistory K} (h : Dropped bound full pruned)
    (hf : Recorded last full) (ht : last ≤ time) {row : DelayRow K} (hb : bound ≤ time - row.delayTime)
    (hd : time - row.delayTime ≤ time) (discrete : Bool) :
    Dropped bound (recordAccepted full time row discrete) (recordAccepted pruned time row discrete) := by
  obtain ⟨point, hl, hpoint⟩ := hf.ends
  obtain ⟨consumed, heq, hc, hparity⟩ := h.discontinuities
  have hle : ∀ d ∈ activeDiscontinuities full, d ≤ time := fun d hd => (hf.accepted d hd).trans ht
  have hincreasing := hf.increasing
  rw [heq] at hincreasing
  have hle' : ∀ d ∈ activeDiscontinuities pruned, d ≤ time := fun d hd => hle d (by simp [heq, hd])
  -- a time from `bound` on is a jump of one history when it is one of the other
  have hmem : ∀ d, bound ≤ d → (d ∈ activeDiscontinuities full ↔ d ∈ activeDiscontinuities pruned) := by
    intro d hd
    rw [heq, List.mem_append, or_iff_right]
    exact fun hd' => (hc d hd').not_ge hd
  have hjumps : recordedJumps full point time row discrete = recordedJumps pruned point time row discrete := by
    unfold recordedJumps newJump
    simp only [hmem time (hb.trans hd)]
  rw [recordAccepted_eq hl (hpoint.trans_le ht) hf.increasing hle hf.head,
    recordAccepted_eq (h.getLast_eq ▸ hl) (hpoint.trans_le ht) (List.pairwise_append.mp hincreasing).2.1 hle' h.head,
    hjumps]
  have hpush := h.push (acceptedPoints point time row.source)
  refine ⟨hpush.nonempty, hpush.points, ⟨consumed, ?_, hc, hparity⟩, h.head.trans (by simp), rfl, ?_⟩
  · exact (activeDiscontinuities_push hf.head _).trans
      ((congrArg (· ++ _) heq).trans ((List.append_assoc ..).trans
        (congrArg (consumed ++ ·) (activeDiscontinuities_push h.head _).symm)))
  · intro d _
    have hside := suppressedSide_congr h.acceptedQueryTime (h.suppressed _ hb)
    unfold suppressedAt
    simp only [List.mem_append, hmem _ hb, hside]

end

end Rumoca.Solver
