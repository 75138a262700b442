import Mathlib.Algebra.Order.Ring.Rat
import Mathlib.Tactic.NormNum
import Rumoca.Solver.DelayHistory
/-!
# What pruning shows

A read one sample past the start of a pruned history misses its left neighbour, so
it keeps its value only when that neighbour lies on the curve through the samples
that stay. The sign of a root survives unless every jump is consumed, where the
parity of the consumed ones is not read.
-/

namespace Rumoca.Solver

open Rumoca.Lib

section
variable {K : Type} {last bound : K} {full pruned : DelayChannelHistory K}

/-- The last sample that `pruned` lost. -/
def consumedNeighbour (full pruned : DelayChannelHistory K) : Option (DelayPoint K) :=
  ((activePoints full).take ((activePoints full).length - (activePoints pruned).length)).getLast?

theorem consumedNeighbour_eq {consumed : List (DelayPoint K)}
    (h : activePoints full = consumed ++ activePoints pruned) : consumedNeighbour full pruned = consumed.getLast? := by
  unfold consumedNeighbour
  rw [h, List.length_append, Nat.add_sub_cancel, List.take_left]

def ParityKept (pruned : DelayChannelHistory K) : Prop :=
  activeDiscontinuities pruned = [] → pruned.prunedDiscontinuityParity = false

theorem delayRootIntervalSign_add [Field K] {n : Nat} (hp : pruned.prunedDiscontinuityParity = decide (n % 2 = 1))
    (hf : full.prunedDiscontinuityParity = false) (interval : Nat) :
    delayRootIntervalSign pruned interval = delayRootIntervalSign full (n + interval) := by
  unfold delayRootIntervalSign
  rw [hp, hf, odd_add, Bool.false_xor]

variable [LinearOrder K]

theorem Recorded.le_last {channel : DelayChannelHistory K} (h : Recorded last channel) :
    ∀ p ∈ activePoints channel, p.time ≤ last := by
  obtain ⟨point, hl, rfl⟩ := h.ends
  obtain ⟨front, hfront⟩ := List.getLast?_eq_some_iff.mp hl
  have hs := h.sorted
  rw [hfront] at hs ⊢
  intro p hp
  obtain hp | hp := List.mem_append.mp hp
  · exact (List.pairwise_append.mp hs).2.2 p hp point (by simp)
  · obtain rfl := List.mem_singleton.mp hp
    exact le_rfl

variable [Field K]

/-- A query of a continuous channel before the second sample kept has its consumed neighbour on the curve through the
samples kept, or at the time of the first of them. -/
def NeighbourKept (full pruned : DelayChannelHistory K) (queryTime : K) (discrete : Bool) : Prop :=
  discrete = true ∨ ∀ neighbour ∈ consumedNeighbour full pruned, ∀ first second rest,
    activePoints pruned = first :: second :: rest → second.time ≤ queryTime ∨ neighbour.time = first.time ∨
      interpolate (stencilAround none first second (second :: rest)) first.value neighbour.time = neighbour.value

theorem delayedValue_congr (h : activePoints pruned = activePoints full) (time delayTime currentSource : K)
    (discrete : Bool) :
    delayedValue pruned time delayTime currentSource discrete = delayedValue full time delayTime currentSource discrete := by
  unfold delayedValue
  rw [h]

variable [IsStrictOrderedRing K]

theorem delayedValue_iff (h : Dropped bound full pruned) (hf : Recorded last full) {time delayTime : K} (ht : last ≤ time)
    (hq : bound ≤ time - delayTime) (currentSource : K) (discrete : Bool) :
    delayedValue pruned time delayTime currentSource discrete = delayedValue full time delayTime currentSource discrete ↔
      NeighbourKept full pruned (time - delayTime) discrete := by
  obtain ⟨consumed, heq, hc⟩ := h.points
  have hneighbour := consumedNeighbour_eq heq
  by_cases hcons : consumed = []
  · subst hcons
    refine iff_of_true (delayedValue_congr heq.symm _ _ _ _) (.inr ?_)
    simp [hneighbour]
  obtain ⟨first, second, rest, hpruned, hfirst⟩ := hc hcons
  have hsorted := hf.sorted
  rw [heq, hpruned] at hsorted
  have hconsumed : ∀ p ∈ consumed, p.time ≤ first.time := fun p hp =>
    (List.pairwise_append.mp hsorted).2.2 p hp first (by simp)
  have hkept : ∀ {q : K}, second.time ≤ q → NeighbourKept full pruned q discrete := by
    intro q hle
    refine .inr fun _ _ first' second' rest' he => .inl ?_
    rw [hpruned] at he
    injection he with _ he
    injection he with he _
    exact he ▸ hle
  by_cases hzero : delayTime = 0 ∧ (activePoints pruned).getLast?.all (fun point => point.time ≤ time) = true
  · have hvalue : ∀ channel : DelayChannelHistory K, (activePoints channel).getLast? = (activePoints pruned).getLast? →
        delayedValue channel time delayTime currentSource discrete = currentSource := by
      intro channel hl
      unfold delayedValue
      simp only
      rw [hl, if_pos hzero]
    refine iff_of_true ((hvalue pruned rfl).trans (hvalue full h.getLast_eq).symm) (hkept ?_)
    rw [hzero.1, sub_zero]
    exact (hf.le_last second (by simp [heq, hpruned])).trans ht
  have hzero' : ¬ (delayTime = 0 ∧ (activePoints full).getLast?.all (fun point => point.time ≤ time) = true) :=
    h.getLast_eq ▸ hzero
  obtain ⟨before, lower, after, hsplit, hb, hl, ha⟩ :=
    exists_bracket (hfirst.trans_le hq).le (List.pairwise_append.mp hsorted).2.1
  obtain ⟨oldest, consumed', rfl⟩ := List.exists_cons_of_ne_nil hcons
  have hvalue := delayedValue_bracket currentSource discrete (hpruned.trans hsplit) (hsplit ▸ rfl)
    (hfirst.trans_le hq) hb hl ha hzero
  have hfull : activePoints full = (oldest :: consumed' ++ before) ++ lower :: after := by
    rw [heq, hpruned, hsplit, List.append_assoc]
  have hvalue' := delayedValue_bracket currentSource discrete hfull rfl
    ((hconsumed oldest (by simp)).trans_lt (hfirst.trans_le hq))
    (fun p hp => (List.mem_append.mp hp).elim (fun hp => (hconsumed p hp).trans (hfirst.trans_le hq).le) (hb p)) hl ha hzero'
  rw [hvalue, hvalue']
  cases discrete with
  | true => exact iff_of_true rfl (.inl rfl)
  | false =>
    cases before with
    | cons p before =>
      rw [List.getLast?_append_of_ne_nil _ (List.cons_ne_nil _ _)]
      refine iff_of_true rfl (hkept ?_)
      injection hsplit with _ hsplit
      cases before with
      | nil => exact (List.cons.inj hsplit).1 ▸ hl
      | cons q before => exact (List.cons.inj hsplit).1 ▸ hb q (by simp)
    | nil =>
      -- the query lies in the first interval, and the full history reads one neighbour more
      injection hsplit with hsplit hrest
      subst hsplit hrest
      have hsecond := ha second (by simp)
      obtain ⟨neighbour, hn⟩ : ∃ neighbour, (oldest :: consumed').getLast? = some neighbour :=
        ⟨_, List.getLast?_eq_some_getLast (List.cons_ne_nil _ _)⟩
      rw [hn] at hneighbour
      have hbefore := hconsumed neighbour (List.mem_of_getLast? hn)
      simp only [Bool.false_eq_true, if_false, List.getLast?_nil, List.append_nil, hn]
      rw [readBetween_none_iff hbefore (hfirst.trans_le hq) hsecond]
      constructor
      · intro hcurve
        refine .inr fun b hb first' second' rest' he => .inr ?_
        rw [hpruned] at he
        injection he with he₁ he
        injection he with he₂ he₃
        subst he₁ he₂ he₃
        rw [hneighbour] at hb
        obtain rfl := Option.some.inj hb
        exact hcurve
      · rintro (hd | hkept)
        · cases hd
        · exact (hkept neighbour hneighbour _ _ _ hpruned).resolve_left hsecond.not_ge

theorem sign_discreteDelayRoot_iff (h : Dropped bound full pruned) (hf : Recorded last full) {queryTime : K}
    (hq : bound ≤ queryTime) :
    SignType.sign (discreteDelayRoot pruned queryTime) = SignType.sign (discreteDelayRoot full queryTime) ↔
      ParityKept pruned := by
  obtain ⟨consumed, heq, hc, hparity⟩ := h.discontinuities
  have hincreasing := hf.increasing
  rw [heq] at hincreasing
  obtain ⟨before, after, hcut, hb, ha⟩ := exists_cut (List.pairwise_append.mp hincreasing).2.1 queryTime
  have hfull : activeDiscontinuities full = (consumed ++ before) ++ after := by rw [heq, hcut, List.append_assoc]
  have hb' : ∀ d ∈ consumed ++ before, d < queryTime := fun d hd =>
    (List.mem_append.mp hd).elim (fun hd => (hc d hd).trans_le hq) (hb d)
  have hinterval := delayRootIntervalSign_add hparity hf.parity
  by_cases hne : before ++ after = []
  · obtain ⟨rfl, rfl⟩ := List.append_eq_nil_iff.mp hne
    have hone : discreteDelayRoot pruned queryTime = 1 := if_pos hcut
    rw [hone, sign_one]
    unfold ParityKept
    rw [hparity]
    simp only [hcut, List.append_nil, forall_const, decide_eq_false_iff_not]
    by_cases hcons : consumed = []
    · subst hcons
      have : discreteDelayRoot full queryTime = 1 := if_pos hfull
      simp [this]
    · rw [sign_discreteDelayRoot_cut hfull hb' ha (by simpa using hcons)]
      simp only [List.append_nil, List.head?_nil, reduceCtorEq, if_false, delayRootIntervalSign, hf.parity, Bool.false_xor,
        decide_eq_true_eq]
      by_cases hodd : consumed.length % 2 = 1 <;> simp [hodd]
  · have hne' : consumed ++ before ++ after ≠ [] := by
      rw [List.append_assoc]
      exact List.append_ne_nil_of_right_ne_nil _ hne
    refine iff_of_true ?_ fun he => absurd (hcut ▸ he) hne
    rw [sign_discreteDelayRoot_cut hcut hb ha hne, sign_discreteDelayRoot_cut hfull hb' ha hne']
    have hs := h.suppressed queryTime hq
    unfold suppressedAt at hs
    simp only [hs, hinterval, List.length_append, Nat.add_assoc]

end

/-! ## Runs -/

section
variable {K : Type} [Field K] [LinearOrder K]

/-- The pruned and the full history after the same accepted points. Until the first commit there is one sample. -/
def Paired (delayMax last : K) (full pruned : DelayState K) : Prop :=
  full.initialized = true ∧ pruned.initialized = true ∧
    ((full = pruned ∧ full.historyCommitted = false ∧ ∃ time row, full.channel = freshChannel time row) ∨
      (full.historyCommitted = true ∧ pruned.historyCommitted = true ∧ Recorded last full.channel ∧
        Dropped (last - delayMax) full.channel pruned.channel))

theorem recorded_freshChannel (time : K) (row : DelayRow K) : Recorded time (freshChannel time row) where
  sorted := List.pairwise_singleton _ _
  jumps := List.isChain_singleton _
  ends := ⟨_, rfl, rfl⟩
  increasing := .nil
  accepted := by simp [activeDiscontinuities, freshChannel]
  head := le_rfl
  parity := rfl
  suppressed := by simp [freshChannel]

omit [Field K] in
theorem appendAcceptedPoint_delayMax (channel : DelayChannelHistory K) (time value : K) (discrete : Bool) :
    (appendAcceptedPoint channel time value discrete).1.delayMax = channel.delayMax := by
  unfold appendAcceptedPoint
  dsimp only
  repeat' split
  all_goals rfl

omit [Field K] in
theorem insertDiscontinuityTime_delayMax (channel : DelayChannelHistory K) (time : K) :
    (insertDiscontinuityTime channel time).delayMax = channel.delayMax := by
  unfold insertDiscontinuityTime
  dsimp only
  repeat' split
  all_goals rfl

theorem recordAccepted_delayMax (channel : DelayChannelHistory K) (time : K) (row : DelayRow K) (discrete : Bool) :
    (recordAccepted channel time row discrete).delayMax = row.delayMax := by
  unfold recordAccepted updateSuppressedDiscontinuity
  dsimp only
  split
  · exact (insertDiscontinuityTime_delayMax _ _).trans (appendAcceptedPoint_delayMax _ _ _ _)
  · exact appendAcceptedPoint_delayMax _ _ _ _

theorem paired_initializeHistory {time : K} {row : DelayRow K} {state : DelayState K}
    (h : initializeHistory time row = some state) : Paired row.delayMax time state state := by
  unfold initializeHistory at h
  split at h
  · obtain rfl := Option.some.inj h
    exact ⟨rfl, rfl, .inl ⟨rfl, rfl, time, row, rfl⟩⟩
  · cases h

omit [Field K] in
theorem holdAcceptedHistoryTo_eq {state : DelayState K} {point : DelayPoint K} {time : K}
    (hcommitted : state.historyCommitted = true) (hl : (activePoints state.channel).getLast? = some point)
    (ht : point.time ≤ time) :
    holdAcceptedHistoryTo state time =
      { state with
        channel := { state.channel with points := state.channel.points ++ acceptedPoints point time point.value } } := by
  unfold holdAcceptedHistoryTo acceptedPoints
  rw [if_neg (by simp [hcommitted]), hl]
  by_cases hlt : point.time < time
  · simp only [if_pos hlt, if_neg (fun h : time = point.time ∧ _ => hlt.ne' h.1)]
  · obtain rfl := le_antisymm ht (not_lt.mp hlt)
    simp only [lt_irrefl, and_self, if_true, if_false, List.append_nil]

variable [IsStrictOrderedRing K] {delayMax last : K} {full pruned : DelayState K}

theorem Paired.hold (h : Paired delayMax last full pruned) {time : K} (ht : last ≤ time) :
    Paired delayMax time (holdAcceptedHistoryTo full time) (holdAcceptedHistoryTo pruned time) := by
  obtain ⟨hfi, hpi, ⟨rfl, hcommitted, hfresh⟩ | ⟨hfc, hpc, hrecorded, hdropped⟩⟩ := h
  · have hsame : holdAcceptedHistoryTo full time = full := if_pos (by simp [hcommitted])
    rw [hsame]
    exact ⟨hfi, hpi, .inl ⟨rfl, hcommitted, hfresh⟩⟩
  · obtain ⟨point, hl, hpoint⟩ := hrecorded.ends
    rw [holdAcceptedHistoryTo_eq hfc hl (hpoint.trans_le ht),
      holdAcceptedHistoryTo_eq hpc (hdropped.getLast_eq ▸ hl) (hpoint.trans_le ht)]
    exact ⟨hfi, hpi, .inr ⟨hfc, hpc, hrecorded.push hl ht _, (hdropped.push _).mono (sub_le_sub_right ht _)⟩⟩

theorem Paired.commit (h : Paired delayMax last full pruned) {time : K} (ht : last ≤ time) {row : DelayRow K}
    (hrow : row.delayMax = delayMax) {discrete : Bool} {pruned' : DelayState K}
    (hc : commitEvaluatedAt pruneHistory pruned time row discrete = some pruned') :
    ∃ full', commitEvaluatedAt keepHistory full time row discrete = some full' ∧ Paired delayMax time full' pruned' := by
  unfold commitEvaluatedAt at hc ⊢
  split at hc
  · cases hc
  · next hvalid =>
    rw [if_neg hvalid]
    have hdelay : 0 ≤ row.delayTime ∧ row.delayTime ≤ row.delayMax := by simpa [validateDelayValues] using hvalid
    obtain ⟨hfi, hpi, ⟨rfl, hcommitted, -⟩ | ⟨hfc, hpc, hrecorded, hdropped⟩⟩ := h
    · rw [if_pos (.inr hcommitted)] at hc ⊢
      obtain rfl := Option.some.inj hc
      have hfresh := recorded_freshChannel time row
      exact ⟨_, rfl, rfl, rfl, .inr ⟨rfl, rfl, hfresh, .refl hfresh _⟩⟩
    · rw [if_neg (by simp [hpi, hpc])] at hc
      rw [if_neg (by simp [hfi, hfc])]
      obtain rfl := Option.some.inj hc
      have hbound : last - delayMax ≤ time - row.delayTime := sub_le_sub ht (hrow ▸ hdelay.2)
      have hrecord := (hdropped.record hrecorded ht hbound (sub_le_self _ hdelay.1) discrete).mono
        (sub_le_sub_right ht delayMax)
      have hrecorded' := hrecorded.record ht row discrete
      have hmax := recordAccepted_delayMax pruned.channel time row discrete
      have hkeep : time - delayMax ≤ time := sub_le_self _ (hrow ▸ hdelay.1.trans hdelay.2)
      refine ⟨_, rfl, hfi, hpi, .inr ⟨hfc, hpc, hrecorded', ?_⟩⟩
      unfold pruneHistory
      rw [hmax, hrow]
      exact (hrecord.prunePoints hrecorded' hkeep).pruneDiscontinuities hrecorded'

theorem Paired.step (h : Paired delayMax last full pruned) {accepted : Accepted K} (ht : last ≤ accepted.time)
    (hmax : ∀ time row, accepted = .commit time row → row.delayMax = delayMax) {discrete : Bool} {pruned' : DelayState K}
    (hs : stepAccepted pruneHistory discrete pruned accepted = some pruned') :
    ∃ full', stepAccepted keepHistory discrete full accepted = some full' ∧
      Paired delayMax accepted.time full' pruned' := by
  cases accepted with
  | hold time =>
    obtain rfl := Option.some.inj hs
    exact ⟨_, rfl, h.hold ht⟩
  | commit time row => exact h.commit ht (hmax time row rfl) hs

theorem Paired.run {accepted : List (Accepted K)} {discrete : Bool} (h : Paired delayMax last full pruned)
    (ht : (last :: accepted.map Accepted.time).IsChain (· ≤ ·))
    (hmax : ∀ time row, .commit time row ∈ accepted → row.delayMax = delayMax) {pruned' : DelayState K}
    (hrun : accepted.foldlM (stepAccepted pruneHistory discrete) pruned = some pruned') :
    ∃ full' last', accepted.foldlM (stepAccepted keepHistory discrete) full = some full' ∧
      last' ∈ last :: accepted.map Accepted.time ∧ Paired delayMax last' full' pruned' := by
  induction accepted generalizing last full pruned with
  | nil =>
    obtain rfl := Option.some.inj hrun
    exact ⟨full, last, rfl, by simp, h⟩
  | cons point accepted ih =>
    rw [List.foldlM_cons] at hrun
    obtain ⟨middle, hstep, hrun⟩ := Option.bind_eq_some_iff.mp hrun
    rw [List.map_cons, List.isChain_cons_cons] at ht
    obtain ⟨full', hstep', hpaired⟩ := h.step ht.1 (fun time row he => hmax time row (by simp [he])) hstep
    obtain ⟨full'', last', hrun', hmem, hpaired'⟩ := ih hpaired ht.2 (fun time row hm => hmax time row (by simp [hm])) hrun
    refine ⟨full'', last', ?_, by rw [List.map_cons]; exact List.mem_cons_of_mem _ hmem, hpaired'⟩
    rw [List.foldlM_cons, hstep']
    exact hrun'

end

/-! ## The samples of one instant -/

section
variable {K : Type} [LinearOrder K]

def JumpsTwiceAt (points : List (DelayPoint K)) (time : K) : Prop :=
  ∃ before a b c after, points = before ++ a :: b :: c :: after ∧ (a.time = time ∧ b.time = time ∧ c.time = time) ∧
    a.value ≠ b.value ∧ b.value ≠ c.value

theorem head_time {p x : DelayPoint K} {points : List (DelayPoint K)} (hs : (p :: points).Pairwise fun a b => a.time ≤ b.time)
    (hx : x ∈ points) (ht : x.time = p.time) : ∃ q rest, points = q :: rest ∧ q.time = p.time := by
  cases points with
  | nil => cases hx
  | cons q rest =>
    refine ⟨q, rest, rfl, le_antisymm ?_ (List.rel_of_pairwise_cons hs (by simp))⟩
    obtain rfl | hx := List.mem_cons.mp hx
    · exact ht.le
    · exact (List.rel_of_pairwise_cons hs.of_cons hx).trans ht.le

theorem jumpsTwiceAt_of_length {points : List (DelayPoint K)} {time : K}
    (hs : points.Pairwise fun a b => a.time ≤ b.time)
    (hj : points.IsChain fun a b => a.time = b.time → a.value ≠ b.value)
    (h : 2 < (points.filter fun p => p.time = time).length) : JumpsTwiceAt points time := by
  induction points with
  | nil => simp at h
  | cons p points ih =>
    by_cases hp : p.time = time
    · subst hp
      rw [List.filter_cons_of_pos (by simp), List.length_cons] at h
      obtain ⟨x, hx⟩ := List.exists_mem_of_length_pos (show 0 < (points.filter fun q => q.time = p.time).length by omega)
      rw [List.mem_filter, decide_eq_true_eq] at hx
      obtain ⟨q, rest, rfl, hq⟩ := head_time hs hx.1 hx.2
      rw [List.filter_cons_of_pos (by simpa using hq), List.length_cons] at h
      obtain ⟨y, hy⟩ := List.exists_mem_of_length_pos (show 0 < (rest.filter fun q => q.time = p.time).length by omega)
      rw [List.mem_filter, decide_eq_true_eq] at hy
      obtain ⟨r, rest', rfl, hr⟩ := head_time hs.of_cons hy.1 (hy.2.trans hq.symm)
      rw [List.isChain_cons_cons, List.isChain_cons_cons] at hj
      exact ⟨[], p, q, r, rest', rfl, ⟨rfl, hq, hr.trans hq⟩, hj.1 hq.symm, hj.2.1 hr.symm⟩
    · rw [List.filter_cons_of_neg (by simpa using hp)] at h
      obtain ⟨before, a, b, c, after, heq, hrest⟩ := ih hs.of_cons hj.tail h
      exact ⟨p :: before, a, b, c, after, by rw [heq]; rfl, hrest⟩

end

/-! ## What a run shows -/

section
variable {K : Type} [Field K] [LinearOrder K] [IsStrictOrderedRing K]

/-- After any run, a trial reads the pruned history as the full one exactly when its consumed neighbour is not missed
and the parity of the consumed jumps is; the samples stay sorted, two for a time unless the source jumped repeatedly. -/
theorem prunedHistory_iff {discrete : Bool} {start : K} {row : DelayRow K} {accepted : List (Accepted K)}
    {pruned : DelayState K} (ht : (start :: accepted.map Accepted.time).IsChain (· ≤ ·))
    (hmax : ∀ time r, .commit time r ∈ accepted → r.delayMax = row.delayMax)
    (hrun : runAccepted pruneHistory discrete start row accepted = some pruned) :
    ∃ full, runAccepted keepHistory discrete start row accepted = some full ∧
      ((activePoints pruned.channel).Pairwise fun a b => a.time ≤ b.time) ∧
      (∀ time, ((activePoints pruned.channel).filter fun p => p.time = time).length ≤ 2 ∨
        JumpsTwiceAt (activePoints pruned.channel) time) ∧
      ∀ time delayTime currentSource, (∀ t ∈ start :: accepted.map Accepted.time, t ≤ time) → 0 ≤ delayTime →
        delayTime ≤ row.delayMax →
        ((delayedValue pruned.channel time delayTime currentSource discrete =
              delayedValue full.channel time delayTime currentSource discrete ∧
            SignType.sign (discreteDelayRoot pruned.channel (time - delayTime)) =
              SignType.sign (discreteDelayRoot full.channel (time - delayTime))) ↔
          NeighbourKept full.channel pruned.channel (time - delayTime) discrete ∧ ParityKept pruned.channel) := by
  obtain ⟨state, hstart, hrun⟩ := Option.bind_eq_some_iff.mp hrun
  obtain ⟨full, last, hfull, hlast, hpaired⟩ := (paired_initializeHistory hstart).run ht hmax hrun
  refine ⟨full, by rw [runAccepted, hstart]; exact hfull, ?_⟩
  obtain ⟨-, -, ⟨rfl, -, time, row', hfresh⟩ | ⟨-, -, hrecorded, hdropped⟩⟩ := hpaired
  · -- one sample, and nothing was pruned
    have hrecorded := recorded_freshChannel time row'
    rw [← hfresh] at hrecorded
    refine ⟨hrecorded.sorted, fun t => ?_, fun _ _ _ _ _ _ => iff_of_true ⟨rfl, rfl⟩ ⟨.inr ?_, fun _ => hrecorded.parity⟩⟩
    · exact (Nat.lt_or_ge 2 _).symm.imp_right (jumpsTwiceAt_of_length hrecorded.sorted hrecorded.jumps)
    · simp [consumedNeighbour_eq (List.nil_append _).symm]
  · obtain ⟨consumed, heq, -⟩ := hdropped.points
    have hsorted := hrecorded.sorted
    have hjumps := hrecorded.jumps
    rw [heq] at hsorted hjumps
    have hsorted := (List.pairwise_append.mp hsorted).2.1
    have hjumps := (List.isChain_append.mp hjumps).2.1
    refine ⟨hsorted, fun t => (Nat.lt_or_ge 2 _).symm.imp_right (jumpsTwiceAt_of_length hsorted hjumps), ?_⟩
    intro time delayTime currentSource htime hpos hmax
    have hbound : last - row.delayMax ≤ time - delayTime := sub_le_sub (htime last hlast) hmax
    exact and_congr (delayedValue_iff hdropped hrecorded (htime last hlast) hbound currentSource discrete)
      (sign_discreteDelayRoot_iff hdropped hrecorded hbound)

theorem prunedHistory_step : ∃ pruned full : DelayState ℚ,
    runAccepted pruneHistory true 0 ⟨0, 1 / 2, 1⟩ [.commit 0 ⟨0, 1 / 2, 1⟩, .commit 1 ⟨1, 1 / 2, 1⟩] = some pruned ∧
      runAccepted keepHistory true 0 ⟨0, 1 / 2, 1⟩ [.commit 0 ⟨0, 1 / 2, 1⟩, .commit 1 ⟨1, 1 / 2, 1⟩] = some full ∧
      delayedValue pruned.channel (3 / 2) (1 / 2) 1 true = delayedValue full.channel (3 / 2) (1 / 2) 1 true := by
  have hjump : ((runAccepted pruneHistory true (0 : ℚ) ⟨0, 1 / 2, 1⟩
      [.commit 0 ⟨0, 1 / 2, 1⟩, .commit 1 ⟨1, 1 / 2, 1⟩]).any fun state =>
        decide (activeDiscontinuities state.channel ≠ [])) = true := by decide +kernel
  cases hrun : runAccepted pruneHistory true (0 : ℚ) ⟨0, 1 / 2, 1⟩
      [.commit 0 ⟨0, 1 / 2, 1⟩, .commit 1 ⟨1, 1 / 2, 1⟩] with
  | none =>
    rw [hrun] at hjump
    cases hjump
  | some pruned =>
    rw [hrun] at hjump
    have hmax : ∀ time r, .commit time r ∈ [Accepted.commit (0 : ℚ) ⟨0, 1 / 2, 1⟩, .commit 1 ⟨1, 1 / 2, 1⟩] →
        r.delayMax = 1 := by
      simp only [List.mem_cons, Accepted.commit.injEq, List.not_mem_nil, or_false]
      rintro time r (⟨-, rfl⟩ | ⟨-, rfl⟩) <;> rfl
    obtain ⟨full, hfull, -, -, hread⟩ := prunedHistory_iff (by simp [Accepted.time]) hmax hrun
    refine ⟨pruned, full, rfl, hfull, ((hread _ _ _ ?_ ?_ ?_).mpr ⟨.inl rfl, fun he => ?_⟩).1⟩
    · norm_num [Accepted.time]
    · norm_num
    · norm_num
    · exact absurd he (of_decide_eq_true hjump)

/-- On a history of cubes at the integers, a query a delay of one and a half back misses the first sample; a jump that
left the history alone turns the sign of its root. -/
theorem consumed_missed :
    ((runAccepted pruneHistory false (0 : ℚ) ⟨0, 3 / 2, 3 / 2⟩ [.commit 0 ⟨0, 3 / 2, 3 / 2⟩, .commit 1 ⟨1, 3 / 2, 3 / 2⟩,
        .commit 2 ⟨8, 3 / 2, 3 / 2⟩, .commit 3 ⟨27, 3 / 2, 3 / 2⟩]).map fun state =>
      delayedValue state.channel 3 (3 / 2) 27 false) = some 3 ∧
    ((runAccepted keepHistory false (0 : ℚ) ⟨0, 3 / 2, 3 / 2⟩ [.commit 0 ⟨0, 3 / 2, 3 / 2⟩, .commit 1 ⟨1, 3 / 2, 3 / 2⟩,
        .commit 2 ⟨8, 3 / 2, 3 / 2⟩, .commit 3 ⟨27, 3 / 2, 3 / 2⟩]).map fun state =>
      delayedValue state.channel 3 (3 / 2) 27 false) = some (27 / 8) ∧
    ((runAccepted pruneHistory true (0 : ℚ) ⟨0, 1 / 2, 1⟩ [.commit 0 ⟨0, 1 / 2, 1⟩, .commit 1 ⟨1, 1 / 2, 1⟩,
        .commit 3 ⟨1, 1 / 2, 1⟩]).map fun state => SignType.sign (discreteDelayRoot state.channel (5 / 2))) = some 1 ∧
    ((runAccepted keepHistory true (0 : ℚ) ⟨0, 1 / 2, 1⟩ [.commit 0 ⟨0, 1 / 2, 1⟩, .commit 1 ⟨1, 1 / 2, 1⟩,
        .commit 3 ⟨1, 1 / 2, 1⟩]).map fun state => SignType.sign (discreteDelayRoot state.channel (5 / 2))) = some (-1) := by
  refine ⟨?_, ?_, ?_, ?_⟩
  all_goals decide +kernel

end

end Rumoca.Solver
