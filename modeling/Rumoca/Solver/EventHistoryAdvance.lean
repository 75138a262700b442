import Rumoca.Solver.EventHistory
/-!
# Advancing the event-iteration history

What `advance` leaves in the parameters, when it answers, and that it leaves
them alone when it fails.
-/

namespace Rumoca.Solver

open Rumoca.Lib

variable {S V : Type} {ops : FloatOps V} {model : SolveModel S} {sourceY sourceP params : List V}

/-! ## What a run names -/

def IsLane (model : SolveModel S) (run : EventIterationRun) (lane : PreParamBinding S) : Prop :=
  ∃ storage offset, model.variableStorageRuns[run.position]? = some storage ∧ offset < storage.scalarCount ∧
    model.preParamBindings[run.preBindingStart + offset]? = some lane

def IsOrdinaryLane (model : SolveModel S) (lane : PreParamBinding S) : Prop :=
  ∃ run ∈ model.discrete.runs, model.discrete.eventIterationRunClock run = .ok none ∧ IsLane model run lane

/-- Every run of the plan is a typed discrete variable, and its bindings are contiguous. -/
structure ContiguousPlan (model : SolveModel S) : Prop where
  typed : ∀ run ∈ model.discrete.runs, ∃ storage kind,
    model.variableStorageRuns[run.position]? = some storage ∧ storage.eventIterationKind = some kind
  contiguous : ∀ run ∈ model.discrete.runs, ∀ storage, model.variableStorageRuns[run.position]? = some storage →
    ∀ offset < storage.scalarCount, ∃ first lane, model.preParamBindings[run.preBindingStart]? = some first ∧
      model.preParamBindings[run.preBindingStart + offset]? = some lane ∧
      lane.destPIndex = first.destPIndex + offset ∧ lane.source = first.source.shift offset

/-! ## The ranges -/

/-- What `historyRange` found for a run: nothing for an empty variable, else its lanes in bounds and valid. -/
structure IsHistoryRange (ops : FloatOps V) (model : SolveModel S) (sourceY sourceP params : List V)
    (run : EventIterationRun) (range : HistoryRange V) : Prop where
  lanes : ∃ storage first, model.variableStorageRuns[run.position]? = some storage ∧
    storage.scalarCount = range.current.length ∧ storage.eventIterationKind = some range.valueKind ∧
    model.preParamBindings[run.preBindingStart]? = some first ∧ first.destPIndex = range.destination ∧
    ∀ offset < range.current.length, ∀ clockSchedule : Option S,
      preBindingSourceValue ⟨first.destPIndex + offset, first.source.shift offset, clockSchedule⟩ sourceY sourceP =
        range.current[offset]?
  clock : ∃ clock, model.discrete.eventIterationRunClock run = .ok clock ∧ range.fixedPoint = clock.isNone
  bound : range.destination + range.current.length ≤ params.length
  valid : ∀ offset value old, range.current[offset]? = some value → params[range.destination + offset]? = some old →
    eventIterationValueIsValid ops range.valueKind value = true ∧
      eventIterationValueIsValid ops range.valueKind old = true

def RunRange (ops : FloatOps V) (model : SolveModel S) (sourceY sourceP params : List V) (run : EventIterationRun) :
    Option (HistoryRange V) → Prop
  | some range => IsHistoryRange ops model sourceY sourceP params run range
  | none => (∃ clock, model.discrete.eventIterationRunClock run = .ok clock) ∧
    ∃ storage, model.variableStorageRuns[run.position]? = some storage ∧ storage.scalarCount = 0

theorem checkedRange_spec (values : List V) (start count run : Nat) (kind : String) :
    Outcome (checkedRange values start count run kind)
      (fun range => start + count ≤ values.length ∧ range = (values.drop start).take count) (fun _ => True) := by
  unfold checkedRange checkedUsize
  by_cases hu : start + count < usizeLimit
  · by_cases hb : start + count ≤ values.length
    · rw [if_pos hu, Option.bind_some, if_pos hb]
      exact .pure ⟨hb, rfl⟩
    · rw [if_pos hu, Option.bind_some, if_neg hb]
      exact .throw trivial
  · rw [if_neg hu]
    exact .throw trivial

theorem validate_spec (kind : EventIterationValueKind) (value : V) (index : Nat) (lane : String) :
    Outcome (validateEventIterationValue ops kind value index lane)
      (fun _ => eventIterationValueIsValid ops kind value = true) (fun _ => True) := by
  unfold validateEventIterationValue
  split
  · exact .pure ‹_›
  · exact .throw trivial

theorem forM_validate_spec (kind : EventIterationValueKind) (index : Nat) (lanes : List (V × V)) :
    Outcome (lanes.forM fun lane => do
        validateEventIterationValue ops kind lane.1 index "current"
        validateEventIterationValue ops kind lane.2 index "pre" : Fallible Unit)
      (fun _ => ∀ lane ∈ lanes, eventIterationValueIsValid ops kind lane.1 = true ∧
        eventIterationValueIsValid ops kind lane.2 = true) (fun _ => True) := by
  induction lanes with
  | nil => exact .pure (by simp)
  | cons lane lanes ih =>
    have hlane : Outcome (do
        validateEventIterationValue ops kind lane.1 index "current"
        validateEventIterationValue ops kind lane.2 index "pre" : Fallible Unit)
        (fun _ => eventIterationValueIsValid ops kind lane.1 = true ∧ eventIterationValueIsValid ops kind lane.2 = true)
        (fun _ => True) :=
      (validate_spec kind lane.1 index "current").bind fun _ h =>
        (validate_spec kind lane.2 index "pre").mono (fun _ h' => ⟨h, h'⟩) fun _ h => h
    exact hlane.bind fun _ h => ih.mono (fun _ h' => List.forall_mem_cons.2 ⟨h, h'⟩) fun _ h => h

theorem historyRange_spec (hm : ContiguousPlan model) {run : EventIterationRun} (hrun : run ∈ model.discrete.runs)
    (index : Nat) :
    Outcome (historyRange ops model run index sourceY sourceP params)
      (RunRange ops model sourceY sourceP params run) (fun _ => True) := by
  obtain ⟨storage, kind, hstorage, hkind⟩ := hm.typed run hrun
  unfold historyRange
  rw [hstorage]
  simp only [orPanic_some, pure_bind]
  cases hclock : model.discrete.eventIterationRunClock run with
  | error message => exact .inr ⟨message, rfl, trivial⟩
  | ok clock =>
    change Outcome (if storage.scalarCount = 0 then pure none else _) _ _
    by_cases hz : storage.scalarCount = 0
    · rw [if_pos hz]
      exact .pure ⟨⟨clock, hclock⟩, storage, hstorage, hz⟩
    · rw [if_neg hz]
      cases hb : model.preParamBindings[run.preBindingStart]? with
      | none => exact .throw trivial
      | some first =>
        simp only [orError_some, pure_bind, hkind, orPanic_some]
        refine (checkedRange_spec ..).bind fun current hcurrent => (checkedRange_spec ..).bind fun pre hpre =>
          (forM_validate_spec kind index (current.zip pre)).bind fun _ hvalid => .pure ?_
        obtain ⟨hslice, rfl⟩ := hcurrent
        obtain ⟨hbound, rfl⟩ := hpre
        have hlen : ((first.source.slice sourceY sourceP).drop first.source.index |>.take storage.scalarCount).length =
            storage.scalarCount := by
          rw [List.length_take, List.length_drop]
          omega
        refine ⟨⟨storage, first, hstorage, hlen.symm, hkind, hb, rfl, fun offset ho clockSchedule => ?_⟩,
          ⟨clock, hclock, rfl⟩, hlen.symm ▸ hbound, fun offset value old hv ho => ?_⟩
        · rw [preBindingSourceValue_shift, List.getElem?_take_of_lt (hlen ▸ ho), List.getElem?_drop]
        · have hlt : offset < storage.scalarCount := hlen ▸ (List.getElem?_eq_some_iff.1 hv).1
          refine hvalid (value, old) (List.mem_iff_getElem?.2 ⟨offset, ?_⟩)
          rw [List.getElem?_zip_eq_some]
          exact ⟨hv, by rw [List.getElem?_take_of_lt hlt, List.getElem?_drop]; exact ho⟩

theorem historyOwners_spec (ops : FloatOps V) (sourceY sourceP params : List V) (hm : ContiguousPlan model) :
    Outcome (historyOwners ops model sourceY sourceP params)
      (fun owners => ∃ ranges, List.Forall₂ (RunRange ops model sourceY sourceP params) model.discrete.runs ranges ∧
        owners = ranges.filterMap id) (fun _ => True) := by
  have h := Outcome.foldlM (l := model.discrete.runs.zipIdx) (Q := fun _ => True)
    (f := fun owners (entry : EventIterationRun × Nat) => do
      match ← historyRange ops model entry.1 entry.2 sourceY sourceP params with
      | some range => pure (owners ++ [range])
      | none => pure owners)
    (fun pre owners => ∃ ranges, List.Forall₂ (RunRange ops model sourceY sourceP params) (pre.map Prod.fst) ranges ∧
      owners = ranges.filterMap id) ?_ (s := []) ⟨[], .nil, rfl⟩
  · rw [List.zipIdx_map_fst] at h
    exact h
  · rintro pre ⟨run, index⟩ post owners hl ⟨ranges, hranges, rfl⟩
    have hentry : (run, index) ∈ model.discrete.runs.zipIdx := by simp [hl]
    have hrun : run ∈ model.discrete.runs := List.fst_mem_of_mem_zipIdx hentry
    refine (historyRange_spec hm hrun index).bind fun range hrange => ?_
    have hall : List.Forall₂ (RunRange ops model sourceY sourceP params) ((pre ++ [(run, index)]).map Prod.fst)
        (ranges ++ [range]) := by
      rw [List.map_append]
      exact List.rel_append hranges (.cons hrange .nil)
    cases range <;> exact .pure ⟨_, hall, by simp⟩

/-! ## Splitting and copying -/

theorem copyLanes_spec (ops : FloatOps V) (current pre : List V) (changed : Bool) (hlen : current.length = pre.length) :
    (copyLanes ops current pre changed).1 = current ∧
      ((copyLanes ops current pre changed).2 = true ↔ changed = true ∨ ∃ (offset : Nat) (value old : V),
        current[offset]? = some value ∧ pre[offset]? = some old ∧ ops.eq value old = false) := by
  induction current generalizing pre changed with
  | nil =>
    obtain rfl := List.eq_nil_of_length_eq_zero hlen.symm
    simp [copyLanes]
  | cons value current ih =>
    cases pre with
    | nil => cases hlen
    | cons old pre =>
      obtain ⟨hpre, hchanged⟩ := ih pre (changed || !ops.eq value old) (Nat.succ.inj hlen)
      refine ⟨congrArg (value :: ·) hpre, hchanged.trans ?_⟩
      rw [Bool.or_eq_true, Bool.not_eq_true', or_assoc]
      refine or_congr Iff.rfl ⟨?_, ?_⟩
      · rintro (h | ⟨offset, value', old', hv, ho, h⟩)
        · exact ⟨0, value, old, rfl, rfl, h⟩
        · exact ⟨offset + 1, value', old', hv, ho, h⟩
      · rintro ⟨offset, value', old', hv, ho, h⟩
        cases offset with
        | zero =>
          obtain rfl := Option.some.inj hv
          obtain rfl := Option.some.inj ho
          exact .inl h
        | succ offset => exact .inr ⟨offset, value', old', hv, ho, h⟩

def HistoryRange.Covers (range : HistoryRange V) (index : Nat) : Prop :=
  range.destination ≤ index ∧ index < range.destination + range.current.length

/-- The parameters after the ranges were copied into them. -/
structure Advanced (ops : FloatOps V) (params : List V) (owners : List (HistoryRange V)) (cursor : Nat)
    (params' : List V) (changed : Bool) : Prop where
  length : params'.length = cursor
  written : ∀ range ∈ owners, range.fixedPoint = true → ∀ offset < range.current.length,
    params'[range.destination + offset]? = range.current[offset]?
  kept : ∀ index < cursor, (∀ range ∈ owners, range.fixedPoint = true → ¬range.Covers index) →
    params'[index]? = params[index]?
  changed_iff : changed = true ↔ ∃ range ∈ owners, range.fixedPoint = true ∧ ∃ (offset : Nat) (value old : V),
    range.current[offset]? = some value ∧ params[range.destination + offset]? = some old ∧ ops.eq value old = false

/-- The parameters split at the owners passed so far. -/
structure SplitAt (ops : FloatOps V) (params : List V) (owners : List (HistoryRange V)) (split : SplitParams V) :
    Prop where
  cursor_le : split.cursor ≤ params.length
  remaining : split.remaining = params.drop split.cursor
  apart : owners.Pairwise fun range other => range.destination + range.current.length ≤ other.destination
  before : ∀ range ∈ owners, range.destination + range.current.length ≤ split.cursor
  advanced : Advanced ops params owners split.cursor (joined (copyValidatedEventIterationRanges ops split.ranges).1)
    (copyValidatedEventIterationRanges ops split.ranges).2

theorem splitAtMut_eq {values : List V} {mid : Nat} (h : mid ≤ values.length) :
    splitAtMut values mid = pure (values.take mid, values.drop mid) := by
  unfold splitAtMut
  rw [if_pos h, List.splitAt_eq]
  rfl

theorem Advanced.snoc {owners : List (HistoryRange V)} {cursor : Nat} {params' : List V} {changed : Bool}
    (h : Advanced ops params owners cursor params' changed) (owner : HistoryRange V)
    (hcursor : cursor ≤ owner.destination) (hbound : owner.destination + owner.current.length ≤ params.length)
    (hbefore : ∀ range ∈ owners, range.destination + range.current.length ≤ cursor) {pre : List V} {changed' : Bool}
    (hpre : pre.length = owner.current.length)
    (hcopied : if owner.fixedPoint = true then pre = owner.current ∧
        (changed' = true ↔ changed = true ∨ ∃ (offset : Nat) (value old : V), owner.current[offset]? = some value ∧
          params[owner.destination + offset]? = some old ∧ ops.eq value old = false)
      else (∀ offset < pre.length, pre[offset]? = params[owner.destination + offset]?) ∧ changed' = changed) :
    Advanced ops params (owners ++ [owner]) (owner.destination + owner.current.length)
      (params' ++ ((params.drop cursor).take (owner.destination - cursor) ++ pre)) changed' := by
  have hgap : ((params.drop cursor).take (owner.destination - cursor)).length = owner.destination - cursor := by
    rw [List.length_take, List.length_drop]
    omega
  -- the three stretches: what was copied before, the gap, the new range
  have hold : ∀ index < cursor, (params' ++ ((params.drop cursor).take (owner.destination - cursor) ++ pre))[index]? =
      params'[index]? := fun index hi => List.getElem?_append_left (h.length.symm ▸ hi)
  have hbetween : ∀ index, cursor ≤ index → index < owner.destination →
      (params' ++ ((params.drop cursor).take (owner.destination - cursor) ++ pre))[index]? = params[index]? := by
    intro index hc hd
    rw [List.getElem?_append_right (h.length.symm ▸ hc), List.getElem?_append_left (by rw [hgap, h.length]; omega),
      List.getElem?_take_of_lt (by rw [h.length]; omega), List.getElem?_drop, h.length]
    congr 1
    omega
  have hnew : ∀ offset, (params' ++ ((params.drop cursor).take (owner.destination - cursor) ++ pre))[
      owner.destination + offset]? = pre[offset]? := by
    intro offset
    rw [List.getElem?_append_right (by rw [h.length]; omega), List.getElem?_append_right (by rw [hgap, h.length]; omega),
      hgap, h.length]
    congr 1
    omega
  refine ⟨?_, ?_, ?_, ?_⟩
  · rw [List.length_append, List.length_append, hgap, h.length, hpre]
    omega
  · intro range hrange hfixed offset ho
    rcases List.mem_append.1 hrange with hr | hr
    · rw [hold _ (by have := hbefore range hr; omega), h.written range hr hfixed offset ho]
    · obtain rfl := List.mem_singleton.1 hr
      rw [if_pos hfixed] at hcopied
      rw [hnew, hcopied.1]
  · intro index hi hfree
    by_cases hc : index < cursor
    · rw [hold index hc, h.kept index hc fun range hr => hfree range (List.mem_append_left _ hr)]
    · by_cases hd : index < owner.destination
      · exact hbetween index (by omega) hd
      · obtain ⟨offset, rfl⟩ := Nat.exists_eq_add_of_le (Nat.not_lt.1 hd)
        rw [hnew]
        have hnot : ¬owner.fixedPoint = true := fun hfixed =>
          hfree owner (List.mem_append_right _ (List.mem_singleton_self _)) hfixed ⟨by omega, hi⟩
        rw [if_neg hnot] at hcopied
        exact hcopied.1 offset (by omega)
  · simp only [List.mem_append, List.mem_singleton, or_and_right, exists_or, exists_eq_left, ← h.changed_iff]
    by_cases hfixed : owner.fixedPoint = true
    · rw [if_pos hfixed] at hcopied
      simp only [hcopied.2, hfixed, true_and]
    · rw [if_neg hfixed] at hcopied
      simp only [hcopied.2, hfixed, Bool.false_eq_true, false_and, or_false]

theorem copyRange_spec (ops : FloatOps V) (state : List (List V × EventIterationRange V) × Bool) (before : List V)
    (owner : HistoryRange V) {pre : List V} (hpre : pre.length = owner.current.length)
    (hold : ∀ offset < owner.current.length, pre[offset]? = params[owner.destination + offset]?) :
    ∃ pre', joined (copyRange ops state (before,
          { current := owner.current, pre := pre, valueKind := owner.valueKind, fixedPoint := owner.fixedPoint })).1 =
        joined state.1 ++ (before ++ pre') ∧
      pre'.length = owner.current.length ∧
      if owner.fixedPoint = true then pre' = owner.current ∧
        ((copyRange ops state (before,
          { current := owner.current, pre := pre, valueKind := owner.valueKind, fixedPoint := owner.fixedPoint })).2 =
            true ↔ state.2 = true ∨ ∃ (offset : Nat) (value old : V), owner.current[offset]? = some value ∧
              params[owner.destination + offset]? = some old ∧ ops.eq value old = false)
      else (∀ offset < pre'.length, pre'[offset]? = params[owner.destination + offset]?) ∧
        (copyRange ops state (before,
          { current := owner.current, pre := pre, valueKind := owner.valueKind, fixedPoint := owner.fixedPoint })).2 =
            state.2 := by
  unfold copyRange joined
  by_cases hfixed : owner.fixedPoint = true
  · obtain ⟨hcurrent, hchanged⟩ := copyLanes_spec ops owner.current pre state.2 hpre.symm
    refine ⟨owner.current, ?_, rfl, ?_⟩
    · simp only [hfixed, if_true, List.flatMap_append, List.flatMap_singleton, hcurrent]
    · rw [if_pos hfixed]
      refine ⟨rfl, ?_⟩
      simp only [hfixed, if_true, hchanged]
      refine or_congr Iff.rfl (exists_congr fun offset => ?_)
      refine exists_congr fun value => exists_congr fun old => and_congr_right fun hv => ?_
      rw [hold offset (List.getElem?_eq_some_iff.1 hv).1]
  · refine ⟨pre, ?_, hpre, ?_⟩
    · simp only [hfixed, Bool.false_eq_true, if_false, List.flatMap_append, List.flatMap_singleton]
    · rw [if_neg hfixed]
      simp only [hfixed, Bool.false_eq_true, if_false, and_true]
      exact fun offset ho => hold offset (hpre ▸ ho)

theorem splitOwner_spec {owners : List (HistoryRange V)} {split : SplitParams V} (h : SplitAt ops params owners split)
    {owner : HistoryRange V} (hbound : owner.destination + owner.current.length ≤ params.length) :
    Outcome (splitOwner split owner) (SplitAt ops params (owners ++ [owner])) (fun _ => True) := by
  unfold splitOwner
  by_cases hcursor : split.cursor ≤ owner.destination
  · have hle := h.cursor_le
    have hlen : split.remaining.length = params.length - split.cursor := by rw [h.remaining, List.length_drop]
    have htail : (split.remaining.drop (owner.destination - split.cursor)).length =
        params.length - owner.destination := by
      rw [List.length_drop, hlen]
      omega
    rw [if_pos hcursor]
    simp only [orError_some, pure_bind]
    rw [splitAtMut_eq (by omega)]
    simp only [pure_bind]
    rw [splitAtMut_eq (by omega)]
    refine .pure ⟨hbound, ?_, ?_, ?_, ?_⟩
    · change (split.remaining.drop (owner.destination - split.cursor)).drop owner.current.length =
        params.drop (owner.destination + owner.current.length)
      rw [h.remaining, List.drop_drop, List.drop_drop]
      congr 1
      omega
    · refine List.pairwise_append.2 ⟨h.apart, List.pairwise_singleton .., fun range hr other ho => ?_⟩
      obtain rfl := List.mem_singleton.1 ho
      exact (h.before range hr).trans hcursor
    · intro range hrange
      rcases List.mem_append.1 hrange with hr | hr
      · have := h.before range hr
        simp only
        omega
      · obtain rfl := List.mem_singleton.1 hr
        exact le_refl _
    · have hpre : ((split.remaining.drop (owner.destination - split.cursor)).take owner.current.length).length =
          owner.current.length := by
        rw [List.length_take, htail]
        omega
      have hold : ∀ offset < owner.current.length,
          ((split.remaining.drop (owner.destination - split.cursor)).take owner.current.length)[offset]? =
            params[owner.destination + offset]? := by
        intro offset ho
        rw [List.getElem?_take_of_lt ho, List.getElem?_drop, h.remaining, List.getElem?_drop]
        congr 1
        omega
      have hcopy := copyRange_spec ops (copyValidatedEventIterationRanges ops split.ranges)
        (split.remaining.take (owner.destination - split.cursor)) owner hpre hold
      rw [h.remaining] at hcopy
      unfold copyValidatedEventIterationRanges at hcopy ⊢
      rw [List.foldl_append, List.foldl_cons, List.foldl_nil, h.remaining]
      obtain ⟨pre', hjoined, hlen', hcopied⟩ := hcopy
      rw [hjoined]
      exact h.advanced.snoc owner hcursor hbound h.before hlen' hcopied
  · rw [if_neg hcursor]
    exact .throw trivial

theorem splitOwners_spec (ops : FloatOps V) (owners : List (HistoryRange V))
    (hbound : ∀ range ∈ owners, range.destination + range.current.length ≤ params.length) :
    Outcome (owners.foldlM splitOwner (⟨[], params, 0⟩ : SplitParams V)) (SplitAt ops params owners) (fun _ => True) := by
  refine Outcome.foldlM (SplitAt ops params) (fun pre owner post split hl h => ?_) ?_
  · exact splitOwner_spec h (hbound owner (hl ▸ by simp))
  · exact ⟨Nat.zero_le _, rfl, .nil, by simp, ⟨rfl, by simp, by simp, by simp [copyValidatedEventIterationRanges]⟩⟩

theorem Advanced.rest {owners owners' : List (HistoryRange V)} {cursor : Nat} {params' : List V} {changed : Bool}
    (h : Advanced ops params owners cursor params' changed) (hcursor : cursor ≤ params.length)
    (hbefore : ∀ range ∈ owners, range.destination + range.current.length ≤ cursor)
    (hmem : ∀ range, range ∈ owners ↔ range ∈ owners') :
    Advanced ops params owners' params.length (params' ++ params.drop cursor) changed := by
  refine ⟨?_, ?_, ?_, ?_⟩
  · rw [List.length_append, h.length, List.length_drop]
    omega
  · intro range hr hfixed offset ho
    have hr := (hmem range).2 hr
    rw [List.getElem?_append_left (by have := hbefore range hr; rw [h.length]; omega), h.written range hr hfixed offset ho]
  · intro index _ hfree
    by_cases hc : index < cursor
    · rw [List.getElem?_append_left (h.length.symm ▸ hc),
        h.kept index hc fun range hr => hfree range ((hmem range).1 hr)]
    · rw [List.getElem?_append_right (by rw [h.length]; omega), List.getElem?_drop, h.length]
      congr 1
      omega
  · rw [h.changed_iff]
    simp only [hmem]

theorem reading_bind {α β : Type} {read : List V → Fallible α} (f : α → OnParams V β) {a : α}
    (h : read params = pure a) : (reading read >>= f).run.run params = (f a).run.run params := by
  rw [ExceptT.run_bind, StateT.run_bind]
  have hrun : (reading read).run.run params = some (.ok a, params) := by
    change (read params).run.map _ = _
    rw [h]
    rfl
  rw [hrun]
  rfl

theorem reading_throw {α β : Type} {read : List V → Fallible α} (f : α → OnParams V β) {message : String}
    (h : read params = throw message) : (reading read >>= f).run.run params = some (.error message, params) := by
  rw [ExceptT.run_bind, StateT.run_bind]
  have hrun : (reading read).run.run params = some (.error message, params) := by
    change (read params).run.map _ = _
    rw [h]
    rfl
  rw [hrun]
  rfl

/-- What `advance` answers: an error with the parameters as they were, or every fixed-point range copied. -/
theorem advance_spec (ops : FloatOps V) (hm : ContiguousPlan model) (sourceY sourceP params : List V) :
    (∃ message, (advance ops model sourceY sourceP).run.run params = some (.error message, params)) ∨
      ∃ ranges changed params', (advance ops model sourceY sourceP).run.run params = some (.ok changed, params') ∧
        List.Forall₂ (RunRange ops model sourceY sourceP params) model.discrete.runs ranges ∧
        (ranges.filterMap id).Pairwise (fun range other => ∀ index, range.Covers index → ¬other.Covers index) ∧
        Advanced ops params (ranges.filterMap id) params.length params' changed := by
  unfold advance
  rcases historyOwners_spec ops sourceY sourceP params hm with
    ⟨owners, howners, ranges, hranges, rfl⟩ | ⟨message, hfail, -⟩
  · rw [reading_bind _ howners]
    have hbounds : ∀ range ∈ ranges.filterMap id, range.destination + range.current.length ≤ params.length := by
      intro range hr
      obtain ⟨found, hfound, hid⟩ := List.mem_filterMap.1 hr
      obtain ⟨run, -, hrun⟩ := forall₂_mem_left hranges.flip hfound
      obtain rfl : found = some range := hid
      exact hrun.bound
    generalize hsorted : (ranges.filterMap id).insertionSort
      (fun range other => range.destination ≤ other.destination) = sorted
    have hperm : sorted.Perm (ranges.filterMap id) := hsorted ▸ List.perm_insertionSort ..
    rcases splitOwners_spec ops sorted fun range hr => hbounds range (hperm.mem_iff.1 hr) with
      ⟨split, hsplit, h⟩ | ⟨message, hfail, -⟩
    · refine .inr ⟨ranges, (copyValidatedEventIterationRanges ops split.ranges).2,
        joined (copyValidatedEventIterationRanges ops split.ranges).1 ++ split.remaining, ?_, hranges, ?_, ?_⟩
      · exact reading_bind _ hsplit
      · have hapart : sorted.Pairwise fun range other => ∀ index, range.Covers index → ¬other.Covers index :=
          h.apart.imp fun hle index hr ho => absurd (hr.2.trans_le hle) (Nat.not_lt.2 ho.1)
        exact (hperm.pairwise_iff fun hab index hb ha => hab index ha hb).1 hapart
      · rw [h.remaining]
        exact h.advanced.rest h.cursor_le h.before fun range => hperm.mem_iff
    · exact .inl ⟨message, reading_throw _ hfail⟩
  · exact .inl ⟨message, reading_throw _ hfail⟩

/-! ## Lanes and ranges -/

def LaneValid (ops : FloatOps V) (model : SolveModel S) (sourceY sourceP params : List V) (run : EventIterationRun)
    (lane : PreParamBinding S) : Prop :=
  ∃ storage kind value old, model.variableStorageRuns[run.position]? = some storage ∧
    storage.eventIterationKind = some kind ∧ preBindingSourceValue lane sourceY sourceP = some value ∧
    params[lane.destPIndex]? = some old ∧ eventIterationValueIsValid ops kind value = true ∧
    eventIterationValueIsValid ops kind old = true

section Lanes

variable {run : EventIterationRun} {range : HistoryRange V} (hm : ContiguousPlan model)
  (hrun : run ∈ model.discrete.runs) (h : IsHistoryRange ops model sourceY sourceP params run range)
include hm hrun h

theorem IsHistoryRange.exists_lane {offset : Nat} (ho : offset < range.current.length) :
    ∃ lane, model.preParamBindings[run.preBindingStart + offset]? = some lane ∧ IsLane model run lane ∧
      lane.destPIndex = range.destination + offset ∧
      preBindingSourceValue lane sourceY sourceP = range.current[offset]? := by
  obtain ⟨storage, first, hstorage, hcount, -, hfirst, hdest, hvalue⟩ := h.lanes
  obtain ⟨first', lane, hfirst', hlane, hlaneDest, hlaneSource⟩ :=
    hm.contiguous run hrun storage hstorage offset (hcount ▸ ho)
  obtain rfl := Option.some.inj (hfirst.symm.trans hfirst')
  refine ⟨lane, hlane, ⟨storage, offset, hstorage, hcount ▸ ho, hlane⟩, hdest ▸ hlaneDest, ?_⟩
  rw [← hvalue offset ho lane.clockSchedule, ← hlaneDest, ← hlaneSource]

theorem IsHistoryRange.lane {lane : PreParamBinding S} (hl : IsLane model run lane) :
    ∃ offset < range.current.length, lane.destPIndex = range.destination + offset ∧
      preBindingSourceValue lane sourceY sourceP = range.current[offset]? := by
  obtain ⟨storage, offset, hstorage, ho, hlane⟩ := hl
  obtain ⟨storage', first, hstorage', hcount, -⟩ := h.lanes
  obtain rfl := Option.some.inj (hstorage.symm.trans hstorage')
  obtain ⟨lane', hlane', -, hdest, hvalue⟩ := h.exists_lane hm hrun (hcount ▸ ho)
  obtain rfl := Option.some.inj (hlane.symm.trans hlane')
  exact ⟨offset, hcount ▸ ho, hdest, hvalue⟩

theorem IsHistoryRange.laneValid {lane : PreParamBinding S} (hl : IsLane model run lane) :
    LaneValid ops model sourceY sourceP params run lane := by
  obtain ⟨offset, ho, hdest, hvalue⟩ := h.lane hm hrun hl
  obtain ⟨storage, first, hstorage, -, hkind, -⟩ := h.lanes
  have hbound := h.bound
  have hold : params[range.destination + offset]? = some params[range.destination + offset] :=
    List.getElem?_eq_getElem (by omega)
  have hcurrent : range.current[offset]? = some range.current[offset] := List.getElem?_eq_getElem ho
  obtain ⟨hvalid, hvalidOld⟩ := h.valid offset _ _ hcurrent hold
  exact ⟨storage, _, _, _, hstorage, hkind, hvalue.trans hcurrent, (congrArg (params[·]?) hdest).trans hold, hvalid,
    hvalidOld⟩

end Lanes

theorem pairwise_runs {R : HistoryRange V → HistoryRange V → Prop} {runs : List EventIterationRun}
    {ranges : List (Option (HistoryRange V))}
    (hranges : List.Forall₂ (RunRange ops model sourceY sourceP params) runs ranges)
    (hapart : (ranges.filterMap id).Pairwise R) :
    runs.Pairwise fun run other => ∃ found found', RunRange ops model sourceY sourceP params run found ∧
      RunRange ops model sourceY sourceP params other found' ∧ ∀ range ∈ found, ∀ range' ∈ found', R range range' := by
  induction hranges with
  | nil => exact .nil
  | @cons run found runs ranges h hrest ih =>
    rw [List.filterMap_cons] at hapart
    have htail : (ranges.filterMap id).Pairwise R := by
      cases found with
      | none => exact hapart
      | some range => exact (List.pairwise_cons.1 hapart).2
    refine List.pairwise_cons.2 ⟨fun other ho => ?_, ih htail⟩
    obtain ⟨found', hfound', h'⟩ := forall₂_mem_left hrest ho
    refine ⟨found, found', h, h', fun range hr range' hr' => ?_⟩
    obtain rfl := Option.mem_def.1 hr
    exact (List.pairwise_cons.1 hapart).1 range' (List.mem_filterMap.2 ⟨found', hfound', hr'⟩)

theorem RunRange.covers (hm : ContiguousPlan model) {run : EventIterationRun} (hrun : run ∈ model.discrete.runs)
    {found : Option (HistoryRange V)} (h : RunRange ops model sourceY sourceP params run found)
    {lane : PreParamBinding S} (hl : IsLane model run lane) : ∃ range ∈ found, range.Covers lane.destPIndex := by
  cases found with
  | some range =>
    obtain ⟨offset, ho, hdest, -⟩ := IsHistoryRange.lane hm hrun h hl
    exact ⟨range, rfl, by rw [hdest]; omega, by rw [hdest]; omega⟩
  | none =>
    obtain ⟨-, storage, hstorage, hzero⟩ := h
    obtain ⟨storage', offset, hstorage', ho, -⟩ := hl
    obtain rfl := Option.some.inj (hstorage.symm.trans hstorage')
    omega

section Plan

variable {ranges : List (Option (HistoryRange V))}
  (hranges : List.Forall₂ (RunRange ops model sourceY sourceP params) model.discrete.runs ranges)
include hranges

theorem exists_range (hm : ContiguousPlan model) {run : EventIterationRun} (hrun : run ∈ model.discrete.runs)
    {lane : PreParamBinding S} (hl : IsLane model run lane) :
    ∃ range ∈ ranges.filterMap id, IsHistoryRange ops model sourceY sourceP params run range := by
  obtain ⟨found, hfound, h⟩ := forall₂_mem_left hranges hrun
  obtain ⟨range, rfl, -⟩ := h.covers hm hrun hl
  exact ⟨range, List.mem_filterMap.2 ⟨some range, hfound, rfl⟩, h⟩

theorem exists_run {range : HistoryRange V} (hr : range ∈ ranges.filterMap id) :
    ∃ run ∈ model.discrete.runs, IsHistoryRange ops model sourceY sourceP params run range := by
  obtain ⟨found, hfound, hid⟩ := List.mem_filterMap.1 hr
  obtain ⟨run, hrun, h⟩ := forall₂_mem_left hranges.flip hfound
  obtain rfl : found = some range := hid
  exact ⟨run, hrun, h⟩

theorem ordinary_range (hm : ContiguousPlan model) {lane : PreParamBinding S} (hl : IsOrdinaryLane model lane) :
    ∃ range ∈ ranges.filterMap id, range.fixedPoint = true ∧ ∃ offset < range.current.length,
      lane.destPIndex = range.destination + offset ∧
      preBindingSourceValue lane sourceY sourceP = range.current[offset]? := by
  obtain ⟨run, hrun, hclock, hl⟩ := hl
  obtain ⟨range, hr, h⟩ := exists_range hranges hm hrun hl
  obtain ⟨clock, hclock', hfixed⟩ := h.clock
  obtain rfl := Except.ok.inj (hclock.symm.trans hclock')
  exact ⟨range, hr, hfixed, h.lane hm hrun hl⟩

theorem range_ordinary (hm : ContiguousPlan model) {range : HistoryRange V} (hr : range ∈ ranges.filterMap id)
    (hfixed : range.fixedPoint = true) {offset : Nat} (ho : offset < range.current.length) :
    ∃ lane, IsOrdinaryLane model lane ∧ lane.destPIndex = range.destination + offset ∧
      preBindingSourceValue lane sourceY sourceP = range.current[offset]? := by
  obtain ⟨run, hrun, h⟩ := exists_run hranges hr
  obtain ⟨lane, -, hl, hdest, hvalue⟩ := h.exists_lane hm hrun ho
  obtain ⟨clock, hclock, hnone⟩ := h.clock
  obtain rfl := Option.isNone_iff_eq_none.1 (hnone.symm.trans hfixed)
  exact ⟨lane, ⟨run, hrun, hclock, hl⟩, hdest, hvalue⟩

end Plan

/-! ## Settling -/

theorem eq_self_of_valid {kind : EventIterationValueKind} {value : V}
    (h : eventIterationValueIsValid ops kind value = true) : ops.eq value value = true := by
  cases kind with
  | real => exact ops.eq_self_of_finite value h
  | integer => exact ops.eq_self_of_finite value (Bool.and_eq_true_iff.1 h).1
  | boolean =>
    rcases Bool.or_eq_true_iff.1 h with h | h
    · exact ops.eq_self_of_eq value _ h
    · exact ops.eq_self_of_eq value _ h
  | enumeration =>
    exact ops.eq_self_of_finite value (Bool.and_eq_true_iff.1 (Bool.and_eq_true_iff.1 h).1).1

theorem allM_true {α : Type} {f : α → Fallible Bool} {l : List α} (h : ∀ a ∈ l, f a = pure true) :
    l.allM f = pure true := by
  induction l with
  | nil => rfl
  | cons a l ih =>
    rw [List.allM, h a (by simp), pure_bind]
    exact ih fun b hb => h b (by simp [hb])

theorem settled_of_lanes (hm : ContiguousPlan model) (y p : List V)
    (hclock : ∀ run ∈ model.discrete.runs, ∃ clock, model.discrete.eventIterationRunClock run = .ok clock)
    (hlane : ∀ run ∈ model.discrete.runs, model.discrete.eventIterationRunClock run = .ok none → ∀ lane,
      IsLane model run lane → ∃ storage kind value, model.variableStorageRuns[run.position]? = some storage ∧
        storage.eventIterationKind = some kind ∧ eventIterationValueIsValid ops kind value = true ∧
        preBindingSourceValue lane y p = some value ∧ p[lane.destPIndex]? = some value) :
    eventIterationPlanSettled ops model y p = pure true := by
  refine allM_true fun entry he => ?_
  have hrun : entry.1 ∈ model.discrete.runs := List.fst_mem_of_mem_zipIdx he
  obtain ⟨storage, kind, hstorage, hkind⟩ := hm.typed entry.1 hrun
  obtain ⟨clock, hc⟩ := hclock entry.1 hrun
  unfold runSettled
  rw [hc]
  cases clock with
  | some clock => rfl
  | none =>
    have hordinary : (ExceptT.mk (some (.ok none)) : Fallible (Option PeriodicClockId)) = pure none := rfl
    rw [hordinary, hstorage]
    simp only [pure_bind, Option.isSome_none, Bool.false_eq_true, if_false, orPanic_some, hkind]
    refine allM_true fun offset ho => ?_
    obtain ⟨first, lane, -, hl, -⟩ := hm.contiguous entry.1 hrun storage hstorage offset (List.mem_range.1 ho)
    obtain ⟨storage', kind', value, hstorage', hkind', hvalid, hvalue, hpre⟩ :=
      hlane entry.1 hrun hc lane ⟨storage, offset, hstorage, List.mem_range.1 ho, hl⟩
    obtain rfl := Option.some.inj (hstorage.symm.trans hstorage')
    obtain rfl := Option.some.inj (hkind.symm.trans hkind')
    have hcheck : ∀ where_, validateEventIterationValue ops kind value entry.2 where_ = pure () :=
      fun _ => if_pos hvalid
    unfold laneSettled
    simp only [hl, orError_some, pure_bind, hvalue, hpre, hcheck, eq_self_of_valid hvalid]

/-- Advancing is all or nothing. It never panics; an error leaves the parameters as they were. When it
answers, every lane was in bounds and valid and no two runs shared one; every ordinary lane holds its source's
value, no other parameter changed, and the flag says whether an ordinary lane differed. The plan has then
settled, when no ordinary lane is itself a source and the parameters hold the sources that are read from `P`. -/
theorem advance_atomic (ops : FloatOps V) (model : SolveModel S) (hm : ContiguousPlan model)
    (sourceY sourceP params : List V) :
    ∃ result params',
      (advanceEventIterationPreParams ops model sourceY sourceP).run.run params = some (result, params') ∧
      (∀ message, result = .error message → params' = params) ∧
      ∀ changed, result = .ok changed →
        (∀ run ∈ model.discrete.runs, ∀ lane, IsLane model run lane →
          LaneValid ops model sourceY sourceP params run lane) ∧
        (model.discrete.runs.Pairwise fun run other => ∀ lane lane', IsLane model run lane →
          IsLane model other lane' → lane.destPIndex ≠ lane'.destPIndex) ∧
        (∀ lane, IsOrdinaryLane model lane → ∃ value,
          preBindingSourceValue lane sourceY sourceP = some value ∧ params'[lane.destPIndex]? = some value) ∧
        (∀ index, (∀ lane, IsOrdinaryLane model lane → lane.destPIndex ≠ index) → params'[index]? = params[index]?) ∧
        (changed = true ↔ ∃ lane value old, IsOrdinaryLane model lane ∧
          preBindingSourceValue lane sourceY sourceP = some value ∧ params[lane.destPIndex]? = some old ∧
          ops.eq value old = false) ∧
        ((∀ lane other, IsOrdinaryLane model lane → IsOrdinaryLane model other →
            lane.source ≠ .p other.destPIndex) →
          (∀ lane index, IsOrdinaryLane model lane → lane.source = .p index → params[index]? = sourceP[index]?) →
          eventIterationPlanSettled ops model sourceY params' = pure true) := by
  rcases advance_spec ops hm sourceY sourceP params with
    ⟨message, hrun⟩ | ⟨ranges, changed, params', hrun, hranges, hapart, h⟩
  · exact ⟨.error message, params, hrun, fun _ _ => rfl, fun _ he => nomatch he⟩
  · refine ⟨.ok changed, params', hrun, (fun _ he => nomatch he), ?_⟩
    rintro _ ⟨⟩
    have hvalid : ∀ run ∈ model.discrete.runs, ∀ lane, IsLane model run lane →
        LaneValid ops model sourceY sourceP params run lane := by
      intro run hr lane hl
      obtain ⟨range, -, hrange⟩ := exists_range hranges hm hr hl
      exact hrange.laneValid hm hr hl
    have hwritten : ∀ lane, IsOrdinaryLane model lane → ∃ value,
        preBindingSourceValue lane sourceY sourceP = some value ∧ params'[lane.destPIndex]? = some value := by
      intro lane hl
      obtain ⟨range, hr, hfixed, offset, ho, hdest, hvalue⟩ := ordinary_range hranges hm hl
      have hcurrent : range.current[offset]? = some range.current[offset] := List.getElem?_eq_getElem ho
      exact ⟨_, hvalue.trans hcurrent, by rw [hdest, h.written range hr hfixed offset ho, hcurrent]⟩
    have hkept : ∀ index, (∀ lane, IsOrdinaryLane model lane → lane.destPIndex ≠ index) →
        params'[index]? = params[index]? := by
      intro index hfree
      by_cases hi : index < params.length
      · refine h.kept index hi fun range hr hfixed hcovers => ?_
        obtain ⟨offset, rfl⟩ := Nat.exists_eq_add_of_le hcovers.1
        obtain ⟨lane, hl, hdest, -⟩ := range_ordinary hranges hm hr hfixed (Nat.lt_of_add_lt_add_left hcovers.2)
        exact hfree lane hl hdest
      · rw [List.getElem?_eq_none (Nat.not_lt.1 hi), List.getElem?_eq_none (h.length ▸ Nat.not_lt.1 hi)]
    refine ⟨hvalid, ?_, hwritten, hkept, ?_, ?_⟩
    · refine (pairwise_runs hranges hapart).imp_of_mem fun {run other} hr ho hfound lane lane' hl hl' heq => ?_
      obtain ⟨found, found', hf, hf', hapart⟩ := hfound
      obtain ⟨range, hrange, hcovers⟩ := hf.covers hm hr hl
      obtain ⟨range', hrange', hcovers'⟩ := hf'.covers hm ho hl'
      exact hapart range hrange range' hrange' _ hcovers (heq ▸ hcovers')
    · rw [h.changed_iff]
      constructor
      · rintro ⟨range, hr, hfixed, offset, value, old, hv, ho, hne⟩
        obtain ⟨lane, hl, hdest, hvalue⟩ := range_ordinary hranges hm hr hfixed (List.getElem?_eq_some_iff.1 hv).1
        exact ⟨lane, value, old, hl, hvalue.trans hv, hdest ▸ ho, hne⟩
      · rintro ⟨lane, value, old, hl, hv, ho, hne⟩
        obtain ⟨range, hr, hfixed, offset, -, hdest, hvalue⟩ := ordinary_range hranges hm hl
        exact ⟨range, hr, hfixed, offset, value, old, hvalue ▸ hv, hdest ▸ ho, hne⟩
    · intro hsource hagree
      refine settled_of_lanes hm sourceY params' ?_ ?_
      · intro run hr
        obtain ⟨found, -, hfound⟩ := forall₂_mem_left hranges hr
        cases found with
        | none => exact hfound.1
        | some range => exact hfound.clock.imp fun _ hc => hc.1
      · intro run hr hclock lane hl
        have hordinary : IsOrdinaryLane model lane := ⟨run, hr, hclock, hl⟩
        obtain ⟨storage, kind, value, old, hstorage, hkind, hvalue, -, hv, -⟩ := hvalid run hr lane hl
        obtain ⟨value', hvalue', hpre⟩ := hwritten lane hordinary
        obtain rfl := Option.some.inj (hvalue.symm.trans hvalue')
        refine ⟨storage, kind, value, hstorage, hkind, hv, ?_, hpre⟩
        rw [← hvalue]
        unfold preBindingSourceValue
        cases hs : lane.source with
        | y index => rfl
        | p index =>
          change params'[index]? = sourceP[index]?
          rw [← hagree lane index hordinary hs]
          exact hkept index fun other ho hd => hsource lane other hordinary ho (hd ▸ hs)

/-! ## One lane -/

def intOps : FloatOps Int where
  isFinite _ := true
  isIntegral _ := true
  eq value other := decide (value = other)
  atLeastOne value := decide (1 ≤ value)
  zero := 0
  one := 1
  display := toString
  eq_self_of_finite _ _ := by simp
  eq_self_of_eq _ _ _ := by simp

/-- One integer variable in parameter 1, its `pre` in parameter 0. -/
def oneLane : SolveModel Unit where
  discrete :=
    { runs := [{ position := 0, preBindingStart := 0, owner := .hold }]
      partitions := [], clockOwners := [], structuredUpdates := [], guardedAssignments := [], eventTransactions := [] }
  variableStorageRuns := [{ scalarCount := 1, role := .discreteValue, valueKind := .integer }]
  preParamBindings := [{ destPIndex := 0, source := .p 1, clockSchedule := none }]

theorem oneLane_contiguous : ContiguousPlan oneLane := by
  refine ⟨fun run hrun => ?_, fun run hrun storage hstorage offset ho => ?_⟩
  · obtain rfl := List.mem_singleton.1 hrun
    exact ⟨_, _, rfl, rfl⟩
  · obtain rfl := List.mem_singleton.1 hrun
    obtain rfl := Option.some.inj hstorage
    obtain rfl : offset = 0 := Nat.lt_one_iff.1 ho
    exact ⟨_, _, rfl, rfl, rfl, rfl⟩

theorem oneLane_ordinary {lane : PreParamBinding Unit} (h : IsOrdinaryLane oneLane lane) :
    lane = { destPIndex := 0, source := .p 1, clockSchedule := none } := by
  obtain ⟨run, hrun, -, storage, offset, hstorage, ho, hlane⟩ := h
  obtain rfl := List.mem_singleton.1 hrun
  obtain rfl := Option.some.inj hstorage
  obtain rfl : offset = 0 := Nat.lt_one_iff.1 ho
  exact (Option.some.inj hlane).symm

theorem oneLane_source {lane other : PreParamBinding Unit} (h : IsOrdinaryLane oneLane lane)
    (h' : IsOrdinaryLane oneLane other) : lane.source ≠ .p other.destPIndex := by
  rw [oneLane_ordinary h, oneLane_ordinary h']
  exact fun hs => nomatch hs

/-- From parameters that hold the sources, the plan settles. -/
theorem advance_atomic_oneLane :
    (advanceEventIterationPreParams intOps oneLane [] [5, 5]).run.run [0, 5] = some (.ok true, [5, 5]) ∧
      eventIterationPlanSettled intOps oneLane [] [5, 5] = pure true := by
  have hrun : (advanceEventIterationPreParams intOps oneLane [] [5, 5]).run.run [0, 5] = some (.ok true, [5, 5]) := by
    rfl
  obtain ⟨result, params', hrun', -, hok⟩ := advance_atomic intOps oneLane oneLane_contiguous [] [5, 5] [0, 5]
  obtain ⟨rfl, rfl⟩ := Prod.mk.inj (Option.some.inj (hrun.symm.trans hrun'))
  obtain ⟨-, -, -, -, -, hsettled⟩ := hok true rfl
  refine ⟨hrun, hsettled (fun _ _ h h' => oneLane_source h h') fun lane index h hs => ?_⟩
  rw [oneLane_ordinary h] at hs
  cases hs
  rfl

/-- Without that the plan need not settle: `pre` takes 5 from the sources, the parameters hold 3. -/
theorem unsettled_oneLane :
    ContiguousPlan oneLane ∧
      (∀ lane other, IsOrdinaryLane oneLane lane → IsOrdinaryLane oneLane other →
        lane.source ≠ .p other.destPIndex) ∧
      (advanceEventIterationPreParams intOps oneLane [] [5, 5]).run.run [0, 3] = some (.ok true, [5, 3]) ∧
      eventIterationPlanSettled intOps oneLane [] [5, 3] = pure false :=
  ⟨oneLane_contiguous, fun _ _ h h' => oneLane_source h h', rfl, rfl⟩

end Rumoca.Solver
