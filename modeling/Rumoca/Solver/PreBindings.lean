import Mathlib.Tactic
import Rumoca.Machine
import Rumoca.Lib.Loop
/-!
# Pre bindings

The `pre()` history of a model: each binding copies one source lane, of `y`
or of the parameters, into one parameter. The reference walks the bindings
one by one; `PreBindingPlan` groups them into runs and copies ranges.
-/

namespace Rumoca.Solver

open Rumoca.Lib

inductive PreParamSource where
  | y (index : Nat)
  | p (index : Nat)
deriving DecidableEq, Repr

def PreParamSource.index : PreParamSource → Nat
  | y index | p index => index

/-- One binding. `S` is the type of clock schedules. -/
structure PreParamBinding (S : Type) where
  destPIndex : Nat
  source : PreParamSource
  clockSchedule : Option S

/-- What a function with `params: &mut [f64]` does: the parameters stand also behind an error. -/
abbrev OnParams (V : Type) := ExceptT String (StateT (List V) Option)

variable {S V : Type}

/-! ## Binding by binding -/

def preBindingSourceValue (binding : PreParamBinding S) (y p : List V) : Option V :=
  match binding.source with
  | .y index => y[index]?
  | .p index => p[index]?

def reading {α : Type} (read : List V → Fallible α) : OnParams V α := ExceptT.mk fun params =>
  (read params).run.map fun result => (result, params)

def checkEventEntry (eventPreY eventPreP params : List V) (entry : PreParamBinding S × Nat) : Fallible Unit :=
  if (preBindingSourceValue entry.1 eventPreY eventPreP).isNone then
    throw s!"event-entry pre binding {entry.2} source is out of bounds"
  else if params.length ≤ entry.1.destPIndex then
    throw s!"event-entry pre binding {entry.2} destination {entry.1.destPIndex} is out of bounds"
  else pure ()

/-- `params[index] = value`; an index past the end, or no value, is a panic. -/
def writeParam (index : Nat) (value : Option V) : OnParams V Unit := ExceptT.mk fun params =>
  match value with
  | some value => if index < params.length then some (.ok (), params.set index value) else none
  | none => none

def seedEventEntryPreParams (bindings : List (PreParamBinding S)) (eventPreY eventPreP : List V) :
    OnParams V Unit := do
  let ordinary := bindings.zipIdx.filter fun entry => entry.1.clockSchedule.isNone
  reading fun params => ordinary.forM (checkEventEntry eventPreY eventPreP params)
  ordinary.forM fun entry =>
    writeParam entry.1.destPIndex (preBindingSourceValue entry.1 eventPreY eventPreP)

section Commit

variable (runtimeValueChanged : V → V → V → Bool) (periodicScheduleMatchesTime : S → V → Bool)

def shouldCommit (clockSchedule : Option S) (eventTime : Option V) : Bool :=
  match clockSchedule, eventTime with
  | none, _ | some _, none => true
  | some schedule, some eventTime => periodicScheduleMatchesTime schedule eventTime

/-- One binding's turn of the commit, from the snapshot of `P` after the event. -/
def commitBinding (y postEventParams : List V) (eventTime : Option V) (tol : V) (state : List V × Bool)
    (binding : PreParamBinding S) : List V × Bool :=
  if shouldCommit periodicScheduleMatchesTime binding.clockSchedule eventTime then
    match state.1[binding.destPIndex]?, preBindingSourceValue binding y postEventParams with
    | some slot, some value =>
      (state.1.set binding.destPIndex value, state.2 || runtimeValueChanged slot value tol)
    | _, _ => state
  else state

def commitPreParamsAfterEventAt (bindings : List (PreParamBinding S)) (y params : List V) (eventTime : Option V)
    (tol : V) : List V × Bool :=
  bindings.foldl (commitBinding runtimeValueChanged periodicScheduleMatchesTime y params eventTime tol)
    (params, false)

end Commit

/-! ## Runs -/

/-- Consecutive bindings with contiguous destinations and contiguous sources of one kind. -/
structure PreBindingRun where
  first : Nat
  len : Nat
  dest : Nat
  source : PreParamSource
  scheduled : Bool
deriving Repr

def PreBindingRun.sourceStart (run : PreBindingRun) : Nat := run.source.index

def sameKind : PreParamSource → PreParamSource → Bool
  | .y _, .y _ | .p _, .p _ => true
  | _, _ => false

def PreBindingRun.extendsWith (run : PreBindingRun) (binding : PreParamBinding S) : Bool :=
  if run.scheduled || binding.clockSchedule.isSome then false
  else
    sameKind run.source binding.source &&
      checkedUsize (run.dest + run.len) == some binding.destPIndex &&
      checkedUsize (run.sourceStart + run.len) == some binding.source.index

structure PreBindingPlan where
  runs : List PreBindingRun
  /-- Some binding reads, from `P`, another binding's destination. -/
  aliased : Bool

namespace PreBindingPlan

def pushBinding (runs : List PreBindingRun) (entry : PreParamBinding S × Nat) : List PreBindingRun :=
  let fresh : PreBindingRun :=
    { first := entry.2, len := 1, dest := entry.1.destPIndex, source := entry.1.source
      scheduled := entry.1.clockSchedule.isSome }
  match runs.getLast? with
  | some last =>
    if last.extendsWith entry.1 then runs.dropLast ++ [{ last with len := last.len + 1 }] else runs ++ [fresh]
  | none => runs ++ [fresh]

def isAliased (bindings : List (PreParamBinding S)) : Bool :=
  let destinations := bindings.map fun binding => binding.destPIndex
  bindings.any fun binding =>
    match binding.source with
    | .p index => destinations.contains index
    | .y _ => false

def new (bindings : List (PreParamBinding S)) : PreBindingPlan :=
  { runs := bindings.zipIdx.foldl pushBinding [], aliased := isAliased bindings }

end PreBindingPlan

def PreParamSource.slice (source : PreParamSource) (sourceY sourceP : List V) : List V :=
  match source with
  | .y _ => sourceY
  | .p _ => sourceP

def PreBindingRun.sourceSlice (run : PreBindingRun) (eventPreY eventPreP : List V) : List V :=
  run.source.slice eventPreY eventPreP

def checkEventEntryRun (eventPreY eventPreP params : List V) (run : PreBindingRun) : Fallible Unit :=
  let source := run.sourceSlice eventPreY eventPreP
  let sourceOk := min (source.length - run.sourceStart) run.len
  let destOk := min (params.length - run.dest) run.len
  if sourceOk < run.len ∧ sourceOk ≤ destOk then
    throw s!"event-entry pre binding {run.first + sourceOk} source is out of bounds"
  else if destOk < run.len then
    throw s!"event-entry pre binding {run.first + destOk} destination {run.dest + destOk} is out of bounds"
  else pure ()

/-- `params[dest..dest + len].copy_from_slice(&source[start..start + len])`. -/
def copyFromSlice (dest len : Nat) (source : List V) (start : Nat) : OnParams V Unit := ExceptT.mk fun params =>
  if start + len ≤ source.length ∧ dest + len ≤ params.length then
    some (.ok (), params.take dest ++ (source.drop start).take len ++ params.drop (dest + len))
  else none

def PreBindingPlan.seedEventEntry (plan : PreBindingPlan) (eventPreY eventPreP : List V) : OnParams V Unit := do
  let ordinary := plan.runs.filter fun run => !run.scheduled
  reading fun params => ordinary.forM (checkEventEntryRun eventPreY eventPreP params)
  ordinary.forM fun run =>
    copyFromSlice run.dest run.len (run.sourceSlice eventPreY eventPreP) run.sourceStart

section Commit

variable (runtimeValueChanged : V → V → V → Bool) (periodicScheduleMatchesTime : S → V → Bool)

/-- `changed |= update_slot(&mut params[index], value, tol)`; an index past the end is a panic. -/
def updateSlot (tol : V) (state : List V × Bool) (index : Nat) (value : V) : Option (List V × Bool) := do
  let slot ← state.1[index]?
  pure (state.1.set index value, state.2 || runtimeValueChanged slot value tol)

def commitLanes (params : List V) (dest : Nat) (source : List V) (start count : Nat) (tol : V) :
    Option (List V × Bool) :=
  (List.range count).foldlM (fun state offset => do
    let value ← source[start + offset]?
    updateSlot runtimeValueChanged tol state (dest + offset) value) (params, false)

def commitLanesInPlace (params : List V) (dest start count : Nat) (tol : V) : Option (List V × Bool) :=
  (List.range count).foldlM (fun state offset => do
    let value ← state.1[start + offset]?
    updateSlot runtimeValueChanged tol state (dest + offset) value) (params, false)

/-- Whether a run stands still at the event: it is scheduled and its clock does not tick. -/
def runSkipped (bindings : List (PreParamBinding S)) (eventTime : Option V) (run : PreBindingRun) : Option Bool :=
  if run.scheduled then do
    let binding ← bindings[run.first]?
    match binding.clockSchedule, eventTime with
    | some schedule, some eventTime => pure !periodicScheduleMatchesTime schedule eventTime
    | _, _ => pure false
  else pure false

def commitRun (bindings : List (PreParamBinding S)) (y : List V) (eventTime : Option V) (tol : V)
    (state : List V × Bool) (run : PreBindingRun) : Option (List V × Bool) := do
  if ← runSkipped periodicScheduleMatchesTime bindings eventTime run then pure state
  else
    let params := state.1
    let start := run.sourceStart
    let destOk := min (params.length - run.dest) run.len
    let (params, changed) ← (match run.source with
      | .y _ => commitLanes runtimeValueChanged params run.dest y start (min (y.length - start) destOk) tol
      | .p _ => commitLanesInPlace runtimeValueChanged params run.dest start (min (params.length - start) destOk) tol)
    pure (params, state.2 || changed)

/-- The parameters after the commit and whether one of them changed; `none` is a panic. -/
def PreBindingPlan.commitAfterEventAt (plan : PreBindingPlan) (bindings : List (PreParamBinding S))
    (y params : List V) (eventTime : Option V) (tol : V) : Option (List V × Bool) :=
  if plan.aliased then
    some (commitPreParamsAfterEventAt runtimeValueChanged periodicScheduleMatchesTime bindings y params eventTime tol)
  else
    plan.runs.foldlM (commitRun runtimeValueChanged periodicScheduleMatchesTime bindings y eventTime tol)
      (params, false)

end Commit

/-! ## The bindings of a run -/

def PreParamSource.shift (offset : Nat) : PreParamSource → PreParamSource
  | y index => y (index + offset)
  | p index => p (index + offset)

@[simp] theorem PreParamSource.shift_zero (source : PreParamSource) : source.shift 0 = source := by
  cases source <;> rfl

def PreBindingRun.lanes (bindings : List (PreParamBinding S)) (run : PreBindingRun) :
    List (PreParamBinding S × Nat) :=
  (List.range run.len).map fun offset =>
    (⟨run.dest + offset, run.source.shift offset, bindings[run.first]?.bind (·.clockSchedule)⟩, run.first + offset)

/-- The runs cover the bindings passed so far, in order. -/
structure Covers (bindings : List (PreParamBinding S)) (pre : List (PreParamBinding S × Nat))
    (runs : List PreBindingRun) : Prop where
  lanes : runs.flatMap (PreBindingRun.lanes bindings) = pre
  scheduled : ∀ run ∈ runs, ∃ binding, bindings[run.first]? = some binding ∧
    run.scheduled = binding.clockSchedule.isSome
  nonempty : ∀ run ∈ runs, 0 < run.len
  last : ∀ run ∈ runs.getLast?, run.first + run.len = pre.length

theorem sameKind_index {a b : PreParamSource} {offset : Nat} (hk : sameKind a b = true)
    (hi : a.index + offset = b.index) : a.shift offset = b := by
  cases a <;> cases b <;> simp_all [sameKind, PreParamSource.index, PreParamSource.shift]

theorem extendsWith_iff {run : PreBindingRun} {binding : PreParamBinding S}
    (h : run.extendsWith binding = true) :
    run.scheduled = false ∧ binding.clockSchedule = none ∧ run.dest + run.len = binding.destPIndex ∧
      run.source.shift run.len = binding.source := by
  unfold PreBindingRun.extendsWith at h
  split at h
  · cases h
  · rename_i hs
    simp only [Bool.or_eq_true, not_or, Bool.not_eq_true, Option.isSome_eq_false_iff, Option.isNone_iff_eq_none] at hs
    simp only [Bool.and_eq_true, beq_iff_eq, checkedUsize_eq_some] at h
    exact ⟨hs.1, hs.2, h.1.2.1, sameKind_index h.1.1 h.2.1⟩

theorem lanes_extend (bindings : List (PreParamBinding S)) (run : PreBindingRun) :
    PreBindingRun.lanes bindings { run with len := run.len + 1 } =
      run.lanes bindings ++ [(⟨run.dest + run.len, run.source.shift run.len,
        bindings[run.first]?.bind (·.clockSchedule)⟩, run.first + run.len)] := by
  simp [PreBindingRun.lanes, List.range_succ]

theorem Covers.push {bindings : List (PreParamBinding S)} {pre : List (PreParamBinding S × Nat)}
    {runs : List PreBindingRun} {binding : PreParamBinding S} (h : Covers bindings pre runs)
    (hb : bindings[pre.length]? = some binding) :
    Covers bindings (pre ++ [(binding, pre.length)]) (PreBindingPlan.pushBinding runs (binding, pre.length)) := by
  have hfresh : Covers bindings (pre ++ [(binding, pre.length)]) (runs ++
      [{ first := pre.length, len := 1, dest := binding.destPIndex, source := binding.source
         scheduled := binding.clockSchedule.isSome }]) := by
    refine ⟨?_, ?_, ?_, ?_⟩
    · simp [List.flatMap_append, h.lanes, PreBindingRun.lanes, hb]
    · intro run hrun
      rcases List.mem_append.1 hrun with hrun | hrun
      · exact h.scheduled run hrun
      · rw [List.mem_singleton] at hrun
        subst hrun
        exact ⟨binding, hb, rfl⟩
    · intro run hrun
      rcases List.mem_append.1 hrun with hrun | hrun
      · exact h.nonempty run hrun
      · rw [List.mem_singleton] at hrun
        subst hrun
        exact Nat.one_pos
    · simp
  unfold PreBindingPlan.pushBinding
  cases hl : runs.getLast? with
  | none => exact hfresh
  | some last =>
    by_cases he : last.extendsWith binding = true
    · simp only [he, if_true]
      obtain ⟨hs, hn, hd, hsrc⟩ := extendsWith_iff he
      have hruns : runs = runs.dropLast ++ [last] := (List.dropLast_append_getLast? last hl).symm
      obtain ⟨b, hfirst, hsched⟩ := h.scheduled last (List.mem_of_getLast? hl)
      have hlanes := h.lanes
      rw [hruns, List.flatMap_append, List.flatMap_singleton] at hlanes
      refine ⟨?_, ?_, ?_, ?_⟩
      · rw [List.flatMap_append, List.flatMap_singleton, lanes_extend, ← List.append_assoc, hlanes,
          h.last last hl, hd, hsrc, hfirst]
        have hnone : b.clockSchedule = none := by simpa [hs] using hsched.symm
        simp [hnone, ← hn]
      · intro run hrun
        rcases List.mem_append.1 hrun with hrun | hrun
        · exact h.scheduled run (List.dropLast_subset _ hrun)
        · rw [List.mem_singleton] at hrun
          subst hrun
          exact ⟨b, hfirst, hsched⟩
      · intro run hrun
        rcases List.mem_append.1 hrun with hrun | hrun
        · exact h.nonempty run (List.dropLast_subset _ hrun)
        · rw [List.mem_singleton] at hrun
          subst hrun
          exact Nat.succ_pos _
      · have := h.last last hl
        simp
        omega
    · simp only [he]
      exact hfresh

theorem covers_new (bindings : List (PreParamBinding S)) :
    Covers bindings bindings.zipIdx (PreBindingPlan.new bindings).runs := by
  refine foldl_inv (fun pre runs => Covers bindings pre runs) ?_ ⟨rfl, by simp, by simp, by simp⟩
  rintro pre ⟨binding, index⟩ post runs hl h
  have hat : bindings.zipIdx[pre.length]? = some (binding, index) := by simp [hl]
  rw [List.getElem?_zipIdx] at hat
  obtain ⟨b, hb, he⟩ := Option.map_eq_some_iff.1 hat
  obtain ⟨rfl, rfl⟩ := Prod.mk.inj he
  simpa using h.push hb

/-! ## Seeding -/

/-- The result of a check that found, or did not find, a failure. -/
def outcome : Option String → Fallible Unit
  | some message => throw message
  | none => pure ()

/-- What is wrong with one binding, when there are `count` parameters. -/
def bindingFailure (count : Nat) (eventPreY eventPreP : List V) (entry : PreParamBinding S × Nat) : Option String :=
  if (preBindingSourceValue entry.1 eventPreY eventPreP).isNone then
    some s!"event-entry pre binding {entry.2} source is out of bounds"
  else if count ≤ entry.1.destPIndex then
    some s!"event-entry pre binding {entry.2} destination {entry.1.destPIndex} is out of bounds"
  else none

theorem checkEventEntry_eq (eventPreY eventPreP params : List V) (entry : PreParamBinding S × Nat) :
    checkEventEntry eventPreY eventPreP params entry =
      outcome (bindingFailure params.length eventPreY eventPreP entry) := by
  unfold checkEventEntry bindingFailure
  split <;> [skip; split] <;> rfl

theorem forM_check {α : Type} {check : α → Fallible Unit} {failure : α → Option String} {l : List α}
    (h : ∀ a ∈ l, check a = outcome (failure a)) : l.forM check = outcome (l.findSome? failure) := by
  induction l with
  | nil => rfl
  | cons a l ih =>
    change (check a >>= fun _ => l.forM check) = _
    rw [h a (by simp), ih fun b hb => h b (by simp [hb]), List.findSome?_cons]
    cases failure a <;> rfl

theorem forM_write {α : Type} {write : α → OnParams V Unit} {effect : List V → α → List V} {l : List α} {count : Nat}
    (hlen : ∀ params a, (effect params a).length = params.length)
    (h : ∀ a ∈ l, ∀ params : List V, params.length = count →
      (write a).run.run params = some (.ok (), effect params a))
    {params : List V} (hp : params.length = count) :
    (l.forM write).run.run params = some (.ok (), l.foldl effect params) := by
  induction l generalizing params with
  | nil => rfl
  | cons a l ih =>
    have hrest := ih (fun b hb => h b (by simp [hb])) ((hlen params a).trans hp)
    change (write a >>= fun _ => l.forM write).run.run params = _
    rw [List.foldl_cons, ← hrest, ExceptT.run_bind, StateT.run_bind, h a (by simp) params hp]
    rfl

theorem findSome?_flatMap {α β γ : Type} (f : β → Option γ) (g : α → List β) (l : List α) :
    (l.flatMap g).findSome? f = l.findSome? fun a => (g a).findSome? f := by
  induction l with
  | nil => rfl
  | cons a l ih =>
    rw [List.flatMap_cons, List.findSome?_append, ih, List.findSome?_cons]
    cases (g a).findSome? f <;> rfl

def seedLane (eventPreY eventPreP params : List V) (entry : PreParamBinding S × Nat) : List V :=
  match preBindingSourceValue entry.1 eventPreY eventPreP with
  | some value => params.set entry.1.destPIndex value
  | none => params

@[simp] theorem length_seedLane (eventPreY eventPreP params : List V) (entry : PreParamBinding S × Nat) :
    (seedLane eventPreY eventPreP params entry).length = params.length := by
  unfold seedLane
  split <;> simp

@[simp] theorem length_foldl_seedLane (eventPreY eventPreP : List V) (l : List (PreParamBinding S × Nat))
    (params : List V) : (l.foldl (seedLane eventPreY eventPreP) params).length = params.length := by
  induction l generalizing params with
  | nil => rfl
  | cons a l ih => rw [List.foldl_cons, ih, length_seedLane]

theorem bindingFailure_eq_none {count : Nat} {eventPreY eventPreP : List V} {entry : PreParamBinding S × Nat} :
    bindingFailure count eventPreY eventPreP entry = none ↔
      (∃ value, preBindingSourceValue entry.1 eventPreY eventPreP = some value) ∧ entry.1.destPIndex < count := by
  unfold bindingFailure
  cases preBindingSourceValue entry.1 eventPreY eventPreP <;> simp

def seeded (entries : List (PreParamBinding S × Nat)) (eventPreY eventPreP params : List V) :
    Except String Unit × List V :=
  match entries.findSome? (bindingFailure params.length eventPreY eventPreP) with
  | some message => (.error message, params)
  | none => (.ok (), entries.foldl (seedLane eventPreY eventPreP) params)

def ordinaryEntries (bindings : List (PreParamBinding S)) : List (PreParamBinding S × Nat) :=
  bindings.zipIdx.filter fun entry => entry.1.clockSchedule.isNone

/-- A check and then writes, as `seeded`. -/
theorem checked_writes {α : Type} (lanes : α → List (PreParamBinding S × Nat)) {l : List α}
    {entries : List (PreParamBinding S × Nat)}
    {eventPreY eventPreP : List V} {check : List V → α → Fallible Unit} {write : α → OnParams V Unit}
    (hl : l.flatMap lanes = entries) {params : List V}
    (hcheck : ∀ a ∈ l, check params a =
      outcome ((lanes a).findSome? (bindingFailure params.length eventPreY eventPreP)))
    (hwrite : ∀ a ∈ l, (∀ entry ∈ lanes a, bindingFailure params.length eventPreY eventPreP entry = none) →
      ∀ params' : List V, params'.length = params.length →
        (write a).run.run params' = some (.ok (), (lanes a).foldl (seedLane eventPreY eventPreP) params')) :
    (do reading fun params => l.forM (check params)
        l.forM write : OnParams V Unit).run.run params = some (seeded entries eventPreY eventPreP params) := by
  subst hl
  have hfind : l.forM (check params) =
      outcome ((l.flatMap lanes).findSome? (bindingFailure params.length eventPreY eventPreP)) := by
    rw [forM_check hcheck, findSome?_flatMap]
  unfold seeded
  rw [ExceptT.run_bind, StateT.run_bind]
  have hread : (reading fun params => l.forM (check params) : OnParams V Unit).run.run params =
      (outcome ((l.flatMap lanes).findSome? (bindingFailure params.length eventPreY eventPreP))).run.map
        fun result => (result, params) := by
    rw [← hfind]
    rfl
  rw [hread]
  cases hf : (l.flatMap lanes).findSome? (bindingFailure params.length eventPreY eventPreP) with
  | some message => rfl
  | none =>
    have hnone : ∀ a ∈ l, ∀ entry ∈ lanes a, bindingFailure params.length eventPreY eventPreP entry = none :=
      fun a ha entry he => List.findSome?_eq_none_iff.1 hf entry (List.mem_flatMap.2 ⟨a, ha, he⟩)
    rw [List.flatMap_def, List.foldl_flatten, List.foldl_map]
    exact forM_write (fun _ _ => length_foldl_seedLane ..) (fun a ha => hwrite a ha (hnone a ha)) rfl

theorem seedEventEntryPreParams_run (bindings : List (PreParamBinding S)) (eventPreY eventPreP params : List V) :
    (seedEventEntryPreParams bindings eventPreY eventPreP).run.run params =
      some (seeded (ordinaryEntries bindings) eventPreY eventPreP params) := by
  refine checked_writes (fun entry => [entry]) (List.flatMap_singleton' _) ?_ ?_
  · intro entry _
    rw [checkEventEntry_eq, List.findSome?_singleton]
  · intro entry _ hnone params' hlen
    obtain ⟨⟨value, hvalue⟩, hdest⟩ := bindingFailure_eq_none.1 (hnone entry (by simp))
    simp only [writeParam, seedLane, hvalue, List.foldl_cons, List.foldl_nil]
    exact if_pos (hlen ▸ hdest)

theorem findSome?_range {γ : Type} {g : Nat → Option γ} {m : Nat} (hbefore : ∀ k < m, g k = none) (n : Nat)
    (hat : m < n → (g m).isSome) : (List.range n).findSome? g = if m < n then g m else none := by
  induction n with
  | zero => rfl
  | succ n ih =>
    rw [List.range_succ, List.findSome?_append, ih fun h => hat (by omega), List.findSome?_singleton]
    rcases Nat.lt_trichotomy m n with h | rfl | h
    · rw [if_pos h, if_pos (by omega), Option.or_of_isSome (hat (by omega))]
    · rw [if_neg (by omega), if_pos (by omega), Option.none_or]
    · rw [if_neg (by omega), if_neg (by omega), Option.none_or, hbefore n h]

theorem preBindingSourceValue_shift (dest : Nat) (source : PreParamSource) (offset : Nat) (clockSchedule : Option S)
    (y p : List V) :
    preBindingSourceValue ⟨dest, source.shift offset, clockSchedule⟩ y p =
      (source.slice y p)[source.index + offset]? := by
  cases source <;> rfl

theorem sourceValue_lane (run : PreBindingRun) (offset : Nat) (clockSchedule : Option S) (y p : List V) :
    preBindingSourceValue ⟨run.dest + offset, run.source.shift offset, clockSchedule⟩ y p =
      (run.sourceSlice y p)[run.sourceStart + offset]? :=
  preBindingSourceValue_shift ..

theorem checkEventEntryRun_eq (bindings : List (PreParamBinding S)) (eventPreY eventPreP params : List V)
    (run : PreBindingRun) :
    checkEventEntryRun eventPreY eventPreP params run =
      outcome ((run.lanes bindings).findSome? (bindingFailure params.length eventPreY eventPreP)) := by
  unfold checkEventEntryRun PreBindingRun.lanes
  simp only [List.findSome?_map]
  generalize hs : run.sourceSlice eventPreY eventPreP = source
  generalize hS : min (source.length - run.sourceStart) run.len = sourceOk
  generalize hD : min (params.length - run.dest) run.len = destOk
  have hfail : ∀ k, (bindingFailure params.length eventPreY eventPreP ∘ fun offset =>
      (⟨run.dest + offset, run.source.shift offset, bindings[run.first]?.bind (·.clockSchedule)⟩,
        run.first + offset)) k =
      if source.length ≤ run.sourceStart + k then
        some s!"event-entry pre binding {run.first + k} source is out of bounds"
      else if params.length ≤ run.dest + k then
        some s!"event-entry pre binding {run.first + k} destination {run.dest + k} is out of bounds"
      else none := by
    intro k
    simp only [Function.comp, bindingFailure, sourceValue_lane, hs, List.getElem?_eq_none_iff, Option.isNone_iff_eq_none]
  rw [findSome?_range (m := min sourceOk destOk)]
  all_goals simp only [hfail]
  · by_cases hsource : sourceOk < run.len ∧ sourceOk ≤ destOk
    · rw [if_pos hsource, min_eq_left hsource.2, if_pos hsource.1, if_pos (by omega)]
      rfl
    · rw [if_neg hsource]
      by_cases hdest : destOk < run.len
      · rw [if_pos hdest, min_eq_right (by omega), if_pos hdest, if_neg (by omega), if_pos (by omega)]
        rfl
      · rw [if_neg hdest, if_neg (by omega)]
        rfl
  · intro k hk
    rw [if_neg (by omega), if_neg (by omega)]
  · intro hm
    by_cases hsource : source.length ≤ run.sourceStart + min sourceOk destOk
    · rw [if_pos hsource]
      rfl
    · rw [if_neg hsource, if_pos (by omega)]
      rfl

/-- Lane by lane from `start`, what a range of `params` becomes. -/
theorem getElem?_foldl_lanes (dest start : Nat) (source params : List V) {len : Nat}
    (hs : start + len ≤ source.length) (hd : dest + len ≤ params.length) (j : Nat) :
    ((List.range len).foldl (fun params offset =>
      match source[start + offset]? with
      | some value => params.set (dest + offset) value
      | none => params) params)[j]? =
      if dest ≤ j ∧ j < dest + len then source[start + (j - dest)]? else params[j]? := by
  induction len with
  | zero => rw [if_neg (by omega)]; rfl
  | succ len ih =>
    have hsome : source[start + len]? = some source[start + len] := List.getElem?_eq_getElem (by omega)
    rw [List.range_succ, List.foldl_append, List.foldl_cons, List.foldl_nil, hsome]
    have ih := ih (by omega) (by omega)
    generalize (List.range len).foldl _ params = updated at ih ⊢
    by_cases hj : j = dest + len
    · subst hj
      rw [if_neg (by omega), List.getElem?_eq_getElem (show dest + len < params.length by omega)] at ih
      have hlt : dest + len < updated.length := (List.getElem?_eq_some_iff.1 ih).1
      rw [if_pos (by omega), List.getElem?_set_self hlt, Nat.add_sub_cancel_left, hsome]
    · rw [List.getElem?_set_ne (by omega), ih]
      by_cases hin : dest ≤ j ∧ j < dest + len
      · rw [if_pos hin, if_pos (by omega)]
      · rw [if_neg hin, if_neg (by omega)]

/-- A range of `params` copied is its lanes written one by one. -/
theorem copyFromSlice_run (bindings : List (PreParamBinding S)) (eventPreY eventPreP : List V) (run : PreBindingRun)
    {params : List V} (hs : run.sourceStart + run.len ≤ (run.sourceSlice eventPreY eventPreP).length)
    (hd : run.dest + run.len ≤ params.length) :
    (copyFromSlice run.dest run.len (run.sourceSlice eventPreY eventPreP) run.sourceStart).run.run params =
      some (.ok (), (run.lanes bindings).foldl (seedLane eventPreY eventPreP) params) := by
  unfold copyFromSlice
  have hcopy : params.take run.dest ++ ((run.sourceSlice eventPreY eventPreP).drop run.sourceStart).take run.len ++
      params.drop (run.dest + run.len) = (run.lanes bindings).foldl (seedLane eventPreY eventPreP) params := by
    refine List.ext_getElem? fun j => ?_
    unfold PreBindingRun.lanes
    simp only [List.foldl_map, seedLane, sourceValue_lane]
    rw [getElem?_foldl_lanes run.dest run.sourceStart _ params hs hd, List.append_assoc, List.getElem?_append,
      List.getElem?_append, List.length_take, List.length_take, List.length_drop, min_eq_left (by omega),
      min_eq_left (by omega), List.getElem?_take, List.getElem?_take, List.getElem?_drop, List.getElem?_drop]
    by_cases hbefore : j < run.dest
    · rw [if_pos hbefore, if_pos hbefore, if_neg (by omega)]
    · rw [if_neg hbefore]
      by_cases hin : j - run.dest < run.len
      · rw [if_pos hin, if_pos hin, if_pos (by omega)]
      · rw [if_neg hin, if_neg (by omega)]
        congr 1
        omega
  rw [← hcopy]
  exact if_pos ⟨hs, hd⟩

theorem Covers.ordinary {bindings : List (PreParamBinding S)} {entries : List (PreParamBinding S × Nat)}
    {runs : List PreBindingRun} (h : Covers bindings entries runs) :
    (runs.filter fun run => !run.scheduled).flatMap (PreBindingRun.lanes bindings) =
      entries.filter fun entry => entry.1.clockSchedule.isNone := by
  rw [← h.lanes, List.filter_flatMap]
  have hscheduled := h.scheduled
  clear h
  induction runs with
  | nil => rfl
  | cons run runs ih =>
    obtain ⟨binding, hb, hs⟩ := hscheduled run (by simp)
    have hlane : (bindings[run.first]?.bind (·.clockSchedule)).isNone = !run.scheduled := by
      rw [hb, hs, Option.bind_some, Option.not_isSome]
    rw [List.flatMap_cons, ← ih fun r hr => hscheduled r (by simp [hr])]
    cases hrun : run.scheduled <;>
      simp [hrun, PreBindingRun.lanes, List.filter_map, Function.comp_def, hlane]

theorem seedEventEntry_run (bindings : List (PreParamBinding S)) (eventPreY eventPreP params : List V) :
    ((PreBindingPlan.new bindings).seedEventEntry eventPreY eventPreP).run.run params =
      some (seeded (ordinaryEntries bindings) eventPreY eventPreP params) := by
  refine checked_writes (PreBindingRun.lanes bindings) (covers_new bindings).ordinary ?_ ?_
  · exact fun run _ => checkEventEntryRun_eq bindings eventPreY eventPreP params run
  · intro run _ hnone params' hlen
    have hpos := (covers_new bindings).nonempty run (List.mem_of_mem_filter ‹_›)
    have hlast : bindingFailure params.length eventPreY eventPreP
        (⟨run.dest + (run.len - 1), run.source.shift (run.len - 1), bindings[run.first]?.bind (·.clockSchedule)⟩,
          run.first + (run.len - 1)) = none :=
      hnone _ (List.mem_map.2 ⟨run.len - 1, List.mem_range.2 (by omega), rfl⟩)
    obtain ⟨⟨value, hvalue⟩, hdest⟩ := bindingFailure_eq_none.1 hlast
    rw [sourceValue_lane] at hvalue
    have hsource := (List.getElem?_eq_some_iff.1 hvalue).1
    exact copyFromSlice_run bindings eventPreY eventPreP run (by omega) (by simp only at hdest; omega)

/-! ## Committing -/

theorem foldlM_eq_foldl {α σ : Type} {f : σ → α → Option σ} {g : σ → α → σ} {l : List α} (Inv : σ → Prop)
    (h : ∀ a ∈ l, ∀ s, Inv s → f s a = some (g s a) ∧ Inv (g s a)) {s : σ} (hs : Inv s) :
    l.foldlM f s = some (l.foldl g s) ∧ Inv (l.foldl g s) := by
  induction l generalizing s with
  | nil => exact ⟨rfl, hs⟩
  | cons a l ih =>
    obtain ⟨hf, hg⟩ := h a (by simp) s hs
    rw [List.foldlM_cons, hf]
    exact ih (fun b hb => h b (by simp [hb])) hg

theorem foldl_range_stop {σ : Type} {f : σ → Nat → σ} {s : σ} {count n : Nat} (hle : count ≤ n)
    (h : ∀ k, count ≤ k → k < n → f ((List.range count).foldl f s) k = (List.range count).foldl f s) :
    (List.range n).foldl f s = (List.range count).foldl f s := by
  induction n, hle using Nat.le_induction with
  | base => rfl
  | succ n hn ih =>
    rw [List.range_succ, List.foldl_append, ih fun k hk hkn => h k hk (by omega)]
    exact h n hn (by omega)

section Commit

variable (runtimeValueChanged : V → V → V → Bool) (periodicScheduleMatchesTime : S → V → Bool)

/-- One lane's turn: the write and the change flag, when slot and value both exist. -/
def commitLane (tol : V) (state : List V × Bool) (index : Nat) (value : Option V) : List V × Bool :=
  match state.1[index]?, value with
  | some slot, some value => (state.1.set index value, state.2 || runtimeValueChanged slot value tol)
  | _, _ => state

theorem commitBinding_eq (y snapshot : List V) (eventTime : Option V) (tol : V) (state : List V × Bool)
    (binding : PreParamBinding S) :
    commitBinding runtimeValueChanged periodicScheduleMatchesTime y snapshot eventTime tol state binding =
      if shouldCommit periodicScheduleMatchesTime binding.clockSchedule eventTime then
        commitLane runtimeValueChanged tol state binding.destPIndex (preBindingSourceValue binding y snapshot)
      else state := rfl

variable {runtimeValueChanged} {periodicScheduleMatchesTime} {tol : V}

theorem length_commitLane (state : List V × Bool) (index : Nat) (value : Option V) :
    (commitLane runtimeValueChanged tol state index value).1.length = state.1.length := by
  unfold commitLane
  split <;> simp

theorem commitLane_of_none {state : List V × Bool} {index : Nat} {value : Option V}
    (h : state.1.length ≤ index ∨ value = none) : commitLane runtimeValueChanged tol state index value = state := by
  unfold commitLane
  split
  · rename_i slot v hslot
    rcases h with h | h
    · rw [List.getElem?_eq_none h] at hslot
      cases hslot
    · cases h
  · rfl

theorem getElem?_commitLane {state : List V × Bool} {index j : Nat} (h : index ≠ j) (value : Option V) :
    (commitLane runtimeValueChanged tol state index value).1[j]? = state.1[j]? := by
  unfold commitLane
  split
  · exact List.getElem?_set_ne h
  · rfl

/-- The flag of a pass that starts from `changed`. -/
theorem foldl_commitLane_changed (index : Nat → Nat) (value : Nat → Option V) (l : List Nat) (params : List V)
    (changed : Bool) :
    l.foldl (fun state k => commitLane runtimeValueChanged tol state (index k) (value k)) (params, changed) =
      ((l.foldl (fun state k => commitLane runtimeValueChanged tol state (index k) (value k)) (params, false)).1,
        changed || (l.foldl (fun state k => commitLane runtimeValueChanged tol state (index k) (value k))
          (params, false)).2) := by
  induction l generalizing params changed with
  | nil => simp
  | cons k l ih =>
    have hstep : ∀ changed, commitLane runtimeValueChanged tol (params, changed) (index k) (value k) =
        ((commitLane runtimeValueChanged tol (params, false) (index k) (value k)).1,
          changed || (commitLane runtimeValueChanged tol (params, false) (index k) (value k)).2) := by
      intro changed
      unfold commitLane
      cases params[index k]? <;> cases value k <;> simp
    rw [List.foldl_cons, hstep, ih, List.foldl_cons]
    conv_rhs => rw [hstep false, ih]
    simp [Bool.or_assoc]

/-- The lanes `0..count` of a run, committed from `source`. -/
def committedLanes (runtimeValueChanged : V → V → V → Bool) (tol : V) (dest : Nat) (source : List V)
    (start count : Nat) (state : List V × Bool) : List V × Bool :=
  (List.range count).foldl (fun state offset =>
    commitLane runtimeValueChanged tol state (dest + offset) source[start + offset]?) state

theorem updateSlot_eq {state : List V × Bool} {index : Nat} (h : index < state.1.length) (value : V) :
    updateSlot runtimeValueChanged tol state index value =
      some (commitLane runtimeValueChanged tol state index (some value)) := by
  unfold updateSlot commitLane
  rw [List.getElem?_eq_getElem h]
  rfl

theorem commitLanes_eq {params source : List V} {dest start count : Nat}
    (hsource : ∀ k < count, start + k < source.length) (hdest : ∀ k < count, dest + k < params.length) :
    commitLanes runtimeValueChanged params dest source start count tol =
      some (committedLanes runtimeValueChanged tol dest source start count (params, false)) := by
  refine (foldlM_eq_foldl (fun state => state.1.length = params.length) ?_ rfl).1
  intro k hk state hlen
  have hk := List.mem_range.1 hk
  rw [List.getElem?_eq_getElem (hsource k hk)]
  exact ⟨updateSlot_eq (hlen ▸ hdest k hk) _, (length_commitLane ..).trans hlen⟩

theorem commitLanesInPlace_eq {params source : List V} {dest start count : Nat}
    (hsource : ∀ k < count, start + k < source.length) (hdest : ∀ k < count, dest + k < params.length)
    (hread : ∀ k < count, params[start + k]? = source[start + k]?)
    (hapart : ∀ j < count, ∀ k < count, dest + j ≠ start + k) :
    commitLanesInPlace runtimeValueChanged params dest start count tol =
      some (committedLanes runtimeValueChanged tol dest source start count (params, false)) := by
  refine (foldlM_eq_foldl (fun state => state.1.length = params.length ∧
    ∀ k < count, state.1[start + k]? = source[start + k]?) ?_ ⟨rfl, hread⟩).1
  rintro j hj state ⟨hlen, hread⟩
  have hj := List.mem_range.1 hj
  rw [hread j hj, List.getElem?_eq_getElem (hsource j hj)]
  refine ⟨updateSlot_eq (hlen ▸ hdest j hj) _, (length_commitLane ..).trans hlen, fun k hk => ?_⟩
  rw [getElem?_commitLane (hapart j hj k hk), hread k hk]

theorem runSkipped_eq {bindings : List (PreParamBinding S)} {run : PreBindingRun} {binding : PreParamBinding S}
    (hb : bindings[run.first]? = some binding) (hs : run.scheduled = binding.clockSchedule.isSome)
    (eventTime : Option V) :
    runSkipped periodicScheduleMatchesTime bindings eventTime run =
      some !shouldCommit periodicScheduleMatchesTime binding.clockSchedule eventTime := by
  unfold runSkipped shouldCommit
  rw [hs, hb]
  cases hc : binding.clockSchedule <;> cases eventTime <;> simp [hc]

theorem foldl_lanes {bindings : List (PreParamBinding S)} {run : PreBindingRun} {binding : PreParamBinding S}
    (hb : bindings[run.first]? = some binding) (y snapshot : List V) (eventTime : Option V)
    (state : List V × Bool) :
    (run.lanes bindings).foldl (fun state entry =>
        commitBinding runtimeValueChanged periodicScheduleMatchesTime y snapshot eventTime tol state entry.1) state =
      if shouldCommit periodicScheduleMatchesTime binding.clockSchedule eventTime then
        committedLanes runtimeValueChanged tol run.dest (run.sourceSlice y snapshot) run.sourceStart run.len state
      else state := by
  unfold PreBindingRun.lanes committedLanes
  simp only [List.foldl_map, commitBinding_eq, sourceValue_lane, hb, Option.bind_some]
  split
  · rfl
  · exact List.foldl_fixed' (fun _ => rfl) _

theorem length_committedLanes (dest : Nat) (source : List V) (start count : Nat) (state : List V × Bool) :
    (committedLanes runtimeValueChanged tol dest source start count state).1.length = state.1.length := by
  unfold committedLanes
  induction count with
  | zero => rfl
  | succ count ih => rw [List.range_succ, List.foldl_append, List.foldl_cons, List.foldl_nil, length_commitLane, ih]

theorem committedLanes_stop (dest : Nat) (source : List V) (start len : Nat) (state : List V × Bool) :
    committedLanes runtimeValueChanged tol dest source start len state =
      committedLanes runtimeValueChanged tol dest source start
        (min (source.length - start) (min (state.1.length - dest) len)) state := by
  refine foldl_range_stop (by omega) fun k hk _ => commitLane_of_none ?_
  have hlen : (committedLanes runtimeValueChanged tol dest source start
    (min (source.length - start) (min (state.1.length - dest) len)) state).1.length = _ := length_committedLanes ..
  unfold committedLanes at hlen
  rw [hlen, List.getElem?_eq_none_iff]
  omega

theorem commitRun_eq {bindings : List (PreParamBinding S)} {run : PreBindingRun} {binding : PreParamBinding S}
    (hb : bindings[run.first]? = some binding) (hs : run.scheduled = binding.clockSchedule.isSome)
    {y snapshot : List V} {state : List V × Bool} (hlen : state.1.length = snapshot.length)
    (hread : ∀ start, run.source = .p start → ∀ k < run.len, state.1[start + k]? = snapshot[start + k]?)
    (hapart : ∀ start, run.source = .p start → ∀ j < run.len, ∀ k < run.len, run.dest + j ≠ start + k)
    (eventTime : Option V) :
    commitRun runtimeValueChanged periodicScheduleMatchesTime bindings y eventTime tol state run =
      some ((run.lanes bindings).foldl (fun state entry =>
        commitBinding runtimeValueChanged periodicScheduleMatchesTime y snapshot eventTime tol state entry.1)
        state) := by
  rw [foldl_lanes hb]
  unfold commitRun
  rw [runSkipped_eq hb hs]
  cases shouldCommit periodicScheduleMatchesTime binding.clockSchedule eventTime with
  | false => rfl
  | true =>
    rw [if_pos rfl, committedLanes_stop]
    generalize hcount : min ((run.sourceSlice y snapshot).length - run.sourceStart)
      (min (state.1.length - run.dest) run.len) = count
    have hlanes : (match run.source with
        | .y _ => commitLanes runtimeValueChanged state.1 run.dest y run.sourceStart
          (min (y.length - run.sourceStart) (min (state.1.length - run.dest) run.len)) tol
        | .p _ => commitLanesInPlace runtimeValueChanged state.1 run.dest run.sourceStart
          (min (state.1.length - run.sourceStart) (min (state.1.length - run.dest) run.len)) tol) =
        some (committedLanes runtimeValueChanged tol run.dest (run.sourceSlice y snapshot) run.sourceStart count
          (state.1, false)) := by
      unfold PreBindingRun.sourceStart PreBindingRun.sourceSlice PreParamSource.slice at *
      cases hsource : run.source with
      | y start =>
        simp only [hsource, PreParamSource.index] at hcount ⊢
        rw [hcount]
        exact commitLanes_eq (fun k hk => by omega) (fun k hk => by omega)
      | p start =>
        simp only [hsource, PreParamSource.index] at hcount ⊢
        rw [hlen] at hcount ⊢
        rw [hcount]
        exact commitLanesInPlace_eq (fun k hk => by omega) (fun k hk => by omega)
          (fun k hk => hread start hsource k (by omega))
          (fun j hj k hk => hapart start hsource j (by omega) k (by omega))
    simp only [Option.bind_eq_bind, Option.bind_some, Bool.not_true, Bool.false_eq_true, if_false, hlanes]
    rw [committedLanes, committedLanes, foldl_commitLane_changed _ _ _ state.1 state.2]
    rfl

theorem isAliased_eq_false {bindings : List (PreParamBinding S)} (h : PreBindingPlan.isAliased bindings = false)
    {binding other : PreParamBinding S} (hb : binding ∈ bindings) (ho : other ∈ bindings) {index : Nat}
    (hs : binding.source = .p index) : other.destPIndex ≠ index := by
  unfold PreBindingPlan.isAliased at h
  have hbinding := List.any_eq_false.1 h binding hb
  rw [hs] at hbinding
  rintro rfl
  exact hbinding (List.contains_iff_mem.2 (List.mem_map.2 ⟨other, ho, rfl⟩))

theorem Covers.lane_mem {bindings : List (PreParamBinding S)} {runs : List PreBindingRun}
    (h : Covers bindings bindings.zipIdx runs) {run : PreBindingRun} (hrun : run ∈ runs)
    {entry : PreParamBinding S × Nat} (he : entry ∈ run.lanes bindings) : entry.1 ∈ bindings := by
  have hmem : entry ∈ bindings.zipIdx := h.lanes ▸ List.mem_flatMap.2 ⟨run, hrun, he⟩
  exact List.fst_mem_of_mem_zipIdx hmem

theorem commitAfterEventAt_eq (bindings : List (PreParamBinding S)) (y params : List V) (eventTime : Option V) :
    (PreBindingPlan.new bindings).commitAfterEventAt runtimeValueChanged periodicScheduleMatchesTime bindings y
        params eventTime tol =
      some (commitPreParamsAfterEventAt runtimeValueChanged periodicScheduleMatchesTime bindings y params eventTime
        tol) := by
  unfold PreBindingPlan.commitAfterEventAt
  cases ha : (PreBindingPlan.new bindings).aliased with
  | true => rfl
  | false =>
    rw [if_neg (by simp)]
    have hc := covers_new bindings
    have hmap : bindings.zipIdx.map Prod.fst = bindings := List.zipIdx_map_fst ..
    unfold commitPreParamsAfterEventAt
    conv_rhs => rw [← hmap, List.foldl_map, ← hc.lanes, List.foldl_flatMap]
    refine (foldlM_eq_foldl (fun state => state.1.length = params.length ∧
      ∀ binding ∈ bindings, ∀ index, binding.source = .p index → state.1[index]? = params[index]?) ?_
      ⟨rfl, fun _ _ _ _ => rfl⟩).1
    rintro run hrun state ⟨hlen, hread⟩
    obtain ⟨binding, hb, hs⟩ := hc.scheduled run hrun
    have hlane : ∀ k < run.len, ∃ b ∈ bindings, b.destPIndex = run.dest + k ∧ b.source = run.source.shift k :=
      fun k hk => ⟨_, hc.lane_mem hrun (List.mem_map.2 ⟨k, List.mem_range.2 hk, rfl⟩), rfl, rfl⟩
    refine ⟨commitRun_eq hb hs hlen ?_ ?_ eventTime, ?_⟩
    · intro start hsource k hk
      obtain ⟨b, hmem, _, hbs⟩ := hlane k hk
      exact hread b hmem _ (by rw [hbs, hsource]; rfl)
    · intro start hsource j hj k hk
      obtain ⟨b, hmem, _, hbs⟩ := hlane k hk
      obtain ⟨c, hcmem, hcd, _⟩ := hlane j hj
      rw [← hcd]
      exact isAliased_eq_false ha hmem hcmem (by rw [hbs, hsource]; rfl)
    · refine foldl_inv (fun _ (state : List V × Bool) => state.1.length = params.length ∧
        ∀ binding ∈ bindings, ∀ index, binding.source = .p index → state.1[index]? = params[index]?) ?_
        ⟨hlen, hread⟩
      rintro pre entry post state hl ⟨hlen, hread⟩
      have hmem : entry.1 ∈ bindings := hc.lane_mem hrun (hl ▸ by simp)
      rw [commitBinding_eq]
      split
      · refine ⟨(length_commitLane ..).trans hlen, fun b hb index hs => ?_⟩
        rw [getElem?_commitLane (isAliased_eq_false ha hb hmem hs), hread b hb index hs]
      · exact ⟨hlen, hread⟩

end Commit

/-- The plan of a list of bindings seeds and commits as the walk over the bindings does. A seeding that
fails writes nothing, and nothing panics. -/
theorem preBindingPlan_agrees (runtimeValueChanged : V → V → V → Bool)
    (periodicScheduleMatchesTime : S → V → Bool) (bindings : List (PreParamBinding S))
    (y p params : List V) (eventTime : Option V) (tol : V) :
    ((PreBindingPlan.new bindings).seedEventEntry y p).run.run params =
        (seedEventEntryPreParams bindings y p).run.run params ∧
      (∃ result params', (seedEventEntryPreParams bindings y p).run.run params = some (result, params') ∧
        ∀ message, result = .error message → params' = params) ∧
      (PreBindingPlan.new bindings).commitAfterEventAt runtimeValueChanged periodicScheduleMatchesTime bindings y
          params eventTime tol =
        some (commitPreParamsAfterEventAt runtimeValueChanged periodicScheduleMatchesTime bindings y params eventTime
          tol) := by
  refine ⟨?_, ?_, commitAfterEventAt_eq bindings y params eventTime⟩
  · rw [seedEventEntry_run, seedEventEntryPreParams_run]
  · refine ⟨(seeded (ordinaryEntries bindings) y p params).1, (seeded (ordinaryEntries bindings) y p params).2,
      seedEventEntryPreParams_run bindings y p params, fun message he => ?_⟩
    unfold seeded at he ⊢
    split at he
    · rfl
    · cases he

end Rumoca.Solver
