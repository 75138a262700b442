import Rumoca.Lib.DependencyOrder
import Rumoca.Lib.Loop
/-!
# The elimination order of definition candidates

A candidate is ready once every prerequisite has been eliminated. The heap
order counts the prerequisites that are left and takes the lowest ready
candidate from a heap; its specification looks for the lowest ready candidate
from the start each time. `none` is an index out of bounds or an underflow.
-/

namespace Rumoca.Structural

open Rumoca.Lib

/-! ## The heap order -/

/-- `BinaryHeap<Reverse<usize>>::pop`, on the entries in any order. -/
def popLeast (heap : List Nat) : Option (Nat × List Nat) := heap.min?.map fun least => (least, heap.erase least)

structure EliminationState where
  remaining : List Nat
  ready : List Nat
  order : List Nat

/-- `dependents[dependency].push(candidate)`. -/
def pushDependent (candidate : Nat) (dependents : List (List Nat)) (dependency : Nat) : Option (List (List Nat)) := do
  let entries ← dependents[dependency]?
  pure (dependents.set dependency (entries ++ [candidate]))

/-- The candidates under each of their prerequisites, once for each time it is listed. -/
def dependentsOf (prerequisites : List (List Nat)) : Option (List (List Nat)) :=
  prerequisites.zipIdx.foldlM (fun dependents (dependencies, candidate) =>
    dependencies.foldlM (pushDependent candidate) dependents) (List.replicate prerequisites.length [])

/-- One prerequisite of `dependent` is eliminated. -/
def releaseDependent (s : EliminationState) (dependent : Nat) : Option EliminationState := do
  let count ← s.remaining[dependent]?
  if count = 0 then none
  else
    pure { s with
      remaining := s.remaining.set dependent (count - 1)
      ready := if count - 1 = 0 then dependent :: s.ready else s.ready }

def eliminationTurn (dependents : List (List Nat)) (s : EliminationState) :
    Option (Ctl EliminationState (List Nat)) :=
  match popLeast s.ready with
  | none => some (.done s.order)
  | some (candidate, ready) => do
    let released ← dependents[candidate]?
    let s ← released.foldlM releaseDependent { s with ready, order := s.order ++ [candidate] }
    pure (.next s)

def initialReady (prerequisites : List (List Nat)) : List Nat :=
  (List.range prerequisites.length).filter fun candidate => prerequisites[candidate]? = some []

def eliminationOrder (prerequisites : List (List Nat)) : Option (List Nat) := do
  let dependents ← dependentsOf prerequisites
  loop (eliminationTurn dependents) (prerequisites.length + 1)
    ⟨prerequisites.map List.length, initialReady prerequisites, []⟩

/-! ## The first ready candidate -/

def IsReady (prerequisites : List (List Nat)) (chosen : List Nat) (candidate : Nat) : Prop :=
  candidate ∉ chosen ∧ ∀ dependency ∈ prerequisites.getD candidate [], dependency ∈ chosen

instance (prerequisites : List (List Nat)) (chosen : List Nat) (candidate : Nat) :
    Decidable (IsReady prerequisites chosen candidate) :=
  inferInstanceAs (Decidable (_ ∧ _))

def firstReadyTurn (prerequisites : List (List Nat)) (chosen : List Nat) : Option (Ctl (List Nat) (List Nat)) :=
  match (List.range prerequisites.length).find? (IsReady prerequisites chosen ·) with
  | some next => some (.next (chosen ++ [next]))
  | none => some (.done chosen)

def firstReadyOrder (prerequisites : List (List Nat)) : Option (List Nat) :=
  loop (firstReadyTurn prerequisites) (prerequisites.length + 1) []

/-! ## The candidates of the definitions -/

def targetPosition (targets : List Nat) (target : Nat) : Option Nat :=
  ((targets.zipIdx.reverse).find? (·.1 = target)).map (·.2)

def candidatePrerequisites (targets : List Nat) (dependencies : Nat → Option (List Nat)) : Option (List (List Nat)) :=
  targets.mapM fun target => (dependencies target).map fun algebraic => algebraic.filterMap (targetPosition targets)

/-- `candidate_order`: `dependencies` gives the algebraic variables that each target reads, in the order of the set. -/
def candidateOrder (targets : List Nat) (dependencies : Nat → Option (List Nat)) : Option (List Nat) := do
  let prerequisites ← candidatePrerequisites targets dependencies
  eliminationOrder prerequisites

/-! ## The dependents -/

theorem pushDependent_spec {n : Nat} {t : List (List Nat)} (hlen : t.length = n) (candidate : Nat) {deps : List Nat}
    (hdeps : ∀ d ∈ deps, d < n) :
    ∃ t', deps.foldlM (pushDependent candidate) t = some t' ∧ t'.length = n ∧
      ∀ d c, (t'.getD d []).count c = (t.getD d []).count c + if c = candidate then deps.count d else 0 := by
  refine foldlM_spec (f := pushDependent candidate) (l := deps)
    (fun passed (t' : List (List Nat)) => t'.length = n ∧
      ∀ d c, (t'.getD d []).count c = (t.getD d []).count c + if c = candidate then passed.count d else 0)
    (fun passed dependency rest t' hl ht => ?_) ⟨hlen, fun d c => by simp⟩
  have hlt : dependency < t'.length := ht.1 ▸ hdeps dependency (by rw [hl]; simp)
  refine ⟨t'.set dependency (t'[dependency] ++ [candidate]), ?_, by rw [List.length_set, ht.1], fun d c => ?_⟩
  · simp only [pushDependent, List.getElem?_eq_getElem hlt, Option.bind_eq_bind, Option.bind_some]
    rfl
  · have hold := ht.2 d c
    rw [List.count_append, List.getD_eq_getElem?_getD, List.getElem?_set]
    rw [List.getD_eq_getElem?_getD] at hold
    by_cases hd : dependency = d
    · subst hd
      rw [List.getElem?_eq_getElem hlt, Option.getD_some] at hold
      rw [if_pos rfl, if_pos hlt, Option.getD_some, List.count_append, hold, List.count_singleton_self,
        List.count_singleton]
      by_cases hc : c = candidate
      · simp [hc, Nat.add_assoc]
      · simp [hc, Ne.symm hc]
    · rw [if_neg hd, hold, List.count_singleton]
      simp [hd]

theorem dependentsOf_spec {prerequisites : List (List Nat)}
    (hin : ∀ deps ∈ prerequisites, ∀ d ∈ deps, d < prerequisites.length) :
    ∃ dependents, dependentsOf prerequisites = some dependents ∧ dependents.length = prerequisites.length ∧
      ∀ d c, (dependents.getD d []).count c = (prerequisites.getD c []).count d := by
  obtain ⟨t, hrun, hlen, hcount⟩ := foldlM_spec (l := prerequisites.zipIdx) (s := List.replicate prerequisites.length [])
    (f := fun (t : List (List Nat)) (p : List Nat × Nat) => p.1.foldlM (pushDependent p.2) t)
    (fun passed (t : List (List Nat)) => t.length = prerequisites.length ∧
      ∀ d c, (t.getD d []).count c = ((passed.map (·.1)).getD c []).count d)
    (fun passed p rest t hl ⟨hlen, hcount⟩ => by
      have hp : prerequisites.zipIdx[passed.length]? = some p := by rw [hl]; simp
      rw [List.getElem?_zipIdx] at hp
      obtain ⟨deps, hdeps, rfl⟩ := Option.map_eq_some_iff.1 hp
      obtain ⟨t', hrun, hlen', hcount'⟩ := pushDependent_spec hlen (0 + passed.length)
        (hin deps (List.mem_of_getElem? hdeps))
      refine ⟨t', hrun, hlen', fun d c => ?_⟩
      rw [hcount' d c, hcount d c, Nat.zero_add, List.map_append, List.getD_eq_getElem?_getD,
        List.getD_eq_getElem?_getD]
      rcases Nat.lt_trichotomy c passed.length with hc | rfl | hc
      · rw [List.getElem?_append_left (by simpa using hc), if_neg hc.ne, Nat.add_zero]
      · rw [List.getElem?_append_right (by simp)]
        simp
      · rw [List.getElem?_eq_none (by simp; omega), List.getElem?_eq_none (by simp; omega), if_neg hc.ne']
        rfl)
    ⟨List.length_replicate, fun d c => by
      have : (List.replicate prerequisites.length ([] : List Nat)).getD d [] = [] := by
        rw [List.getD_eq_getElem?_getD, List.getElem?_replicate]
        split <;> rfl
      rw [this]
      rfl⟩
  rw [List.zipIdx_map_fst] at hcount
  exact ⟨t, hrun, hlen, hcount⟩

/-! ## One turn -/

/-- Eliminating the dependents `released`: their counts fall, and those that reach zero become ready. -/
theorem releaseDependents_spec {s : EliminationState} {released : List Nat}
    (hcount : ∀ c ∈ released, c < s.remaining.length ∧ released.count c ≤ s.remaining.getD c 0)
    (hready : ∀ c ∈ s.ready, c ∉ released) (hnodup : s.ready.Nodup) :
    ∃ s', released.foldlM releaseDependent s = some s' ∧ s'.order = s.order ∧
      s'.remaining.length = s.remaining.length ∧
      (∀ c, s'.remaining.getD c 0 = s.remaining.getD c 0 - released.count c) ∧ s'.ready.Nodup ∧
      ∀ c, c ∈ s'.ready ↔ c ∈ s.ready ∨ (c ∈ released ∧ s.remaining.getD c 0 = released.count c) := by
  refine foldlM_spec (f := releaseDependent) (l := released) (fun passed (t : EliminationState) => t.order = s.order ∧
      t.remaining.length = s.remaining.length ∧
      (∀ c, t.remaining.getD c 0 = s.remaining.getD c 0 - passed.count c) ∧ t.ready.Nodup ∧
      ∀ c, c ∈ t.ready ↔ c ∈ s.ready ∨ (c ∈ passed ∧ s.remaining.getD c 0 = passed.count c))
    (fun passed a rest t hl ⟨horder, hlen, hrem, hnd, hmem⟩ => ?_) ⟨rfl, rfl, fun c => by simp, hnodup, fun c => by simp⟩
  obtain ⟨hlt, hle⟩ := hcount a (by rw [hl]; simp)
  -- the count of `a` has not reached zero before this turn
  have hpos : passed.count a < s.remaining.getD a 0 := by
    have : released.count a = passed.count a + (rest.count a + 1) := by
      rw [hl, List.count_append, List.count_cons_self]
    omega
  have hget : t.remaining[a]? = some (s.remaining.getD a 0 - passed.count a) := by
    rw [← hrem a, List.getD_eq_getElem?_getD, List.getElem?_eq_getElem (hlen ▸ hlt), Option.getD_some]
  have hfresh : a ∉ t.ready := by
    rw [hmem]
    rintro (h | ⟨-, h⟩)
    · exact hready a h (by rw [hl]; simp)
    · omega
  refine ⟨{ t with
    remaining := t.remaining.set a (s.remaining.getD a 0 - passed.count a - 1)
    ready := if s.remaining.getD a 0 - passed.count a - 1 = 0 then a :: t.ready else t.ready }, ?_, horder,
    by rw [List.length_set, hlen], fun c => ?_, ?_, fun c => ?_⟩
  · simp only [releaseDependent, hget, Option.bind_eq_bind, Option.bind_some, if_neg (by omega :
      s.remaining.getD a 0 - passed.count a ≠ 0)]
    rfl
  · rw [List.getD_eq_getElem?_getD, List.getElem?_set, List.count_append, List.count_singleton]
    by_cases hc : a = c
    · subst hc
      rw [if_pos rfl, if_pos (hlen ▸ hlt), Option.getD_some, beq_self_eq_true, if_pos rfl]
      omega
    · rw [if_neg hc, ← List.getD_eq_getElem?_getD, hrem c, if_neg (by simpa using hc), Nat.add_zero]
  · split
    · exact List.nodup_cons.2 ⟨hfresh, hnd⟩
    · exact hnd
  · rw [List.count_append, List.count_singleton, List.mem_append, List.mem_singleton]
    by_cases hc : a = c
    · subst hc
      have hnot : a ∉ s.ready := fun h => hready a h (by rw [hl]; simp)
      rw [beq_self_eq_true, if_pos rfl]
      split
      · simp only [List.mem_cons, true_or, or_true, true_and, true_iff]
        right
        omega
      · refine iff_of_false hfresh ?_
        rintro (h | ⟨-, h⟩)
        · exact hnot h
        · omega
    · have hsame : c ∈ (if s.remaining.getD a 0 - passed.count a - 1 = 0 then a :: t.ready else t.ready) ↔ c ∈ t.ready := by
        split
        · simp [Ne.symm hc]
        · exact Iff.rfl
      rw [hsame, hmem, if_neg (by simpa using hc), Nat.add_zero]
      simp [Ne.symm hc]

/-- The counts are those of the prerequisites not eliminated, and the heap holds the ready candidates. -/
structure EliminationState.Inv (prerequisites : List (List Nat)) (s : EliminationState) : Prop where
  length : s.remaining.length = prerequisites.length
  remaining : ∀ c, s.remaining.getD c 0 = missing (prerequisites.getD c []) s.order
  nodup : s.ready.Nodup
  ready : ∀ c, c ∈ s.ready ↔ c < prerequisites.length ∧ IsReady prerequisites s.order c
  order : s.order.Nodup
  bound : ∀ c ∈ s.order, c < prerequisites.length
  closed : ∀ c ∈ s.order, ∀ d ∈ prerequisites.getD c [], d ∈ s.order

theorem initial_inv (prerequisites : List (List Nat)) :
    EliminationState.Inv prerequisites ⟨prerequisites.map List.length, initialReady prerequisites, []⟩ := by
  refine ⟨List.length_map _, fun c => ?_, List.nodup_range.filter _, fun c => ?_, .nil,
    fun c hc => absurd hc List.not_mem_nil, fun c hc => absurd hc List.not_mem_nil⟩
  · rw [missing_nil, List.getD_eq_getElem?_getD, List.getD_eq_getElem?_getD, List.getElem?_map]
    cases prerequisites[c]? <;> rfl
  · rw [initialReady, List.mem_filter, List.mem_range, decide_eq_true_eq]
    refine and_congr_right fun hc => ?_
    rw [IsReady, List.getD_eq_getElem?_getD, List.getElem?_eq_getElem hc, Option.getD_some, Option.some.injEq]
    simp [List.eq_nil_iff_forall_not_mem]

theorem popLeast_eq_some {heap rest : List Nat} {least : Nat} :
    popLeast heap = some (least, rest) ↔ (least ∈ heap ∧ ∀ c ∈ heap, least ≤ c) ∧ rest = heap.erase least := by
  rw [popLeast, Option.map_eq_some_iff, ← List.min?_eq_some_iff]
  constructor
  · rintro ⟨c, hc, he⟩
    obtain ⟨rfl, rfl⟩ := Prod.mk.inj he
    exact ⟨hc, rfl⟩
  · rintro ⟨hc, rfl⟩
    exact ⟨least, hc, rfl⟩

theorem popLeast_eq_none {heap : List Nat} : popLeast heap = none ↔ heap = [] := by
  rw [popLeast, Option.map_eq_none_iff, List.min?_eq_none_iff]

/-- Both orders stop, or both take the same candidate. -/
theorem eliminationTurn_spec {prerequisites dependents : List (List Nat)} (hlen : dependents.length = prerequisites.length)
    (hcount : ∀ d c, (dependents.getD d []).count c = (prerequisites.getD c []).count d) {s : EliminationState}
    (h : s.Inv prerequisites) :
    (eliminationTurn dependents s = some (.done s.order) ∧ firstReadyTurn prerequisites s.order = some (.done s.order)) ∨
    ∃ s', eliminationTurn dependents s = some (.next s') ∧
      firstReadyTurn prerequisites s.order = some (.next s'.order) ∧ s'.Inv prerequisites ∧
      s'.order.length = s.order.length + 1 := by
  unfold eliminationTurn
  cases hpop : popLeast s.ready with
  | none =>
    have hnone : ∀ c < prerequisites.length, ¬ IsReady prerequisites s.order c := fun c hc hready => by
      have := (h.ready c).2 ⟨hc, hready⟩
      rw [popLeast_eq_none.1 hpop] at this
      exact List.not_mem_nil this
    refine .inl ⟨rfl, ?_⟩
    rw [firstReadyTurn, List.find?_eq_none.2 fun c hc => by simpa using hnone c (List.mem_range.1 hc)]
  | some popped =>
    obtain ⟨candidate, ready⟩ := popped
    obtain ⟨⟨hmem, hleast⟩, rfl⟩ := popLeast_eq_some.1 hpop
    obtain ⟨hlt, hnew, hdeps⟩ := (h.ready candidate).1 hmem
    have hdependents : dependents[candidate]? = some (dependents.getD candidate []) := by
      rw [List.getD_eq_getElem?_getD, List.getElem?_eq_getElem (hlen ▸ hlt), Option.getD_some]
    have hmissing : ∀ c, missing (prerequisites.getD c []) s.order =
        missing (prerequisites.getD c []) (s.order ++ [candidate]) + (dependents.getD candidate []).count c := fun c => by
      rw [hcount, ← missing_snoc_count _ hnew]
    have hreleased : ∀ c, c ∈ dependents.getD candidate [] ↔ candidate ∈ prerequisites.getD c [] := fun c => by
      rw [← List.count_pos_iff, hcount, List.count_pos_iff]
    -- what is ready or eliminated has no prerequisite left to eliminate
    have hclosed : ∀ c, (∀ d ∈ prerequisites.getD c [], d ∈ s.order) → c ∉ dependents.getD candidate [] :=
      fun c hc hr => hnew (hc candidate ((hreleased c).1 hr))
    obtain ⟨s', hrun, horder, hlength, hremaining, hnodup, hready⟩ := releaseDependents_spec
      (s := { s with ready := s.ready.erase candidate, order := s.order ++ [candidate] })
      (fun c (hc : c ∈ dependents.getD candidate []) => by
        refine ⟨?_, by rw [h.remaining, hmissing]; omega⟩
        by_contra hge
        have hout : prerequisites.length ≤ c := h.length ▸ Nat.not_lt.1 hge
        rw [hreleased, List.getD_eq_getElem?_getD, List.getElem?_eq_none hout] at hc
        exact List.not_mem_nil hc)
      (fun c hc => hclosed c ((h.ready c).1 (List.mem_of_mem_erase hc)).2.2) (h.nodup.erase _)
    have hfound : (List.range prerequisites.length).find? (IsReady prerequisites s.order ·) = some candidate := by
      rw [List.find?_range_eq_some]
      refine ⟨by simpa using ⟨hnew, hdeps⟩, List.mem_range.2 hlt, fun c hc => ?_⟩
      have : ¬ IsReady prerequisites s.order c := fun hready => by
        have := hleast c ((h.ready c).2 ⟨hc.trans hlt, hready⟩)
        omega
      simpa using this
    refine .inr ⟨s', ?_, ?_, ⟨hlength.trans h.length, fun c => ?_, hnodup, fun c => ?_, ?_, fun c hc => ?_,
      fun c hc d hd => ?_⟩, by rw [horder, List.length_append, List.length_singleton]⟩
    · simp only [hdependents, Option.bind_eq_bind, Option.bind_some, hrun]
      rfl
    · rw [firstReadyTurn, hfound, horder]
    · rw [hremaining, horder, h.remaining, hmissing, Nat.add_sub_cancel]
    · rw [hready, horder, h.nodup.mem_erase_iff, h.ready]
      constructor
      · rintro (⟨hne, hc, hnot, hall⟩ | ⟨hrel, hzero⟩)
        · exact ⟨hc, by simp [hnot, hne], fun d hd => List.mem_append_left _ (hall d hd)⟩
        · rw [h.remaining, hmissing, Nat.add_eq_right, missing_eq_zero] at hzero
          have hc : c < prerequisites.length := by
            by_contra hge
            rw [hreleased, List.getD_eq_getElem?_getD, List.getElem?_eq_none (by omega)] at hrel
            exact List.not_mem_nil hrel
          refine ⟨hc, fun hmem' => ?_, hzero⟩
          rcases List.mem_append.1 hmem' with hmem' | hmem'
          · exact hclosed c (h.closed c hmem') hrel
          · exact hclosed candidate hdeps (List.mem_singleton.1 hmem' ▸ hrel)
      · rintro ⟨hc, hnot, hall⟩
        rw [List.mem_append, List.mem_singleton, not_or] at hnot
        by_cases hrel : c ∈ dependents.getD candidate []
        · refine .inr ⟨hrel, ?_⟩
          rw [h.remaining, hmissing, missing_eq_zero.2 hall, Nat.zero_add]
        · refine .inl ⟨hnot.2, hc, hnot.1, fun d hd => ?_⟩
          refine (List.mem_append.1 (hall d hd)).resolve_right fun hd' => hrel ((hreleased c).2 ?_)
          exact List.mem_singleton.1 hd' ▸ hd
    · rw [horder, List.nodup_append]
      exact ⟨h.order, List.nodup_singleton _, fun a ha b hb hab => hnew (List.mem_singleton.1 hb ▸ hab ▸ ha)⟩
    · rw [horder] at hc
      rcases List.mem_append.1 hc with hc | hc
      · exact h.bound c hc
      · exact List.mem_singleton.1 hc ▸ hlt
    · rw [horder] at hc ⊢
      rcases List.mem_append.1 hc with hc | hc
      · exact List.mem_append_left _ (h.closed c hc d hd)
      · exact List.mem_append_left _ (hdeps d (List.mem_singleton.1 hc ▸ hd))

/-! ## The two orders -/

theorem eliminationLoop_eq {prerequisites dependents : List (List Nat)} (hlen : dependents.length = prerequisites.length)
    (hcount : ∀ d c, (dependents.getD d []).count c = (prerequisites.getD c []).count d) :
    ∀ (fuel : Nat) {s : EliminationState}, s.Inv prerequisites → prerequisites.length < fuel + s.order.length →
      ∃ order, loop (eliminationTurn dependents) fuel s = some order ∧
        loop (firstReadyTurn prerequisites) fuel s.order = some order := by
  intro fuel
  induction fuel with
  | zero =>
    intro s h hfuel
    have := (List.subperm_of_subset h.order fun c hc => List.mem_range.2 (h.bound c hc)).length_le
    rw [List.length_range] at this
    omega
  | succ fuel ih =>
    intro s h hfuel
    rcases eliminationTurn_spec hlen hcount h with ⟨hturn, hfirst⟩ | ⟨s', hturn, hfirst, h', hgrow⟩
    · exact ⟨s.order, by simp only [loop, hturn], by simp only [loop, hfirst]⟩
    · obtain ⟨order, hrun, hreference⟩ := ih h' (by omega)
      exact ⟨order, by simp only [loop, hturn, hrun], by simp only [loop, hfirst, hreference]⟩

theorem heapOrder_eq (prerequisites : List (List Nat))
    (hin : ∀ deps ∈ prerequisites, ∀ d ∈ deps, d < prerequisites.length) :
    ∃ order, eliminationOrder prerequisites = some order ∧ firstReadyOrder prerequisites = some order := by
  obtain ⟨dependents, hdependents, hlen, hcount⟩ := dependentsOf_spec hin
  obtain ⟨order, hrun, hreference⟩ := eliminationLoop_eq hlen hcount (prerequisites.length + 1)
    (initial_inv prerequisites) (by simp)
  refine ⟨order, ?_, hreference⟩
  simp only [eliminationOrder, hdependents, Option.bind_eq_bind, Option.bind_some]
  exact hrun

/-- The heap order is the order of the first ready candidates. -/
theorem eliminationOrder_eq (prerequisites : List (List Nat))
    (hin : ∀ deps ∈ prerequisites, ∀ d ∈ deps, d < prerequisites.length) :
    ∃ order, eliminationOrder prerequisites = some order ∧ firstReadyOrder prerequisites = some order :=
  heapOrder_eq prerequisites hin

/-- Candidate 1 reads itself and 4 waits for it; 3 lists its prerequisite twice. -/
theorem eliminationOrder_five : ∃ order, eliminationOrder [[2, 3], [1], [], [2, 2], [0, 1]] = some order ∧
    firstReadyOrder [[2, 3], [1], [], [2, 2], [0, 1]] = some order :=
  eliminationOrder_eq [[2, 3], [1], [], [2, 2], [0, 1]] (by decide)

end Rumoca.Structural
