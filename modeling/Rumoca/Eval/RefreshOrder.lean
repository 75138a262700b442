import Rumoca.Lib.DependencyOrder
import Rumoca.Lib.Entries
import Rumoca.Eval.Arithmetic
import Rumoca.Eval.ReadyQueue
import Mathlib.Tactic
/-!
# The causal order of refresh rows

`order_refresh_rows` is a topological sort: each row waits for the rows that
produce a value it reads, and a ready row goes through the source-batched
queue. The per-row vectors are total maps here; a vector with one entry for
each row is read only below the number of rows.
-/

namespace Rumoca.Eval

open Rumoca.Lib Rumoca.Solve

variable {P : Type}

/-! ## The model -/

/-- `producer_by_target`: the row that refreshes each target, by its position. -/
def producerByTarget (rows : List AlgebraicRefreshRow) : List (Nat × Nat) :=
  collectEntries (rows.zipIdx.map fun entry => (entry.1.targetIndex, entry.2))

/-- The rows a row reads from, its own apart; a row without a program reads none. -/
def rowDependencies (block : RefreshProgramAccess P) (stateCount : Nat) (producers : List (Nat × Nat))
    (row : AlgebraicRefreshRow) : List Nat :=
  match block.sourceProgram row.source with
  | none => []
  | some ops => refreshRowDependencyPositions block row ops stateCount producers

/-- The rows to notify of each row, and how many rows each row waits for. -/
structure RefreshEdges where
  edges : Nat → List Nat
  indegree : Nat → Nat

def RefreshEdges.add (rowPos : Nat) (s : RefreshEdges) (depPos : Nat) : RefreshEdges :=
  if depPos = rowPos then s
  else
    { edges := Function.update s.edges depPos (s.edges depPos ++ [rowPos])
      indegree := Function.update s.indegree rowPos (s.indegree rowPos + 1) }

def refreshEdges (block : RefreshProgramAccess P) (stateCount : Nat) (rows : List AlgebraicRefreshRow) : RefreshEdges :=
  rows.zipIdx.foldl
    (fun s entry => (rowDependencies block stateCount (producerByTarget rows) entry.1).foldl (.add entry.2) s)
    ⟨fun _ => [], fun _ => 0⟩

def initialReady (rows : List AlgebraicRefreshRow) (indegree : Nat → Nat) : SourceBatchedQueue :=
  rows.zipIdx.foldl (fun ready entry => if indegree entry.2 = 0 then ready.push entry.1.source entry.2 else ready) .empty

structure RefreshOrdering where
  ready : SourceBatchedQueue
  indegree : Nat → Nat
  ordered : List AlgebraicRefreshRow
  emitted : Nat → Bool

/-- One reader of a released row waits for a row less; `none` where the count would wrap. -/
def RefreshOrdering.notify (rows : List AlgebraicRefreshRow) (s : RefreshOrdering) (next : Nat) :
    Option RefreshOrdering := do
  let row ← rows[next]?
  match s.indegree next with
  | 0 => none
  | degree + 1 =>
    some { s with
      indegree := Function.update s.indegree next degree
      ready := if degree = 0 then s.ready.push row.source next else s.ready }

def releaseRow (rows : List AlgebraicRefreshRow) (edges : Nat → List Nat) (s : RefreshOrdering) :
    Option (Ctl RefreshOrdering RefreshOrdering) :=
  match s.ready.pop with
  | (none, ready) => some (.done { s with ready := ready })
  | (some rowPos, ready) => do
    let row ← rows[rowPos]?
    let s ← (edges rowPos).foldlM (RefreshOrdering.notify rows)
      { s with
        ready := ready
        ordered := s.ordered ++ [row]
        emitted := Function.update s.emitted rowPos true }
    pure (.next s)

/-- The loop of `order_refresh_rows`; `none` is a panic of the source. -/
def causalOrder (rows : List AlgebraicRefreshRow) (edges : RefreshEdges) : Option RefreshOrdering :=
  loop (releaseRow rows edges.edges) (rows.length + 1)
    { ready := initialReady rows edges.indegree
      indegree := edges.indegree
      ordered := []
      emitted := fun _ => false }

def remainingRows (rows : List AlgebraicRefreshRow) (emitted : Nat → Bool) : List AlgebraicRefreshRow :=
  rows.zipIdx.filterMap fun entry => if emitted entry.2 then none else some entry.1

def orderCertified (rows : List AlgebraicRefreshRow) (s : RefreshOrdering) (causalSolutionCertified : Bool) : Bool :=
  causalSolutionCertified && s.ordered.length == rows.length

def orderedRows (rows : List AlgebraicRefreshRow) (s : RefreshOrdering) (causalSolutionCertified : Bool) :
    List AlgebraicRefreshRow :=
  if orderCertified rows s causalSolutionCertified then s.ordered else s.ordered ++ remainingRows rows s.emitted

/-- The plan as `order_refresh_rows` leaves it: no stages and no projection yet. -/
def orderedPlan (rows : List AlgebraicRefreshRow) (s : RefreshOrdering) (causalSolutionCertified : Bool)
    (causalSeedRows : RefreshRowSelection) : RefreshPlan where
  simultaneousPlan := []
  simultaneousBlockIndices := []
  valueProjectionPlan := []
  rows := orderedRows rows s causalSolutionCertified
  causalSeedRows := causalSeedRows
  staticCausalSeedRows := []
  dynamicCausalSeedRows := []
  valueStages := []
  causalSolutionCertified := orderCertified rows s causalSolutionCertified

def orderRefreshRows (rows : List AlgebraicRefreshRow) (block : RefreshProgramAccess P) (stateCount : Nat)
    (causalSolutionCertified : Bool) : ExceptT EvalSolveError Option RefreshPlan := do
  let s ← ExceptT.lift (causalOrder rows (refreshEdges block stateCount rows))
  match RefreshRowSelection.all (orderedRows rows s causalSolutionCertified).length with
  | .error message => throw (.invalidRow message)
  | .ok causalSeedRows => pure (orderedPlan rows s causalSolutionCertified causalSeedRows)

/-! ## The read relation -/

/-- `reader` reads the value that `producer` refreshes. The solver values below `stateCount` are states,
and no refresh produces them. -/
def ReadsFrom (block : RefreshProgramAccess P) (stateCount : Nat) (rows : List AlgebraicRefreshRow)
    (reader producer : AlgebraicRefreshRow) : Prop :=
  reader ∈ rows ∧ producer ∈ rows ∧ producer ≠ reader ∧ stateCount ≤ producer.targetIndex ∧
    RowReads block reader producer.targetIndex

/-! ## Dependencies between positions -/

def dependenciesAt (block : RefreshProgramAccess P) (stateCount : Nat) (rows : List AlgebraicRefreshRow)
    (position : Nat) : List Nat :=
  match rows[position]? with
  | none => []
  | some row => rowDependencies block stateCount (producerByTarget rows) row

section
variable {block : RefreshProgramAccess P} {stateCount : Nat} {rows : List AlgebraicRefreshRow}

theorem rowDependencies_nodup (producers : List (Nat × Nat)) (row : AlgebraicRefreshRow) :
    (rowDependencies block stateCount producers row).Nodup := by
  unfold rowDependencies
  split
  · exact List.nodup_nil
  · exact refreshRowDependencyPositions_nodup ..

theorem dependenciesAt_nodup (position : Nat) : (dependenciesAt block stateCount rows position).Nodup := by
  unfold dependenciesAt
  split
  · exact List.nodup_nil
  · exact rowDependencies_nodup ..

theorem lookup_producerByTarget (hdistinct : (rows.map (·.targetIndex)).Nodup) {target position : Nat} :
    (producerByTarget rows).lookup target = some position ↔
      ∃ row, rows[position]? = some row ∧ row.targetIndex = target := by
  have hkeys : ((rows.zipIdx.map fun entry => (entry.1.targetIndex, entry.2)).map (·.1)).Nodup := by
    rw [List.map_map]
    have hmap : rows.zipIdx.map ((·.1) ∘ fun entry => (entry.1.targetIndex, entry.2)) = rows.map (·.targetIndex) := by
      conv_rhs => rw [← List.zipIdx_map_fst 0 rows, List.map_map]
      rfl
    rwa [hmap]
  rw [producerByTarget, lookup_collectEntries_eq_some hkeys, List.mem_map]
  constructor
  · rintro ⟨⟨row, index⟩, hmem, heq⟩
    obtain ⟨rfl, rfl⟩ := Prod.mk.inj heq
    exact ⟨row, List.mem_zipIdx_iff_getElem?.1 hmem, rfl⟩
  · rintro ⟨row, hrow, rfl⟩
    exact ⟨(row, position), List.mem_zipIdx_iff_getElem?.2 hrow, rfl⟩

theorem row_eq_of_target (hdistinct : (rows.map (·.targetIndex)).Nodup) {a b : AlgebraicRefreshRow} (ha : a ∈ rows)
    (hb : b ∈ rows) (h : a.targetIndex = b.targetIndex) : a = b :=
  List.inj_on_of_nodup_map hdistinct ha hb h

theorem position_eq_of_row (hdistinct : (rows.map (·.targetIndex)).Nodup) {i j : Nat} {row : AlgebraicRefreshRow}
    (hi : rows[i]? = some row) (hj : rows[j]? = some row) : i = j := by
  have hrows : rows.Nodup := hdistinct.of_map
  obtain ⟨hlt, -⟩ := List.getElem?_eq_some_iff.1 hi
  exact (List.getElem?_inj hlt hrows).1 (hi.trans hj.symm)

theorem mem_dependenciesAt (hdistinct : (rows.map (·.targetIndex)).Nodup) {i j : Nat} {row : AlgebraicRefreshRow}
    (hi : rows[i]? = some row) :
    j ∈ dependenciesAt block stateCount rows i ↔
      ∃ producer, rows[j]? = some producer ∧ ReadsFrom block stateCount rows row producer := by
  have hrow : row ∈ rows := List.mem_of_getElem? hi
  have hbody : j ∈ rowDependencies block stateCount (producerByTarget rows) row ↔
      ∃ index, stateCount ≤ index ∧ index ≠ row.targetIndex ∧ (producerByTarget rows).lookup index = some j ∧
        RowReads block row index := by
    unfold rowDependencies
    cases hops : block.sourceProgram row.source with
    | none =>
      refine iff_of_false (by simp) ?_
      rintro ⟨-, -, -, -, ops, hmem, -⟩
      exact nomatch hops.symm.trans hmem
    | some ops => exact mem_refreshRowDependencyPositions hops
  rw [dependenciesAt, hi]
  refine hbody.trans ?_
  simp only [lookup_producerByTarget hdistinct]
  constructor
  · rintro ⟨_, hstate, hown, ⟨producer, hj, rfl⟩, hread⟩
    exact ⟨producer, hj, hrow, List.mem_of_getElem? hj, fun heq => hown (heq ▸ rfl), hstate, hread⟩
  · rintro ⟨producer, hj, -, hproducer, hne, hstate, hread⟩
    exact ⟨_, hstate, fun heq => hne (row_eq_of_target hdistinct hproducer hrow heq), ⟨producer, hj, rfl⟩, hread⟩

theorem lt_of_mem_dependenciesAt (hdistinct : (rows.map (·.targetIndex)).Nodup) {i j : Nat}
    (h : j ∈ dependenciesAt block stateCount rows i) : i < rows.length ∧ j < rows.length ∧ i ≠ j := by
  cases hi : rows[i]? with
  | none => simp [dependenciesAt, hi] at h
  | some row =>
    obtain ⟨producer, hj, -, -, hne, -⟩ := (mem_dependenciesAt hdistinct hi).1 h
    refine ⟨(List.getElem?_eq_some_iff.1 hi).1, (List.getElem?_eq_some_iff.1 hj).1, ?_⟩
    rintro rfl
    exact hne (Option.some.inj (hj.symm.trans hi))

/-! ## The edges -/

theorem foldl_add {rowPos : Nat} {deps : List Nat} (hnodup : deps.Nodup) (hself : rowPos ∉ deps) (s : RefreshEdges) :
    deps.foldl (.add rowPos) s =
      { edges := fun dep => if dep ∈ deps then s.edges dep ++ [rowPos] else s.edges dep
        indegree := Function.update s.indegree rowPos (s.indegree rowPos + deps.length) } := by
  induction deps generalizing s with
  | nil => simp
  | cons dep deps ih =>
    obtain ⟨hdep, hrest⟩ := List.nodup_cons.1 hnodup
    have hne : dep ≠ rowPos := fun heq => hself (heq ▸ List.mem_cons_self ..)
    rw [List.foldl_cons, ih hrest fun hmem => hself (List.mem_cons_of_mem _ hmem), RefreshEdges.add, if_neg hne]
    simp only [RefreshEdges.mk.injEq, Function.update_self, Function.update_idem, List.length_cons]
    refine ⟨funext fun d => ?_, by rw [Nat.add_assoc, Nat.add_comm 1]⟩
    by_cases hd : d = dep
    · subst hd
      simp [hdep]
    · simp [hd]

variable (block stateCount) in
/-- Each row notifies its readers in row order, and waits for as many rows as it reads from. -/
theorem refreshEdges_spec (hdistinct : (rows.map (·.targetIndex)).Nodup) :
    (∀ dep, (refreshEdges block stateCount rows).edges dep =
      (List.range rows.length).filter fun i => dep ∈ dependenciesAt block stateCount rows i) ∧
    ∀ i < rows.length,
      (refreshEdges block stateCount rows).indegree i = (dependenciesAt block stateCount rows i).length := by
  have hpositions : rows.zipIdx.map (·.2) = List.range rows.length := by
    rw [List.zipIdx_map_snd, List.range_eq_range']
  have key := foldl_inv (f := fun s entry =>
      (rowDependencies block stateCount (producerByTarget rows) entry.1).foldl (.add entry.2) s) (l := rows.zipIdx)
    (fun pre (s : RefreshEdges) =>
      (∀ dep, s.edges dep = (pre.map (·.2)).filter fun i => dep ∈ dependenciesAt block stateCount rows i) ∧
      ∀ i, s.indegree i = if i ∈ pre.map (·.2) then (dependenciesAt block stateCount rows i).length else 0)
    ?_ (s := ⟨fun _ => [], fun _ => 0⟩) ⟨fun _ => rfl, fun _ => rfl⟩
  · rw [hpositions] at key
    refine ⟨key.1, fun i hi => ?_⟩
    rw [refreshEdges, key.2 i, if_pos (List.mem_range.2 hi)]
  · rintro pre ⟨row, position⟩ post s hsplit ⟨hedges, hindegree⟩
    have hmem : (row, position) ∈ rows.zipIdx := by rw [hsplit]; simp
    have hrow : rows[position]? = some row := List.mem_zipIdx_iff_getElem?.1 hmem
    have hdeps : dependenciesAt block stateCount rows position =
        rowDependencies block stateCount (producerByTarget rows) row := by
      rw [dependenciesAt, hrow]
    have hself : position ∉ dependenciesAt block stateCount rows position := fun hmem =>
      (lt_of_mem_dependenciesAt hdistinct hmem).2.2 rfl
    have hfresh : position ∉ pre.map (·.2) := by
      have hnodup : (rows.zipIdx.map (·.2)).Nodup := hpositions ▸ List.nodup_range
      rw [hsplit, List.map_append, List.map_cons] at hnodup
      exact fun hmem => (List.disjoint_of_nodup_append hnodup) hmem (List.mem_cons_self ..)
    rw [← hdeps, foldl_add (dependenciesAt_nodup _) hself]
    constructor
    · intro dep
      rw [List.map_append, List.filter_append, ← hedges]
      by_cases hdep : dep ∈ dependenciesAt block stateCount rows position <;> simp [hdep]
    · intro i
      by_cases hi : i = position
      · subst hi
        simp [hindegree, hfresh]
      · simp only [Function.update_of_ne hi, hindegree, List.map_append, List.map_cons, List.map_nil, List.mem_append,
          List.mem_singleton, hi, or_false]

/-! ## The ordering loop -/

/-- The rows in `done` are released, in that order. The rows in `pending` read the last released row and are not
notified yet: each waits for one row more than it misses. -/
structure Released (deps : Nat → List Nat) (rows : List AlgebraicRefreshRow) (done pending : List Nat)
    (s : RefreshOrdering) : Prop where
  valid : s.ready.Valid
  ordered : s.ordered.map some = done.map (rows[·]?)
  emitted : ∀ i, s.emitted i = true ↔ i ∈ done
  nodup : (done ++ s.ready.waiting).Nodup
  bound : ∀ i ∈ done ++ s.ready.waiting, i < rows.length
  indegree : ∀ i < rows.length, s.indegree i = missing (deps i) done + if i ∈ pending then 1 else 0
  free : ∀ i < rows.length, (i ∈ done ++ s.ready.waiting ↔ s.indegree i = 0)
  placed : Placed (fun i j => j ∈ deps i) done

theorem Released.notify {deps : Nat → List Nat} {done pending : List Nat} {next : Nat} {s : RefreshOrdering}
    (h : Released deps rows done (next :: pending) s) (hnext : next < rows.length) (hfresh : next ∉ pending) :
    ∃ s', s.notify rows next = some s' ∧ Released deps rows done pending s' := by
  have hdegree : s.indegree next = missing (deps next) done + 1 := by
    rw [h.indegree next hnext, if_pos (List.mem_cons_self ..)]
  have hindegree : ∀ i < rows.length, Function.update s.indegree next (missing (deps next) done) i =
      missing (deps i) done + if i ∈ pending then 1 else 0 := by
    intro i hi
    by_cases heq : i = next
    · subst heq
      rw [Function.update_self, if_neg hfresh, Nat.add_zero]
    · rw [Function.update_of_ne heq, h.indegree i hi]
      simp [heq]
  have hwaits : next ∉ done ++ s.ready.waiting := by
    rw [h.free next hnext]
    omega
  simp only [RefreshOrdering.notify, List.getElem?_eq_getElem hnext, hdegree, Option.bind_eq_bind, Option.bind_some]
  refine ⟨_, rfl, ?_⟩
  by_cases hzero : missing (deps next) done = 0
  · obtain ⟨hvalid, hperm⟩ := SourceBatchedQueue.push_spec h.valid rows[next].source next
    have hall : (done ++ (s.ready.push rows[next].source next).waiting).Perm (next :: (done ++ s.ready.waiting)) :=
      (hperm.append_left done).trans List.perm_middle
    refine ⟨?_, h.ordered, h.emitted, ?_, ?_, hindegree, ?_, h.placed⟩ <;> simp only [if_pos hzero]
    · exact hvalid
    · exact hall.nodup_iff.2 (List.nodup_cons.2 ⟨hwaits, h.nodup⟩)
    · intro i hi
      rcases List.mem_cons.1 (hall.mem_iff.1 hi) with rfl | hi
      · exact hnext
      · exact h.bound i hi
    · intro i hi
      rw [hall.mem_iff, List.mem_cons, h.free i hi]
      by_cases heq : i = next
      · simp [heq, hzero]
      · simp [heq]
  · refine ⟨?_, h.ordered, h.emitted, ?_, ?_, hindegree, ?_, h.placed⟩ <;> simp only [if_neg hzero]
    · exact h.valid
    · exact h.nodup
    · exact h.bound
    · intro i hi
      rw [h.free i hi]
      by_cases heq : i = next
      · subst heq
        simp [hzero, hdegree]
      · simp [heq]

theorem Released.notifyAll {deps : Nat → List Nat} {done : List Nat} (pending : List Nat) :
    ∀ s : RefreshOrdering, Released deps rows done pending s → pending.Nodup → (∀ i ∈ pending, i < rows.length) →
      ∃ s', pending.foldlM (RefreshOrdering.notify rows) s = some s' ∧ Released deps rows done [] s' := by
  induction pending with
  | nil => exact fun s h _ _ => ⟨s, rfl, h⟩
  | cons next pending ih =>
    intro s h hnodup hbound
    obtain ⟨hfresh, hrest⟩ := List.nodup_cons.1 hnodup
    obtain ⟨s₁, hs₁, h₁⟩ := h.notify (hbound next (List.mem_cons_self ..)) hfresh
    obtain ⟨s₂, hs₂, h₂⟩ := ih s₁ h₁ hrest fun i hi => hbound i (List.mem_cons_of_mem _ hi)
    exact ⟨s₂, by rw [List.foldlM_cons, hs₁]; exact hs₂, h₂⟩

theorem Released.pop {deps : Nat → List Nat} {done readers : List Nat} {s : RefreshOrdering}
    (hdeps : ∀ i, (deps i).Nodup) (h : Released deps rows done [] s) {position : Nat} {ready : SourceBatchedQueue}
    (hpop : s.ready.pop = (some position, ready))
    (hreaders : ∀ i < rows.length, (i ∈ readers ↔ position ∈ deps i)) :
    ∃ row, rows[position]? = some row ∧ position ∉ done ∧
      Released deps rows (done ++ [position]) readers
        { s with
          ready := ready
          ordered := s.ordered ++ [row]
          emitted := Function.update s.emitted position true } := by
  have hspec := SourceBatchedQueue.pop_spec h.valid
  rw [hpop] at hspec
  obtain ⟨hvalid, hwaiting⟩ := hspec
  have hall : (done ++ s.ready.waiting).Perm (done ++ [position] ++ ready.waiting) := by
    rw [List.append_assoc]
    exact hwaiting.append_left done
  have hmem : position ∈ done ++ s.ready.waiting := hall.mem_iff.2 (by simp)
  have hlt := h.bound position hmem
  have hnodup := hall.nodup_iff.1 h.nodup
  have hdone : position ∉ done := fun hmem =>
    (List.disjoint_of_nodup_append (List.nodup_append.1 hnodup).1) hmem (List.mem_singleton_self _)
  refine ⟨rows[position], List.getElem?_eq_getElem hlt, hdone, hvalid, ?_, ?_, hnodup, ?_, ?_, ?_, ?_⟩
  · rw [List.map_append, List.map_append, h.ordered]
    simp [hlt]
  · intro i
    by_cases hi : i = position
    · simp [hi]
    · simp [hi, h.emitted]
  · exact fun i hi => h.bound i (hall.mem_iff.2 hi)
  · intro i hi
    rw [h.indegree i hi, missing_snoc (hdeps i) hdone]
    simp only [List.not_mem_nil, if_false, Nat.add_zero, hreaders i hi]
  · intro i hi
    rw [← h.free i hi]
    exact hall.mem_iff.symm
  · refine h.placed.snoc ?_
    have hzero := (h.free position hlt).1 hmem
    rw [h.indegree position hlt] at hzero
    exact missing_eq_zero.1 (by omega)

variable (rows) in
theorem initialReady_spec (indegree : Nat → Nat) :
    (initialReady rows indegree).Valid ∧
      (initialReady rows indegree).waiting.Perm ((List.range rows.length).filter (indegree · = 0)) := by
  have hpositions : rows.zipIdx.map (·.2) = List.range rows.length := by
    rw [List.zipIdx_map_snd, List.range_eq_range']
  rw [← hpositions]
  refine foldl_inv (fun (pre : List (AlgebraicRefreshRow × Nat)) (ready : SourceBatchedQueue) =>
    ready.Valid ∧ ready.waiting.Perm ((pre.map (·.2)).filter (indegree · = 0))) ?_
    ⟨SourceBatchedQueue.empty_valid, List.Perm.nil⟩
  rintro pre ⟨row, position⟩ post ready - ⟨hvalid, hperm⟩
  rw [List.map_append, List.filter_append]
  by_cases hzero : indegree position = 0
  · obtain ⟨hvalid', hpush⟩ := SourceBatchedQueue.push_spec hvalid row.source position
    simp only [if_pos hzero]
    refine ⟨hvalid', ?_⟩
    have hsnoc : ([(row, position)].map (·.2)).filter (indegree · = 0) = [position] := by simp [hzero]
    rw [hsnoc]
    exact hpush.trans ((hperm.cons position).trans (List.perm_append_singleton position _).symm)
  · simp only [if_neg hzero]
    refine ⟨hvalid, ?_⟩
    simpa [hzero] using hperm

variable (block stateCount) in
/-- The loop stops with no row ready: what is released is in causal order, and every row left waits for another. -/
theorem causalOrder_spec (hdistinct : (rows.map (·.targetIndex)).Nodup) :
    ∃ s done, causalOrder rows (refreshEdges block stateCount rows) = some s ∧
      Released (dependenciesAt block stateCount rows) rows done [] s ∧ s.ready.waiting = [] := by
  obtain ⟨hedges, hindegree⟩ := refreshEdges_spec block stateCount hdistinct
  obtain ⟨hvalid, hwaiting⟩ := initialReady_spec rows (refreshEdges block stateCount rows).indegree
  have hinit : Released (dependenciesAt block stateCount rows) rows [] []
      { ready := initialReady rows (refreshEdges block stateCount rows).indegree
        indegree := (refreshEdges block stateCount rows).indegree
        ordered := []
        emitted := fun _ => false } := by
    refine ⟨hvalid, rfl, by simp, ?_, ?_, ?_, ?_, Stepwise.nil⟩
    · exact hwaiting.nodup_iff.2 (List.nodup_range.filter _)
    · intro i hi
      exact List.mem_range.1 (List.mem_filter.1 (hwaiting.mem_iff.1 hi)).1
    · intro i hi
      simp [hindegree i hi, missing_nil]
    · intro i hi
      rw [List.nil_append, hwaiting.mem_iff, List.mem_filter]
      simp [hi]
  -- one turn releases a row, or finds none ready
  have hturn : ∀ done s, Released (dependenciesAt block stateCount rows) rows done [] s →
      (∃ done' s', releaseRow rows (refreshEdges block stateCount rows).edges s = some (.next s') ∧
        Released (dependenciesAt block stateCount rows) rows done' [] s' ∧
        rows.length - done'.length < rows.length - done.length) ∨
      ∃ s', releaseRow rows (refreshEdges block stateCount rows).edges s = some (.done s') ∧
        ∃ done, Released (dependenciesAt block stateCount rows) rows done [] s' ∧ s'.ready.waiting = [] := by
    intro done s h
    have hlen : done.length ≤ rows.length := by
      have hsub : done ⊆ List.range rows.length := fun i hi =>
        List.mem_range.2 (h.bound i (List.mem_append_left _ hi))
      simpa using (List.nodup_append.1 h.nodup).1.subperm hsub |>.length_le
    rcases hpop : s.ready.pop with ⟨_ | position, ready⟩
    · refine .inr ⟨{ s with ready := ready }, by simp only [releaseRow, hpop], done, ?_, ?_⟩
      · have hspec := SourceBatchedQueue.pop_spec h.valid
        rw [hpop] at hspec
        obtain ⟨hvalid, hnone, hready⟩ := hspec
        have hsame : ready.waiting = s.ready.waiting := hready.trans hnone.symm
        exact ⟨hvalid, h.ordered, h.emitted, by simpa only [hsame] using h.nodup, by simpa only [hsame] using h.bound,
          h.indegree, by simpa only [hsame] using h.free, h.placed⟩
      · have hspec := SourceBatchedQueue.pop_spec h.valid
        rw [hpop] at hspec
        exact hspec.2.2
    · have hreaders : ∀ i < rows.length, (i ∈ (refreshEdges block stateCount rows).edges position ↔
          position ∈ dependenciesAt block stateCount rows i) := by
        intro i hi
        simp [hedges, hi]
      obtain ⟨row, hrow, hfresh, hreleased⟩ := h.pop dependenciesAt_nodup hpop hreaders
      obtain ⟨s', hs', h'⟩ := hreleased.notifyAll _ _ (hedges position ▸ List.nodup_range.filter _) fun i hi => by
        rw [hedges] at hi
        exact List.mem_range.1 (List.mem_filter.1 hi).1
      have hposition : position < rows.length := (List.getElem?_eq_some_iff.1 hrow).1
      refine .inl ⟨done ++ [position], s', ?_, h', ?_⟩
      · simp only [releaseRow, hpop, hrow, Option.bind_eq_bind, Option.bind_some, hs', Option.pure_def]
      · have hnodup := (List.nodup_append.1 h'.nodup).1
        have hsub : done ++ [position] ⊆ List.range rows.length := fun i hi =>
          List.mem_range.2 (h'.bound i (List.mem_append_left _ hi))
        have := (hnodup.subperm hsub).length_le
        simp only [List.length_append, List.length_singleton, List.length_range] at this ⊢
        omega
  obtain ⟨s, hs, done, hdone, hend⟩ := loop_ghost (releaseRow rows (refreshEdges block stateCount rows).edges)
    (fun done s => Released (dependenciesAt block stateCount rows) rows done [] s)
    (fun done _ => rows.length - done.length)
    (fun s => ∃ done, Released (dependenciesAt block stateCount rows) rows done [] s ∧ s.ready.waiting = [])
    hturn (rows.length + 1) [] _ hinit (by simp)
  exact ⟨s, done, hs, hdone, hend⟩

/-! ## The ordered rows -/

theorem mem_remainingRows {emitted : Nat → Bool} {row : AlgebraicRefreshRow} :
    row ∈ remainingRows rows emitted ↔ ∃ i, rows[i]? = some row ∧ emitted i = false := by
  simp only [remainingRows, List.mem_filterMap, Prod.exists, List.mem_zipIdx_iff_getElem?]
  constructor
  · rintro ⟨row', i, hi, hfilter⟩
    split at hfilter
    · cases hfilter
    · next h => exact ⟨i, Option.some.inj hfilter ▸ hi, by simpa using h⟩
  · rintro ⟨i, hi, hemitted⟩
    exact ⟨row, i, hi, by simp [hemitted]⟩

theorem remainingRows_sublist (emitted : Nat → Bool) : (remainingRows rows emitted).Sublist rows := by
  have hkeep : ∀ entry : AlgebraicRefreshRow × Nat, (if emitted entry.2 then none else some entry.1) =
      (Option.guard (fun entry : AlgebraicRefreshRow × Nat => !emitted entry.2) entry).map (·.1) := by
    intro entry
    cases hemitted : emitted entry.2 <;> simp [Option.guard, hemitted]
  have hmap : remainingRows rows emitted = (rows.zipIdx.filter fun entry => !emitted entry.2).map (·.1) := by
    rw [remainingRows, ← List.filterMap_eq_filter, List.map_filterMap]
    exact List.filterMap_congr fun entry _ => hkeep entry
  have hsub := (List.filter_sublist (p := fun entry => !emitted entry.2) (l := rows.zipIdx)).map (·.1)
  rw [List.zipIdx_map_fst] at hsub
  exact hmap ▸ hsub

namespace Released

variable {deps : Nat → List Nat} {done pending : List Nat} {s : RefreshOrdering}

theorem mem_ordered (h : Released deps rows done pending s) {row : AlgebraicRefreshRow} :
    row ∈ s.ordered ↔ ∃ i ∈ done, rows[i]? = some row := by
  rw [← List.mem_map_of_injective (Option.some_injective _), h.ordered, List.mem_map]

theorem ordered_nodup (h : Released deps rows done pending s) (hdistinct : (rows.map (·.targetIndex)).Nodup) :
    s.ordered.Nodup := by
  have hmap : (done.map (rows[·]?)).Nodup := by
    refine (List.nodup_append.1 h.nodup).1.map_on fun i hi j hj heq => ?_
    have hlt := h.bound i (List.mem_append_left _ hi)
    exact position_eq_of_row hdistinct (List.getElem?_eq_getElem hlt) (heq ▸ List.getElem?_eq_getElem hlt)
  exact (h.ordered ▸ hmap).of_map

theorem perm (h : Released deps rows done pending s) (hdistinct : (rows.map (·.targetIndex)).Nodup) :
    (s.ordered ++ remainingRows rows s.emitted).Perm rows := by
  have hrows : rows.Nodup := hdistinct.of_map
  have hdisjoint : s.ordered.Disjoint (remainingRows rows s.emitted) := by
    intro row hordered hremaining
    obtain ⟨i, hi, hrow⟩ := h.mem_ordered.1 hordered
    obtain ⟨j, hrow', hj⟩ := mem_remainingRows.1 hremaining
    obtain rfl := position_eq_of_row hdistinct hrow hrow'
    rw [(h.emitted i).2 hi] at hj
    cases hj
  refine (List.perm_ext_iff_of_nodup
    ((h.ordered_nodup hdistinct).append (hrows.sublist (remainingRows_sublist _)) hdisjoint) hrows).2 fun row => ?_
  rw [List.mem_append, h.mem_ordered, mem_remainingRows]
  constructor
  · rintro (⟨i, -, hrow⟩ | ⟨i, hrow, -⟩) <;> exact List.mem_of_getElem? hrow
  · intro hrow
    obtain ⟨i, hi⟩ := List.mem_iff_getElem?.1 hrow
    cases hemitted : s.emitted i with
    | true => exact .inl ⟨i, (h.emitted i).1 hemitted, hi⟩
    | false => exact .inr ⟨i, hi, hemitted⟩

theorem placed_rows (h : Released (dependenciesAt block stateCount rows) rows done pending s)
    (hdistinct : (rows.map (·.targetIndex)).Nodup) : Placed (ReadsFrom block stateCount rows) s.ordered := by
  intro pre row post hsplit producer hreads
  have hmap := h.ordered
  rw [hsplit, List.map_append, List.map_cons] at hmap
  obtain ⟨before, after, hdone, hbefore, hafter⟩ := List.map_eq_append_iff.1 hmap.symm
  obtain ⟨i, after, rfl, hi, -⟩ := List.map_eq_cons_iff.1 hafter
  obtain ⟨j, hj⟩ := List.mem_iff_getElem?.1 hreads.2.1
  have hdep : j ∈ before := h.placed before i after hdone j ((mem_dependenciesAt hdistinct hi).2 ⟨producer, hj, hreads⟩)
  rw [← List.mem_map_of_injective (Option.some_injective _), ← hbefore, ← hj]
  exact List.mem_map_of_mem hdep

theorem complete_iff (h : Released (dependenciesAt block stateCount rows) rows done [] s)
    (hwaiting : s.ready.waiting = []) (hdistinct : (rows.map (·.targetIndex)).Nodup) :
    s.ordered.length = rows.length ↔ CycleFree (ReadsFrom block stateCount rows) := by
  have hperm := h.perm hdistinct
  constructor
  · intro hlength
    have hnil : remainingRows rows s.emitted = [] := by
      have := hperm.length_eq
      rw [List.length_append] at this
      exact List.eq_nil_of_length_eq_zero (by omega)
    rw [hnil, List.append_nil] at hperm
    exact (h.placed_rows hdistinct).cycleFree (h.ordered_nodup hdistinct) fun row _ hreads =>
      hperm.mem_iff.2 hreads.1
  · intro hfree
    have hnil : remainingRows rows s.emitted = [] := by
      by_contra hne
      obtain ⟨row, hrow, hminimal⟩ := hfree.exists_minimal hne
      obtain ⟨i, hi, hemitted⟩ := mem_remainingRows.1 hrow
      have hlt := (List.getElem?_eq_some_iff.1 hi).1
      -- whatever the row reads from is released, so the row was ready
      have hmissing : missing (dependenciesAt block stateCount rows i) done = 0 := by
        refine missing_eq_zero.2 fun j hj => ?_
        obtain ⟨producer, hproducer, hreads⟩ := (mem_dependenciesAt hdistinct hi).1 hj
        cases hj' : s.emitted j with
        | true => exact (h.emitted j).1 hj'
        | false => exact absurd hreads (hminimal producer (mem_remainingRows.2 ⟨j, hproducer, hj'⟩))
      have hmem := (h.free i hlt).2 (by rw [h.indegree i hlt, hmissing]; rfl)
      rw [hwaiting, List.append_nil, ← h.emitted i, hemitted] at hmem
      cases hmem
    rw [hnil, List.append_nil] at hperm
    exact hperm.length_eq

end Released

/-- Refresh rows with distinct targets are ordered without losing or repeating one. The order is certified exactly
if that was asked for and the reads among the rows have no cycle, and then each row follows the rows it reads from.
A catalog that `u32` cannot index is refused. Whatever is pushed to and popped from the ready queue in any
interleaving, each pushed row is released once or still waits once, and a pop finds nothing only when none waits. -/
theorem orderRefreshRows_spec (rows : List AlgebraicRefreshRow) (block : RefreshProgramAccess P) (stateCount : Nat)
    (asked : Bool) (hdistinct : (rows.map (·.targetIndex)).Nodup) :
    (if rows.length ≤ u32Limit then
      ∃ plan, orderRefreshRows rows block stateCount asked = pure plan ∧ plan.rows.Perm rows ∧
        (plan.causalSolutionCertified = true ↔ asked = true ∧ CycleFree (ReadsFrom block stateCount rows)) ∧
        (plan.causalSolutionCertified = true → Placed (ReadsFrom block stateCount rows) plan.rows)
    else
      orderRefreshRows rows block stateCount asked =
        throw (.invalidRow "continuous refresh row catalog exceeds u32")) ∧
    ∀ ops : List QueueOp,
      (ops.filterMap QueueOp.pushed).Perm ((runQueue ops).2 ++ (runQueue ops).1.waiting) ∧
        ((runQueue ops).1.pop.1 = none ↔ (runQueue ops).1.waiting = []) := by
  constructor
  · obtain ⟨s, done, hrun, hreleased, hwaiting⟩ := causalOrder_spec block stateCount hdistinct
    have hcomplete := hreleased.complete_iff hwaiting hdistinct
    have hcertified : orderCertified rows s asked = true ↔
        asked = true ∧ CycleFree (ReadsFrom block stateCount rows) := by
      rw [orderCertified, Bool.and_eq_true, beq_iff_eq, hcomplete]
    have hperm : (orderedRows rows s asked).Perm rows := by
      unfold orderedRows
      split
      · next h =>
        have hlength := hcomplete.2 (hcertified.1 h).2
        have hall := hreleased.perm hdistinct
        have hnil : remainingRows rows s.emitted = [] := by
          have := hall.length_eq
          rw [List.length_append] at this
          exact List.eq_nil_of_length_eq_zero (by omega)
        rwa [hnil, List.append_nil] at hall
      · exact hreleased.perm hdistinct
    have hmodel : orderRefreshRows rows block stateCount asked =
        match RefreshRowSelection.all (orderedRows rows s asked).length with
        | .error message => throw (.invalidRow message)
        | .ok causalSeedRows => pure (orderedPlan rows s asked causalSeedRows) := by
      rw [orderRefreshRows, hrun]
      rfl
    rw [hmodel, hperm.length_eq]
    split
    · next hlimit =>
      rw [RefreshRowSelection.all_eq_ok hlimit]
      refine ⟨_, rfl, hperm, hcertified, fun h => ?_⟩
      have hplaced := hreleased.placed_rows hdistinct
      have hordered : orderedRows rows s asked = s.ordered := if_pos h
      show Placed _ (orderedRows rows s asked)
      rwa [hordered]
    · next hlimit => rw [RefreshRowSelection.all_eq_error (not_le.1 hlimit)]
  · intro ops
    obtain ⟨hvalid, hperm⟩ := runQueue_spec ops
    refine ⟨hperm, ?_⟩
    obtain ⟨-, hpop⟩ := SourceBatchedQueue.pop_spec hvalid
    cases hresult : (runQueue ops).1.pop.1 with
    | none =>
      rw [hresult] at hpop
      exact iff_of_true rfl hpop.1
    | some row =>
      rw [hresult] at hpop
      refine iff_of_false (by simp) fun hnil => ?_
      rw [hnil] at hpop
      exact nomatch List.nil_perm.1 hpop

/-- Two programs: the first reads the solver value 2, the second reads nothing. -/
def chainBlock : RefreshProgramAccess (List (Nat × Nat)) where
  program index := [[(2, 3)], []][index]?
  sourceIndex source := some source.program
  footprint _ _ _ := none
  prefixFootprint _ _ _ := none
  inputRanges ops := ops

def chainRow (program target : Nat) : AlgebraicRefreshRow :=
  ⟨⟨0, program⟩, target, target, none, false, by simp, by simp⟩

theorem orderRefreshRows_chain :
    ∃ plan, orderRefreshRows [chainRow 0 1, chainRow 1 2] chainBlock 1 true = pure plan ∧
      plan.rows.Perm [chainRow 0 1, chainRow 1 2] ∧
      (plan.causalSolutionCertified = true ↔
        true = true ∧ CycleFree (ReadsFrom chainBlock 1 [chainRow 0 1, chainRow 1 2])) ∧
      (plan.causalSolutionCertified = true →
        Placed (ReadsFrom chainBlock 1 [chainRow 0 1, chainRow 1 2]) plan.rows) := by
  have h := (orderRefreshRows_spec [chainRow 0 1, chainRow 1 2] chainBlock 1 true (by decide)).1
  rwa [if_pos (by decide)] at h

end

end Rumoca.Eval
