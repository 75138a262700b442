import Rumoca.Eval.RefreshRows
import Mathlib.Tactic
/-!
# The source-batched ready queue

The rows of a causal order that are ready wait in a queue that serves one
source program at a time: while the current source has a row it goes next,
and a source is listed once when it first becomes ready. What the queue holds
is a list of rows up to order, and the ordering needs nothing else of it.
-/

namespace Rumoca.Eval

open Rumoca.Lib Rumoca.Solve

/-- Ready rows by their source. A source without an entry has the empty queue. -/
structure SourceBatchedQueue where
  bySource : RefreshScalarProgramSource → List Nat
  sources : List RefreshScalarProgramSource
  current : Option RefreshScalarProgramSource

namespace SourceBatchedQueue

def empty : SourceBatchedQueue := ⟨fun _ => [], [], none⟩

def push (queue : SourceBatchedQueue) (source : RefreshScalarProgramSource) (row : Nat) : SourceBatchedQueue :=
  { queue with
    sources :=
      if queue.bySource source = [] ∧ queue.current ≠ some source then queue.sources ++ [source] else queue.sources
    bySource := Function.update queue.bySource source (queue.bySource source ++ [row]) }

def popCurrent (bySource : RefreshScalarProgramSource → List Nat) (current : Option RefreshScalarProgramSource) :
    Option (Nat × (RefreshScalarProgramSource → List Nat)) := do
  let source ← current
  match bySource source with
  | [] => none
  | row :: rest => some (row, Function.update bySource source rest)

/-- The loop of `pop`: when the current source has no row, the next source becomes current. -/
def popFrom (bySource : RefreshScalarProgramSource → List Nat) :
    List RefreshScalarProgramSource → Option RefreshScalarProgramSource → Option Nat × SourceBatchedQueue
  | [], current =>
    match popCurrent bySource current with
    | some (row, bySource) => (some row, ⟨bySource, [], current⟩)
    | none => (none, ⟨bySource, [], current⟩)
  | next :: sources, current =>
    match popCurrent bySource current with
    | some (row, bySource) => (some row, ⟨bySource, next :: sources, current⟩)
    | none => popFrom bySource sources (some next)

def pop (queue : SourceBatchedQueue) : Option Nat × SourceBatchedQueue :=
  popFrom queue.bySource queue.sources queue.current

def served (queue : SourceBatchedQueue) : List RefreshScalarProgramSource := queue.current.toList ++ queue.sources

def waiting (queue : SourceBatchedQueue) : List Nat := queue.served.flatMap queue.bySource

/-- No source is listed twice, every row waits at a listed source, and a source to be served has a row. -/
structure Valid (queue : SourceBatchedQueue) : Prop where
  distinct : queue.served.Nodup
  listed : ∀ source, queue.bySource source ≠ [] → source ∈ queue.served
  active : ∀ source ∈ queue.sources, queue.bySource source ≠ []

theorem empty_valid : empty.Valid where
  distinct := List.nodup_nil
  listed _ h := absurd rfl h
  active _ h := nomatch h

@[simp] theorem waiting_empty : empty.waiting = [] := rfl

theorem flatMap_update_of_notMem {sources : List RefreshScalarProgramSource}
    {bySource : RefreshScalarProgramSource → List Nat} {source : RefreshScalarProgramSource} {rows : List Nat}
    (h : source ∉ sources) : sources.flatMap (Function.update bySource source rows) = sources.flatMap bySource := by
  refine List.flatMap_congr fun s hs => Function.update_of_ne ?_ ..
  rintro rfl
  exact h hs

theorem flatMap_update_perm {sources : List RefreshScalarProgramSource} {source : RefreshScalarProgramSource}
    (hnodup : sources.Nodup) (h : source ∈ sources) (bySource : RefreshScalarProgramSource → List Nat)
    (rows : List Nat) :
    (bySource source ++ sources.flatMap (Function.update bySource source rows)).Perm
      (rows ++ sources.flatMap bySource) := by
  obtain ⟨before, after, rfl⟩ := List.append_of_mem h
  have hsplit := List.nodup_append.1 hnodup
  have hbefore : source ∉ before := fun hmem => hsplit.2.2 source hmem source (List.mem_cons_self ..) rfl
  have hafter : source ∉ after := (List.nodup_cons.1 hsplit.2.1).1
  simp only [List.flatMap_append, List.flatMap_cons, flatMap_update_of_notMem hbefore,
    flatMap_update_of_notMem hafter, Function.update_self]
  have h₁ : (bySource source ++ (before.flatMap bySource ++ (rows ++ after.flatMap bySource))).Perm
      (before.flatMap bySource ++ (bySource source ++ (rows ++ after.flatMap bySource))) := by
    rw [← List.append_assoc, ← List.append_assoc (before.flatMap bySource)]
    exact List.perm_append_comm.append_right _
  have h₂ : (before.flatMap bySource ++ (bySource source ++ (rows ++ after.flatMap bySource))).Perm
      (before.flatMap bySource ++ (rows ++ (bySource source ++ after.flatMap bySource))) := by
    refine List.Perm.append_left _ ?_
    rw [← List.append_assoc, ← List.append_assoc rows]
    exact List.perm_append_comm.append_right _
  have h₃ : (before.flatMap bySource ++ (rows ++ (bySource source ++ after.flatMap bySource))).Perm
      (rows ++ (before.flatMap bySource ++ (bySource source ++ after.flatMap bySource))) := by
    rw [← List.append_assoc, ← List.append_assoc rows]
    exact List.perm_append_comm.append_right _
  exact (h₁.trans h₂).trans h₃

theorem mem_served_of_active {queue : SourceBatchedQueue} {source : RefreshScalarProgramSource}
    (hvalid : queue.Valid) (h : ¬(queue.bySource source = [] ∧ queue.current ≠ some source)) :
    source ∈ queue.served := by
  by_cases hrows : queue.bySource source = []
  · have hcurrent : queue.current = some source := by
      by_contra hne
      exact h ⟨hrows, hne⟩
    simp [served, hcurrent]
  · exact hvalid.listed source hrows

theorem push_spec {queue : SourceBatchedQueue} (hvalid : queue.Valid) (source : RefreshScalarProgramSource) (row : Nat) :
    (queue.push source row).Valid ∧ (queue.push source row).waiting.Perm (row :: queue.waiting) := by
  by_cases hnew : queue.bySource source = [] ∧ queue.current ≠ some source
  · have hcurrent : source ∉ queue.current.toList := by
      simpa [eq_comm] using hnew.2
    have hsources : source ∉ queue.sources := fun hmem => hvalid.active source hmem hnew.1
    have hfresh : source ∉ queue.served := by simp [served, hcurrent, hsources]
    have hserved : (queue.push source row).served = queue.served ++ [source] := by
      simp only [served, push, if_pos hnew, List.append_assoc]
    refine ⟨⟨?_, ?_, ?_⟩, ?_⟩
    · rw [hserved]
      exact hvalid.distinct.append (List.nodup_singleton _) (by simpa using hfresh)
    · intro s hs
      rw [hserved]
      by_cases hsource : s = source
      · simp [hsource]
      · refine List.mem_append_left _ (hvalid.listed s ?_)
        simpa [push, hsource] using hs
    · intro s hs
      by_cases hsource : s = source
      · simp [push, hsource]
      · have hmem : s ∈ queue.sources := by simpa [push, if_pos hnew, hsource] using hs
        simpa [push, hsource] using hvalid.active s hmem
    · rw [waiting, hserved]
      simp only [push, List.flatMap_append, flatMap_update_of_notMem hfresh, List.flatMap_cons, List.flatMap_nil,
        Function.update_self, hnew.1, List.nil_append, List.append_nil]
      exact List.perm_append_comm
  · have hmem := mem_served_of_active hvalid hnew
    have hserved : (queue.push source row).served = queue.served := by
      simp only [served, push, if_neg hnew]
    refine ⟨⟨?_, ?_, ?_⟩, ?_⟩
    · rw [hserved]
      exact hvalid.distinct
    · intro s hs
      rw [hserved]
      by_cases hsource : s = source
      · exact hsource ▸ hmem
      · exact hvalid.listed s (by simpa [push, hsource] using hs)
    · intro s hs
      by_cases hsource : s = source
      · simp [push, hsource]
      · have hold : s ∈ queue.sources := by simpa only [push, if_neg hnew] using hs
        simpa [push, hsource] using hvalid.active s hold
    · rw [waiting, hserved]
      have hperm := flatMap_update_perm hvalid.distinct hmem queue.bySource (queue.bySource source ++ [row])
      rw [List.append_assoc] at hperm
      exact (List.perm_append_left_iff _).1 hperm

/-- What a pop answers of a queue: a waiting row, or nothing when no row waits. -/
def PopSpec (queue : SourceBatchedQueue) (result : Option Nat × SourceBatchedQueue) : Prop :=
  result.2.Valid ∧
    match result.1 with
    | some row => queue.waiting.Perm (row :: result.2.waiting)
    | none => queue.waiting = [] ∧ result.2.waiting = []

theorem popCurrent_none {bySource : RefreshScalarProgramSource → List Nat} {current : Option RefreshScalarProgramSource}
    (h : popCurrent bySource current = none) : ∀ source ∈ current, bySource source = [] := by
  rintro source rfl
  simp only [popCurrent, Option.bind_eq_bind, Option.bind_some] at h
  split at h
  · assumption
  · cases h

theorem popCurrent_some {queue : SourceBatchedQueue} (hvalid : queue.Valid) {row : Nat}
    {bySource : RefreshScalarProgramSource → List Nat} (h : popCurrent queue.bySource queue.current = some (row, bySource)) :
    PopSpec queue (some row, ⟨bySource, queue.sources, queue.current⟩) := by
  obtain ⟨source, hcurrent, hmatch⟩ := Option.bind_eq_some_iff.1 h
  split at hmatch
  · cases hmatch
  · next _ first rest hrows =>
    obtain ⟨rfl, rfl⟩ := by simpa using hmatch
    have hmem : source ∈ queue.served := by simp [served, hcurrent]
    have hsources : source ∉ queue.sources := fun hs => by
      have := hvalid.distinct
      simp [served, hcurrent, hs] at this
    refine ⟨⟨hvalid.distinct, fun s hs => ?_, fun s hs => ?_⟩, ?_⟩
    · by_cases hsource : s = source
      · exact hsource ▸ hmem
      · exact hvalid.listed s (by simpa [hsource] using hs)
    · have hne : s ≠ source := fun heq => hsources (heq ▸ hs)
      simpa [hne] using hvalid.active s hs
    · have hperm := flatMap_update_perm hvalid.distinct hmem queue.bySource rest
      rw [hrows, List.cons_append] at hperm
      have hrest : (rest ++ (first :: queue.served.flatMap (Function.update queue.bySource source rest))).Perm
          (rest ++ queue.served.flatMap queue.bySource) := List.perm_middle.trans hperm
      exact ((List.perm_append_left_iff _).1 hrest).symm

theorem popFrom_spec (bySource : RefreshScalarProgramSource → List Nat) (sources : List RefreshScalarProgramSource) :
    ∀ current, Valid ⟨bySource, sources, current⟩ →
      PopSpec ⟨bySource, sources, current⟩ (popFrom bySource sources current) := by
  induction sources with
  | nil =>
    intro current hvalid
    rw [popFrom]
    cases hpop : popCurrent bySource current with
    | some result => exact popCurrent_some hvalid hpop
    | none =>
      have hempty : waiting ⟨bySource, [], current⟩ = [] := by
        simpa [waiting, served] using popCurrent_none hpop
      exact ⟨hvalid, hempty, hempty⟩
  | cons next sources ih =>
    intro current hvalid
    rw [popFrom]
    cases hpop : popCurrent bySource current with
    | some result => exact popCurrent_some hvalid hpop
    | none =>
      -- the drained current source leaves the listed ones
      have hdrained := popCurrent_none hpop
      have hnext : Valid ⟨bySource, sources, some next⟩ := by
        refine ⟨?_, fun s hs => ?_, fun s hs => hvalid.active s (List.mem_cons_of_mem _ hs)⟩
        · exact hvalid.distinct.sublist (List.sublist_append_right ..)
        · rcases List.mem_append.1 (hvalid.listed s hs) with hcurrent | hmem
          · exact absurd (hdrained s (by simpa using hcurrent)) hs
          · exact hmem
      have hsame : waiting ⟨bySource, next :: sources, current⟩ = waiting ⟨bySource, sources, some next⟩ := by
        have hnil : current.toList.flatMap bySource = [] := by simpa using hdrained
        simp only [waiting, served, List.flatMap_append, hnil, List.nil_append, Option.toList_some, List.cons_append]
      have hspec := ih (some next) hnext
      rw [PopSpec, hsame]
      exact hspec

theorem pop_spec {queue : SourceBatchedQueue} (hvalid : queue.Valid) : PopSpec queue queue.pop :=
  popFrom_spec queue.bySource queue.sources queue.current hvalid

end SourceBatchedQueue

/-! ## Runs of the queue -/

inductive QueueOp where
  | push (source : RefreshScalarProgramSource) (row : Nat)
  | pop
deriving DecidableEq, Repr

def QueueOp.apply (s : SourceBatchedQueue × List Nat) : QueueOp → SourceBatchedQueue × List Nat
  | push source row => (s.1.push source row, s.2)
  | pop => (s.1.pop.2, s.2 ++ s.1.pop.1.toList)

def QueueOp.pushed : QueueOp → Option Nat
  | push _ row => some row
  | pop => none

def runQueue (ops : List QueueOp) : SourceBatchedQueue × List Nat := ops.foldl QueueOp.apply (.empty, [])

/-- After any interleaving, every pushed row has been released once or still waits, once. -/
theorem runQueue_spec (ops : List QueueOp) :
    (runQueue ops).1.Valid ∧ (ops.filterMap QueueOp.pushed).Perm ((runQueue ops).2 ++ (runQueue ops).1.waiting) := by
  refine foldl_inv (fun (done : List QueueOp) (s : SourceBatchedQueue × List Nat) =>
    s.1.Valid ∧ (done.filterMap QueueOp.pushed).Perm (s.2 ++ s.1.waiting)) ?_ ⟨SourceBatchedQueue.empty_valid, by simp⟩
  rintro pre op post ⟨queue, released⟩ - ⟨hvalid, hperm⟩
  rw [List.filterMap_append]
  cases op with
  | push source row =>
    obtain ⟨hvalid', hwaiting⟩ := SourceBatchedQueue.push_spec hvalid source row
    refine ⟨hvalid', ?_⟩
    have hsnoc : (pre.filterMap QueueOp.pushed ++ [row]).Perm (row :: (released ++ queue.waiting)) :=
      List.perm_append_comm.trans (hperm.cons row)
    exact hsnoc.trans (List.perm_middle.symm.trans (hwaiting.symm.append_left released))
  | pop =>
    obtain ⟨hvalid', hpop⟩ := SourceBatchedQueue.pop_spec hvalid
    refine ⟨hvalid', ?_⟩
    simp only [QueueOp.apply, List.filterMap_cons, List.filterMap_nil, QueueOp.pushed, List.append_nil]
    cases hresult : queue.pop.1 with
    | none =>
      rw [hresult] at hpop
      rw [hpop.1] at hperm
      rw [hpop.2]
      simpa using hperm
    | some row =>
      rw [hresult] at hpop
      have hmove : (released ++ queue.waiting).Perm (released ++ [row] ++ queue.pop.2.waiting) := by
        rw [List.append_assoc]
        exact hpop.append_left released
      exact hperm.trans hmove

end Rumoca.Eval
