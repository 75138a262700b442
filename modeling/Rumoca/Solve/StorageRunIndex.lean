import Mathlib.Data.List.Sort
import Rumoca.Lib.Loop
import Rumoca.Lib.PartitionPoint
import Rumoca.Machine
/-!
# The storage run that holds a slot

Producer validation asks which variable storage run holds a slot. The index
keeps the runs of each slot space by start, each with the largest end up to it,
and walks back from the slot until that end has passed; the scan over all runs
is the answer it replaces.
-/

namespace Rumoca.Solve

open Rumoca.Lib

/-! ## Slots and runs -/

/-- A scalar slot. A constant is known by the bits of its value. -/
inductive ScalarSlot where
  | time
  | y (index byteOffset : Nat)
  | p (index byteOffset : Nat)
  | constant (value : BitVec 64)

inductive SolveVariableStorageRole where
  | parameter | constant | externalInput | state | algebraic | output | discreteReal | discreteValue
deriving DecidableEq

inductive SolveVariableValueKind where
  | real | integer | boolean | enumeration | string
deriving DecidableEq

structure SolveVariableStorageRun where
  base : ScalarSlot
  scalarCount : Nat
  role : SolveVariableStorageRole
  valueKind : SolveVariableValueKind

/-- More than one run holds the queried slot. -/
inductive SharedSlot where
  | sharedSlot
deriving DecidableEq

/-! ## The index -/

/-- A run by its variable's position. `reach` is the largest `stop` of the runs up to it. -/
structure IndexedRun where
  start : Nat
  stop : Nat
  position : Nat
  reach : Nat

structure StorageRunIndex where
  parameters : List IndexedRun := []
  states : List IndexedRun := []

namespace StorageRunIndex

/-- A kept run goes to the space of its base, unless its end overflows. -/
def push (index : StorageRunIndex) (run : SolveVariableStorageRun) (position : Nat) : StorageRunIndex :=
  match run.base with
  | .p start _ =>
    match checkedUsize (start + run.scalarCount) with
    | some stop => { index with parameters := index.parameters ++ [⟨start, stop, position, stop⟩] }
    | none => index
  | .y start _ =>
    match checkedUsize (start + run.scalarCount) with
    | some stop => { index with states := index.states ++ [⟨start, stop, position, stop⟩] }
    | none => index
  | .time => index
  | .constant _ => index

/-- The order of `(start, variable)`. -/
def keyLe (a b : IndexedRun) : Bool := decide (a.start < b.start ∨ a.start = b.start ∧ a.position ≤ b.position)

/-- The largest `stop` so far, `reach`, noted in each run. -/
def withReach : (reach : Nat) → List IndexedRun → List IndexedRun
  | _, [] => []
  | reach, run :: rest => { run with reach := max reach run.stop } :: withReach (max reach run.stop) rest

/-- Index the runs that `keep` accepts. -/
def new (runs : List SolveVariableStorageRun) (keep : SolveVariableStorageRun → Bool) : StorageRunIndex :=
  let index : StorageRunIndex :=
    (runs.zipIdx.filter fun (run, _) => keep run).foldl (fun index (run, position) => push index run position) {}
  { parameters := withReach 0 (index.parameters.mergeSort keyLe)
    states := withReach 0 (index.states.mergeSort keyLe) }

/-- The runs of one space that hold `position`, from the last start back. -/
def holders (space : List IndexedRun) (position : Nat) : List IndexedRun :=
  let after := partitionPoint (fun run : IndexedRun => decide (run.start ≤ position)) space
  ((space.take after).reverse.takeWhile fun run => decide (position < run.reach)).filter fun run =>
    decide (position < run.stop)

def single (owners : List Nat) : Except SharedSlot (Option Nat) :=
  match owners with
  | [] => .ok none
  | [owner] => .ok (some owner)
  | _ :: _ :: _ => .error .sharedSlot

/-- The one run that holds `slot`, `none` when no run does. -/
def owner (index : StorageRunIndex) (slot : ScalarSlot) : Except SharedSlot (Option Nat) :=
  match slot with
  | .p position _ => single ((holders index.parameters position).map (·.position))
  | .y position _ => single ((holders index.states position).map (·.position))
  | .time => .ok none
  | .constant _ => .ok none

/-- Whether an indexed run holds `slot`. -/
def holds (index : StorageRunIndex) (slot : ScalarSlot) : Bool :=
  match index.owner slot with
  | .ok none => false
  | _ => true

end StorageRunIndex

/-- Whether a run holds a slot: one of the same space, from the base up to an end that does not overflow. -/
def SolveVariableStorageRun.contains (run : SolveVariableStorageRun) (slot : ScalarSlot) : Bool :=
  match run.base, slot with
  | .p base _, .p index _ => (checkedUsize (base + run.scalarCount)).any fun stop => decide (base ≤ index ∧ index < stop)
  | .y base _, .y index _ => (checkedUsize (base + run.scalarCount)).any fun stop => decide (base ≤ index ∧ index < stop)
  | _, _ => false

def scanned (runs : List SolveVariableStorageRun) (keep : SolveVariableStorageRun → Bool) (slot : ScalarSlot) :
    Except SharedSlot (Option Nat) :=
  StorageRunIndex.single ((runs.zipIdx.filter fun (run, _) => keep run && run.contains slot).map (·.2))

namespace StorageRunIndex

/-! ## The walk back from a slot -/

theorem single_perm {l l' : List Nat} (h : l.Perm l') : single l = single l' := by
  match l, l' with
  | [], l' => rw [h.nil_eq]
  | [a], l' => rw [List.singleton_perm.mp h]
  | a :: b :: l, l' =>
    match l' with
    | [] => cases h.eq_nil
    | [c] => cases List.perm_singleton.mp h
    | c :: d :: l' => rfl

theorem single_cases (l : List Nat) : (single l = .ok none ↔ l = []) ∧ (∀ i, single l = .ok (some i) ↔ l = [i]) ∧
    (single l = .error .sharedSlot ↔ 2 ≤ l.length) := by
  match l with
  | [] => simp [single]
  | [a] => simp [single]
  | a :: b :: l => simp [single]

def holdsAt (position : Nat) (run : IndexedRun) : Bool := decide (run.start ≤ position ∧ position < run.stop)

theorem withReach_map {β : Type} {f : IndexedRun → β} (hf : ∀ run reach, f { run with reach } = f run) (reach : Nat)
    (l : List IndexedRun) : (withReach reach l).map f = l.map f := by
  induction l generalizing reach with
  | nil => rfl
  | cons run l ih => rw [withReach, List.map_cons, List.map_cons, ih, hf]

theorem withReach_holders (position reach : Nat) (l : List IndexedRun) :
    ((withReach reach l).filter (holdsAt position)).map (·.position) = (l.filter (holdsAt position)).map (·.position) := by
  induction l generalizing reach with
  | nil => rfl
  | cons run l ih =>
    rw [withReach, List.filter_cons, List.filter_cons]
    change (if holdsAt position run = true then _ else _ : List IndexedRun).map _ = _
    split
    · rw [List.map_cons, List.map_cons, ih]
    · exact ih _

theorem le_reach {reach : Nat} {l : List IndexedRun} {run : IndexedRun} (h : run ∈ withReach reach l) :
    reach ≤ run.reach ∧ run.stop ≤ run.reach := by
  induction l generalizing reach with
  | nil => cases h
  | cons a l ih =>
    rcases List.mem_cons.mp h with rfl | h
    · exact ⟨le_max_left _ _, le_max_right _ _⟩
    · obtain ⟨hr, hstop⟩ := ih h
      exact ⟨(le_max_left _ _).trans hr, hstop⟩

theorem withReach_pairwise (reach : Nat) (l : List IndexedRun) :
    (withReach reach l).Pairwise fun a b => a.reach ≤ b.reach := by
  induction l generalizing reach with
  | nil => exact .nil
  | cons a l ih => exact List.pairwise_cons.mpr ⟨fun b hb => (le_reach hb).1, ih _⟩

/-- Where one failure of `p` stops all later `q`, the prefix that satisfies `p` has every `q`. -/
theorem filter_takeWhile {α : Type} {p q : α → Bool} {l : List α} (h : l.Pairwise fun a b => q b → p a)
    (hqp : ∀ a ∈ l, q a → p a) : (l.takeWhile p).filter q = l.filter q := by
  induction l with
  | nil => rfl
  | cons a l ih =>
    obtain ⟨ha, hl⟩ := List.pairwise_cons.mp h
    by_cases hpa : p a
    · rw [List.takeWhile_cons_of_pos hpa, List.filter_cons, List.filter_cons, ih hl fun b hb => hqp b (by simp [hb])]
    · rw [List.takeWhile_cons_of_neg hpa, List.filter_nil, eq_comm, List.filter_eq_nil_iff]
      intro b hb hqb
      rcases List.mem_cons.mp hb with rfl | hb
      · exact hpa (hqp b (by simp) hqb)
      · exact hpa (ha b hb hqb)

theorem holders_spec {space : List IndexedRun} (hstart : space.Pairwise fun a b => a.start ≤ b.start)
    (hreach : space.Pairwise fun a b => a.reach ≤ b.reach) (hstop : ∀ run ∈ space, run.stop ≤ run.reach) (position : Nat) :
    holders space position = (space.filter (holdsAt position)).reverse := by
  obtain ⟨before, after, rfl, hpoint, hbefore, hafter⟩ := exists_partition
    (p := fun run : IndexedRun => decide (run.start ≤ position)) (hstart.imp fun hab hb => by simp_all; omega)
  simp only [decide_eq_true_eq, decide_eq_false_iff_not] at hbefore hafter
  have hnone : after.filter (holdsAt position) = [] := List.filter_eq_nil_iff.mpr fun run hrun hholds =>
    hafter run hrun (of_decide_eq_true hholds).1
  have hall : before.filter (holdsAt position) = before.filter fun run => decide (position < run.stop) :=
    List.filter_congr fun run hrun => by simp [holdsAt, hbefore run hrun]
  rw [holders, hpoint, List.take_left, List.filter_append, hnone, List.append_nil, hall, ← List.filter_reverse]
  refine filter_takeWhile (List.pairwise_reverse.mpr ?_) fun run hrun hlt => ?_
  · refine (List.pairwise_append.mp hreach).1.imp_of_mem fun {a b} ha _ hab hlt => ?_
    have := hstop a (by simp [ha])
    simp only [decide_eq_true_eq] at hlt ⊢
    omega
  · have := hstop run (by simp [List.mem_reverse.mp hrun])
    simp only [decide_eq_true_eq] at hlt ⊢
    omega

theorem holders_sorted (runs : List IndexedRun) (position : Nat) :
    ((holders (withReach 0 (runs.mergeSort keyLe)) position).map (·.position)).Perm
      ((runs.filter (holdsAt position)).map (·.position)) := by
  have hsorted : (runs.mergeSort keyLe).Pairwise fun a b => a.start ≤ b.start :=
    (List.pairwise_mergeSort (fun a b c => by simp [keyLe]; omega) (fun a b => by simp [keyLe]; omega) runs).imp
      fun h => by simp [keyLe] at h; omega
  have hstart : (withReach 0 (runs.mergeSort keyLe)).Pairwise fun a b => a.start ≤ b.start := by
    rw [← List.pairwise_map (f := IndexedRun.start) (R := (· ≤ ·)), withReach_map fun _ _ => rfl]
    exact List.pairwise_map.mpr hsorted
  rw [holders_spec hstart (withReach_pairwise _ _) (fun run hrun => (le_reach hrun).2), List.map_reverse, withReach_holders]
  exact (List.reverse_perm _).trans (((List.mergeSort_perm runs keyLe).filter _).map _)

/-! ## The spaces of the index -/

def parameterPosition : ScalarSlot → Option Nat
  | .p index _ => some index
  | _ => none

def statePosition : ScalarSlot → Option Nat
  | .y index _ => some index
  | _ => none

/-- What a run adds to the space that `place` selects. -/
def entry (place : ScalarSlot → Option Nat) (run : SolveVariableStorageRun × Nat) : Option IndexedRun :=
  (place run.1.base).bind fun start =>
    (checkedUsize (start + run.1.scalarCount)).map fun stop => ⟨start, stop, run.2, stop⟩

theorem push_spaces (index : StorageRunIndex) (run : SolveVariableStorageRun × Nat) :
    (push index run.1 run.2).parameters = index.parameters ++ (entry parameterPosition run).toList ∧
      (push index run.1 run.2).states = index.states ++ (entry statePosition run).toList := by
  unfold push entry
  cases hbase : run.1.base with
  | time => simp [parameterPosition, statePosition]
  | constant => simp [parameterPosition, statePosition]
  | p start offset =>
    simp only [parameterPosition, statePosition, Option.bind_some, Option.bind_none]
    cases checkedUsize (start + run.1.scalarCount) <;> simp
  | y start offset =>
    simp only [parameterPosition, statePosition, Option.bind_some, Option.bind_none]
    cases checkedUsize (start + run.1.scalarCount) <;> simp

theorem push_all (runs : List (SolveVariableStorageRun × Nat)) :
    (runs.foldl (fun index (run, position) => push index run position) {}).parameters =
        runs.filterMap (entry parameterPosition) ∧
      (runs.foldl (fun index (run, position) => push index run position) {}).states =
        runs.filterMap (entry statePosition) := by
  refine foldl_inv (l := runs) (fun passed (index : StorageRunIndex) =>
    index.parameters = passed.filterMap (entry parameterPosition) ∧ index.states = passed.filterMap (entry statePosition))
    (fun passed run rest index _ hindex => ?_) ⟨rfl, rfl⟩
  obtain ⟨hparameters, hstates⟩ := push_spaces index run
  refine ⟨hparameters.trans ?_, hstates.trans ?_⟩
  · rw [hindex.1, List.filterMap_append]
    cases hentry : entry parameterPosition run <;> simp [hentry]
  · rw [hindex.2, List.filterMap_append]
    cases hentry : entry statePosition run <;> simp [hentry]

theorem entries_holding {place : ScalarSlot → Option Nat} {slot : ScalarSlot} {position : Nat}
    (hcontains : ∀ run : SolveVariableStorageRun × Nat,
      run.1.contains slot = (entry place run).any (holdsAt position)) (runs : List (SolveVariableStorageRun × Nat)) :
    ((runs.filterMap (entry place)).filter (holdsAt position)).map (·.position) =
      (runs.filter fun run => run.1.contains slot).map (·.2) := by
  induction runs with
  | nil => rfl
  | cons run runs ih =>
    rw [List.filter_cons, List.filterMap_cons, hcontains run]
    cases hentry : entry place run with
    | none => simpa using ih
    | some indexed =>
      have hposition : indexed.position = run.2 := by
        obtain ⟨start, -, hmap⟩ := Option.bind_eq_some_iff.mp hentry
        obtain ⟨stop, -, rfl⟩ := Option.map_eq_some_iff.mp hmap
        rfl
      simp only [Option.any_some, List.filter_cons]
      split
      · rw [List.map_cons, List.map_cons, ih, hposition]
      · exact ih

theorem contains_p (position offset : Nat) (run : SolveVariableStorageRun × Nat) :
    run.1.contains (.p position offset) = (entry parameterPosition run).any (holdsAt position) := by
  unfold SolveVariableStorageRun.contains entry
  cases run.1.base <;> simp only [parameterPosition, Option.bind_some, Option.bind_none, Option.any_none, Option.any_map]
  rfl

theorem contains_y (position offset : Nat) (run : SolveVariableStorageRun × Nat) :
    run.1.contains (.y position offset) = (entry statePosition run).any (holdsAt position) := by
  unfold SolveVariableStorageRun.contains entry
  cases run.1.base <;> simp only [statePosition, Option.bind_some, Option.bind_none, Option.any_none, Option.any_map]
  rfl

theorem contains_time (run : SolveVariableStorageRun) : run.contains .time = false := by
  unfold SolveVariableStorageRun.contains
  cases run.base <;> rfl

theorem contains_constant (run : SolveVariableStorageRun) (value : BitVec 64) : run.contains (.constant value) = false := by
  unfold SolveVariableStorageRun.contains
  cases run.base <;> rfl

/-- The kept runs that hold a slot, as `scanned` lists them. -/
def scannedHolders (runs : List SolveVariableStorageRun) (keep : SolveVariableStorageRun → Bool) (slot : ScalarSlot) :
    List Nat :=
  (runs.zipIdx.filter fun (run, _) => keep run && run.contains slot).map (·.2)

theorem scannedHolders_eq (runs : List SolveVariableStorageRun) (keep : SolveVariableStorageRun → Bool)
    (slot : ScalarSlot) : scannedHolders runs keep slot =
      ((runs.zipIdx.filter fun (run, _) => keep run).filter fun run => run.1.contains slot).map (·.2) := by
  rw [scannedHolders, List.filter_filter]
  exact congrArg _ (List.filter_congr fun run _ => Bool.and_comm _ _)

theorem owner_new (runs : List SolveVariableStorageRun) (keep : SolveVariableStorageRun → Bool) (slot : ScalarSlot) :
    (new runs keep).owner slot = single (scannedHolders runs keep slot) := by
  obtain ⟨hparameters, hstates⟩ := push_all (runs.zipIdx.filter fun (run, _) => keep run)
  rw [scannedHolders_eq]
  cases slot with
  | p position offset =>
    rw [← entries_holding (contains_p position offset), ← hparameters]
    exact single_perm (holders_sorted _ position)
  | y position offset =>
    rw [← entries_holding (contains_y position offset), ← hstates]
    exact single_perm (holders_sorted _ position)
  | time => simp [owner, contains_time, single]
  | constant value => simp [owner, contains_constant, single]

/-- A kept run at position `i` that holds the slot. -/
def IsHolder (runs : List SolveVariableStorageRun) (keep : SolveVariableStorageRun → Bool) (slot : ScalarSlot) (i : Nat) :
    Prop :=
  ∃ run, runs[i]? = some run ∧ keep run = true ∧ run.contains slot = true

theorem mem_scannedHolders {runs : List SolveVariableStorageRun} {keep : SolveVariableStorageRun → Bool} {slot : ScalarSlot}
    {i : Nat} : i ∈ scannedHolders runs keep slot ↔ IsHolder runs keep slot i := by
  simp only [scannedHolders, List.mem_map, List.mem_filter, Bool.and_eq_true, Prod.exists, exists_eq_right, IsHolder,
    List.mk_mem_zipIdx_iff_getElem?]

theorem nodup_scannedHolders (runs : List SolveVariableStorageRun) (keep : SolveVariableStorageRun → Bool)
    (slot : ScalarSlot) : (scannedHolders runs keep slot).Nodup := by
  have hsub : (scannedHolders runs keep slot).Sublist (runs.zipIdx.map (·.2)) := List.filter_sublist.map _
  refine hsub.nodup ?_
  rw [List.zipIdx_map_snd]
  exact List.nodup_range'

theorem two_le_length_iff {l : List Nat} (h : l.Nodup) : 2 ≤ l.length ↔ ∃ i j, i ≠ j ∧ i ∈ l ∧ j ∈ l := by
  match l with
  | [] => simp
  | [a] =>
    simp only [List.length_singleton, Nat.not_ofNat_le_one, List.mem_singleton, false_iff]
    rintro ⟨i, j, hne, rfl, rfl⟩
    exact hne rfl
  | a :: b :: l =>
    have hne : a ≠ b := fun heq => (List.nodup_cons.mp h).1 (by simp [heq])
    exact iff_of_true (by simp) ⟨a, b, hne, by simp, by simp⟩

/-- The index and the scan answer alike: no run, exactly one, or two or more hold the slot. -/
theorem owner_eq_scanned (runs : List SolveVariableStorageRun) (keep : SolveVariableStorageRun → Bool)
    (slot : ScalarSlot) :
    (new runs keep).owner slot = scanned runs keep slot ∧
      ((new runs keep).owner slot = .ok none ↔ ∀ i, ¬ IsHolder runs keep slot i) ∧
      (∀ i, (new runs keep).owner slot = .ok (some i) ↔ ∀ j, IsHolder runs keep slot j ↔ j = i) ∧
      ((new runs keep).owner slot = .error .sharedSlot ↔
        ∃ i j, i ≠ j ∧ IsHolder runs keep slot i ∧ IsHolder runs keep slot j) := by
  obtain ⟨hnone, hone, hshared⟩ := single_cases (scannedHolders runs keep slot)
  rw [owner_new]
  refine ⟨rfl, hnone.trans ?_, fun i => (hone i).trans ?_, hshared.trans ?_⟩
  · simp only [List.eq_nil_iff_forall_not_mem, mem_scannedHolders]
  · rw [← List.perm_singleton, List.perm_ext_iff_of_nodup (nodup_scannedHolders runs keep slot) (List.nodup_singleton i)]
    simp only [mem_scannedHolders, List.mem_singleton]
  · rw [two_le_length_iff (nodup_scannedHolders runs keep slot)]
    simp only [mem_scannedHolders]

end StorageRunIndex

/-! ## The storage of producer targets -/

structure ProducerStorage where
  all : StorageRunIndex
  externalInputs : StorageRunIndex

namespace ProducerStorage

def new (runs : List SolveVariableStorageRun) : ProducerStorage where
  all := .new runs fun _ => true
  externalInputs := .new runs fun run => run.role = .externalInput

/-- The variable whose storage run holds `slot`. -/
def owner (storage : ProducerStorage) (slot : ScalarSlot) : Except String (Option Nat) :=
  (storage.all.owner slot).mapError fun _ => "one producer slot belongs to multiple variable-storage runs"

def externalInput (storage : ProducerStorage) (slot : ScalarSlot) : Bool := storage.externalInputs.holds slot

end ProducerStorage

end Rumoca.Solve
