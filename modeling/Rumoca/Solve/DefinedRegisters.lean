import Rumoca.Lib.Loop
import Rumoca.Lib.SortedMap
import Rumoca.Solve.ProjectionStages
/-!
# Defined registers

The registers an earlier write defined, as nonempty runs from a start to an
exclusive end, ascending and with a gap between any two. An operation defines
or undefines a range; a query names the first register of a range, contiguous
or strided, that is not defined, or the first that is.
-/

namespace Rumoca.Solve

open Lib

abbrev DefinedRegisters := List (Nat × Nat)

namespace DefinedRegisters

/-! ## The operations -/

def coveredTo (runs : DefinedRegisters) (register : Nat) : Option Nat :=
  match lastUpTo register runs with
  | some run => if register < run.2 then some run.2 else none
  | none => none

/-- `as Reg`. -/
def asReg (register : Nat) : Nat := register % u32Limit

def firstUndefined (runs : DefinedRegisters) (start len : Nat) : Option Nat :=
  let stop := saturatingAddUsize start len
  if stop ≤ start then none
  else
    match coveredTo runs start with
    | some covered => if covered < stop then some (asReg covered) else none
    | none => some (asReg start)

def contains (runs : DefinedRegisters) (register : Nat) : Bool := (firstUndefined runs register 1).isNone

/-- The elements from `ordinal` on: a run covers a block of them at once. -/
def firstUndefinedFrom (runs : DefinedRegisters) (start count stride ordinal : Nat) : Option Nat :=
  if ordinal < count then
    let register := start + ordinal * stride
    match coveredTo runs register with
    | some covered =>
      firstUndefinedFrom runs start count stride (ordinal + ((covered - 1 - register) / max stride 1 + 1))
    | none => some (asReg register)
  else none
termination_by count - ordinal
decreasing_by exact Nat.sub_lt_sub_left (by assumption) (Nat.lt_add_of_pos_right (Nat.succ_pos _))

def firstUndefinedStrided (runs : DefinedRegisters) (start count stride : Nat) : Option Nat :=
  firstUndefinedFrom runs start count stride 0

/-- `self.runs.range(start..stop).next()`. A range that starts past its end panics. -/
def firstDefined (runs : DefinedRegisters) (start len : Nat) : Option (Option Nat) :=
  let stop := saturatingAddUsize start len
  match coveredTo runs start with
  | some _ => some (if start < stop then some (asReg start) else none)
  | none =>
    if stop < start then none
    else some (((runs.filter fun run => start ≤ run.1 ∧ run.1 < stop).head?).map fun run => asReg run.1)

/-- One run absorbed into a new one, by the runs left and the new run's end. -/
def absorb (s : DefinedRegisters × Nat) (runStart : Nat) : DefinedRegisters × Nat :=
  match s.1.find? (·.1 = runStart) with
  | some run => (removeKey runStart s.1, max s.2 run.2)
  | none => s

def widen (runs : DefinedRegisters) (start stop : Nat) : Nat × Nat :=
  match lastUpTo start runs with
  | some run => if start ≤ run.2 then (run.1, max stop run.2) else (start, stop)
  | none => (start, stop)

def merge (runs : DefinedRegisters) (start stop : Nat) : DefinedRegisters :=
  let widened := widen runs start stop
  let absorbed := (runs.filter fun run => widened.1 ≤ run.1 ∧ run.1 ≤ widened.2).map Prod.fst
  let merged := absorbed.foldl absorb (runs, widened.2)
  insertKey widened.1 merged.2 merged.1

def insert (runs : DefinedRegisters) (start len : Nat) : DefinedRegisters :=
  let stop := saturatingAddUsize start len
  if stop ≤ start then runs
  else
    match runs.getLast? with
    | none => insertKey start stop runs
    | some last =>
      -- a range past every run extends the last run or opens a new one
      if last.2 ≤ start then
        if start = last.2 then insertKey last.1 stop runs else insertKey start stop runs
      else merge runs start stop

def cut (cutStart cutStop : Nat) (runs : DefinedRegisters) (run : Nat × Nat) : DefinedRegisters :=
  let runs := removeKey run.1 runs
  let runs := if run.1 < cutStart then insertKey run.1 cutStart runs else runs
  if cutStop < run.2 then insertKey cutStop run.2 runs else runs

def remove (runs : DefinedRegisters) (start len : Nat) : DefinedRegisters :=
  let stop := saturatingAddUsize start len
  if stop ≤ start then runs
  else
    let overlapping := (runs.filter (·.1 < stop)).reverse.takeWhile (start < ·.2)
    overlapping.foldl (cut start stop) runs

def set (runs : DefinedRegisters) (start len : Nat) (defined : Bool) : DefinedRegisters :=
  if defined then insert runs start len else remove runs start len

/-! ## Canonical runs -/

/-- Nonempty runs in ascending order with a gap between any two. -/
structure Canonical (runs : DefinedRegisters) : Prop where
  ascending : Ascending runs
  nonempty : ∀ run ∈ runs, run.1 < run.2
  gap : ∀ run ∈ runs, ∀ later ∈ runs, run.1 < later.1 → run.2 < later.1

def Covers (runs : DefinedRegisters) (register : Nat) : Prop := ∃ run ∈ runs, run.1 ≤ register ∧ register < run.2

variable {runs : DefinedRegisters} {run later : Nat × Nat} {start stop register : Nat}

theorem Canonical.eq (h : Canonical runs) (hrun : run ∈ runs) (hlater : later ∈ runs) (hstart : run.1 ≤ register)
    (hstop : register ≤ run.2) (hstart' : later.1 ≤ register) (hstop' : register ≤ later.2) : run = later := by
  rcases Nat.lt_trichotomy run.1 later.1 with hlt | heq | hlt
  · have := h.gap run hrun later hlater hlt
    omega
  · exact h.ascending.eq_of_key hrun hlater heq
  · have := h.gap later hlater run hrun hlt
    omega

theorem coveredTo_eq_some (h : Canonical runs) {covered : Nat} (hcovered : coveredTo runs register = some covered) :
    ∃ run ∈ runs, run.1 ≤ register ∧ register < run.2 ∧ run.2 = covered := by
  unfold coveredTo at hcovered
  split at hcovered
  · rename_i run hrun
    obtain ⟨hmem, hle, -⟩ := h.ascending.lastUpTo_eq_some hrun
    split_ifs at hcovered with hlt
    exact ⟨run, hmem, hle, hlt, Option.some.inj hcovered⟩
  · cases hcovered

theorem coveredTo_eq_none (h : Canonical runs) (hnone : coveredTo runs register = none) : ¬Covers runs register := by
  rintro ⟨run, hrun, hstart, hstop⟩
  unfold coveredTo at hnone
  split at hnone
  · rename_i last hlast
    obtain ⟨hmem, hle, hmax⟩ := h.ascending.lastUpTo_eq_some hlast
    split_ifs at hnone with hlt
    rcases (hmax run hrun hstart).lt_or_eq with hless | heq
    · have := h.gap run hrun last hmem hless
      omega
    · rw [h.ascending.eq_of_key hrun hmem heq] at hstop
      exact hlt hstop
  · rename_i hlast
    have := lastUpTo_eq_none hlast run hrun
    omega

theorem Canonical.not_covers_stop (h : Canonical runs) (hrun : run ∈ runs) : ¬Covers runs run.2 := by
  rintro ⟨later, hlater, hstart, hstop⟩
  have hne := h.nonempty run hrun
  obtain rfl := h.eq hrun hlater (Nat.le_of_lt hne) le_rfl hstart (Nat.le_of_lt hstop)
  exact absurd hstop (Nat.lt_irrefl _)

/-! ## Queries -/

/-- The lowest number of a range that satisfies `p`. -/
def IsFirst (p : Nat → Prop) (start stop : Nat) (register : Nat) : Prop :=
  start ≤ register ∧ register < stop ∧ p register ∧ ∀ r, start ≤ r → r < register → ¬p r

theorem firstUndefined_spec (h : Canonical runs) (start len : Nat) :
    (∀ r, firstUndefined runs start len = some r →
      ∃ register, r = asReg register ∧ IsFirst (fun r => ¬Covers runs r) start (saturatingAddUsize start len) register) ∧
    (firstUndefined runs start len = none → ∀ r, start ≤ r → r < saturatingAddUsize start len → Covers runs r) := by
  unfold firstUndefined
  dsimp only
  by_cases hempty : saturatingAddUsize start len ≤ start
  · rw [if_pos hempty]
    exact ⟨fun r hr => (nomatch hr), fun _ r hr hr' => by omega⟩
  · rw [if_neg hempty]
    cases hcovered : coveredTo runs start with
    | none =>
      refine ⟨fun r hr => ⟨start, (Option.some.inj hr).symm, le_rfl, by omega, coveredTo_eq_none h hcovered,
        fun r hr hr' => by omega⟩, fun hr => (nomatch hr)⟩
    | some covered =>
      obtain ⟨run, hrun, hle, hlt, rfl⟩ := coveredTo_eq_some h hcovered
      by_cases hend : run.2 < saturatingAddUsize start len
      · simp only [if_pos hend]
        refine ⟨fun r hr => ⟨run.2, (Option.some.inj hr).symm, by omega, hend, h.not_covers_stop hrun, fun r hr hr' => ?_⟩,
          fun hr => (nomatch hr)⟩
        exact not_not.2 ⟨run, hrun, by omega, hr'⟩
      · simp only [if_neg hend]
        exact ⟨fun r hr => (nomatch hr), fun _ r hr hr' => ⟨run, hrun, by omega, by omega⟩⟩

theorem firstUndefinedFrom_spec (h : Canonical runs) (start count stride ordinal : Nat)
    (hbefore : ∀ i < ordinal, i < count → Covers runs (start + i * stride)) :
    (∀ r, firstUndefinedFrom runs start count stride ordinal = some r →
      ∃ i < count, r = asReg (start + i * stride) ∧ ¬Covers runs (start + i * stride) ∧
        ∀ j < i, Covers runs (start + j * stride)) ∧
    (firstUndefinedFrom runs start count stride ordinal = none → ∀ i < count, Covers runs (start + i * stride)) := by
  induction hleft : count - ordinal using Nat.strong_induction_on generalizing ordinal with
  | _ left ih =>
    unfold firstUndefinedFrom
    by_cases hlt : ordinal < count
    · rw [if_pos hlt]
      dsimp only
      cases hcovered : coveredTo runs (start + ordinal * stride) with
      | none =>
        refine ⟨fun r hr => ⟨ordinal, hlt, (Option.some.inj hr).symm, coveredTo_eq_none h hcovered, fun j hj =>
          hbefore j hj (hj.trans hlt)⟩, fun hr => (nomatch hr)⟩
      | some covered =>
        obtain ⟨run, hrun, hle, hreach, rfl⟩ := coveredTo_eq_some h hcovered
        obtain ⟨block, hblock⟩ : ∃ block, block = (run.2 - 1 - (start + ordinal * stride)) / max stride 1 := ⟨_, rfl⟩
        simp only [← hblock]
        refine ih (count - (ordinal + (block + 1))) (by omega) (ordinal + (block + 1)) (fun i hi hi' => ?_) rfl
        rcases Nat.lt_or_ge i ordinal with hearly | hlate
        · exact hbefore i hearly hi'
        · -- the elements of the block lie in the run
          obtain ⟨offset, rfl⟩ : ∃ offset, i = ordinal + offset := ⟨i - ordinal, by omega⟩
          have hoffset : offset ≤ block := by omega
          have hmul : offset * stride ≤ run.2 - 1 - (start + ordinal * stride) := by
            calc offset * stride ≤ block * max stride 1 := Nat.mul_le_mul hoffset (le_max_left _ _)
              _ ≤ run.2 - 1 - (start + ordinal * stride) := hblock ▸ Nat.div_mul_le_self _ _
          refine ⟨run, hrun, ?_, ?_⟩
          · rw [Nat.add_mul]
            omega
          · rw [Nat.add_mul]
            omega
    · rw [if_neg hlt]
      exact ⟨fun r hr => (nomatch hr), fun _ i hi => hbefore i (by omega) hi⟩

theorem firstDefined_spec (h : Canonical runs) (len : Nat) (hstart : start < usizeLimit) :
    ∃ answer, firstDefined runs start len = some answer ∧
      (∀ r, answer = some r →
        ∃ register, r = asReg register ∧ IsFirst (Covers runs) start (saturatingAddUsize start len) register) ∧
      (answer = none → ∀ r, start ≤ r → r < saturatingAddUsize start len → ¬Covers runs r) := by
  unfold firstDefined
  dsimp only
  cases hcovered : coveredTo runs start with
  | some covered =>
    obtain ⟨run, hrun, hle, hlt, -⟩ := coveredTo_eq_some h hcovered
    refine ⟨_, rfl, fun r hr => ?_, fun hr r hr' hr'' => ?_⟩
    · split_ifs at hr with hrange
      exact ⟨start, (Option.some.inj hr).symm, le_rfl, hrange, ⟨run, hrun, hle, hlt⟩, fun r hr hr' => by omega⟩
    · split_ifs at hr with hrange
      omega
  | none =>
    have hnot := coveredTo_eq_none h hcovered
    have hstop : ¬saturatingAddUsize start len < start := by
      unfold saturatingAddUsize
      omega
    dsimp only
    rw [if_neg hstop]
    -- a covered register of the range lies in a run that starts in it
    have hin : ∀ r, start ≤ r → r < saturatingAddUsize start len → Covers runs r →
        ∃ run ∈ runs.filter fun run => start ≤ run.1 ∧ run.1 < saturatingAddUsize start len, run.1 ≤ r := by
      rintro r hr hr' ⟨run, hrun, hle, hlt⟩
      refine ⟨run, List.mem_filter.2 ⟨hrun, ?_⟩, hle⟩
      simp only [Bool.decide_and, Bool.and_eq_true, decide_eq_true_eq]
      refine ⟨?_, by omega⟩
      by_contra hbefore
      exact hnot ⟨run, hrun, by omega, by omega⟩
    refine ⟨_, rfl, fun r hr => ?_, fun hr r hr' hr'' hcovers => ?_⟩
    · obtain ⟨first, hfirst, rfl⟩ := Option.map_eq_some_iff.1 hr
      obtain ⟨rest, hrest⟩ := List.head?_eq_some_iff.1 hfirst
      have hmem : first ∈ runs.filter fun run => start ≤ run.1 ∧ run.1 < saturatingAddUsize start len :=
        hrest ▸ List.mem_cons_self
      obtain ⟨hrun, hrange⟩ := List.mem_filter.1 hmem
      simp only [Bool.decide_and, Bool.and_eq_true, decide_eq_true_eq] at hrange
      refine ⟨first.1, rfl, hrange.1, hrange.2, ⟨first, hrun, le_rfl, h.nonempty first hrun⟩, fun r hr hr' hcovers => ?_⟩
      obtain ⟨run, hrun', hle⟩ := hin r hr (by omega) hcovers
      have hsorted : (first :: rest).Pairwise (·.1 < ·.1) := hrest ▸ h.ascending.filter _
      rw [hrest] at hrun'
      rcases List.mem_cons.1 hrun' with rfl | hlater
      · omega
      · have := (List.pairwise_cons.1 hsorted).1 run hlater
        omega
    · rw [Option.map_eq_none_iff, List.head?_eq_none_iff] at hr
      obtain ⟨run, hrun, -⟩ := hin r hr' hr'' hcovers
      rw [hr] at hrun
      exact List.not_mem_nil hrun

end DefinedRegisters

end Rumoca.Solve
