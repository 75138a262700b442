import Rumoca.Lib.SortedMap
import Mathlib.Tactic.SplitIfs
/-!
# Piecewise constant maps

A map from numbers that keeps the first key of each run of equal values: the
value at a key is that of the last entry up to it, or a default before every
entry. Assigning a range of keys keeps the value of every other key.
-/

namespace Rumoca.Lib

variable {α : Type}

def valueAt (default : α) (m : List (Nat × α)) (k : Nat) : α :=
  match lastUpTo k m with
  | some entry => entry.2
  | none => default

/-- The keys from `start` on and before `stop` take `value`. -/
def assignRange [DecidableEq α] (default : α) (m : List (Nat × α)) (start stop : Nat) (value : α) : List (Nat × α) :=
  let before := if start = 0 then default else valueAt default m (start - 1)
  let after := valueAt default m stop
  let kept := m.filter fun entry => ¬ (start ≤ entry.1 ∧ entry.1 < stop)
  let kept := if before ≠ value then insertKey start value kept else kept
  if value = after then removeKey stop kept else insertKey stop after kept

section
variable {default : α} {m m' : List (Nat × α)} {k j : Nat}

theorem valueAt_of_mem (hm : Ascending m) {e : Nat × α} (he : e ∈ m) (hek : e.1 ≤ k)
    (hlast : ∀ f ∈ m, f.1 ≤ k → f.1 ≤ e.1) : valueAt default m k = e.2 := by
  unfold valueAt
  cases hfound : lastUpTo k m with
  | none => exact absurd hek (Nat.not_le.2 (lastUpTo_eq_none hfound e he))
  | some last =>
    obtain ⟨hmem, hle, hmax⟩ := hm.lastUpTo_eq_some hfound
    have hkey : last.1 = e.1 := Nat.le_antisymm (hlast last hmem hle) (hmax e he hek)
    rw [hm.eq_of_key hmem he hkey]

theorem valueAt_of_before (h : ∀ e ∈ m, k < e.1) : valueAt default m k = default := by
  unfold valueAt
  cases hfound : lastUpTo k m with
  | none => rfl
  | some last =>
    have hmem : last ∈ m.filter (·.1 ≤ k) := List.mem_of_getLast? hfound
    have hle : last.1 ≤ k := by simpa using (List.mem_filter.1 hmem).2
    exact absurd hle (Nat.not_le.2 (h last (List.mem_filter.1 hmem).1))

theorem exists_last_or_before (hm : Ascending m) (k : Nat) :
    (∃ e ∈ m, e.1 ≤ k ∧ ∀ f ∈ m, f.1 ≤ k → f.1 ≤ e.1) ∨ ∀ e ∈ m, k < e.1 := by
  cases hfound : lastUpTo k m with
  | none => exact .inr (lastUpTo_eq_none hfound)
  | some last => exact .inl ⟨last, hm.lastUpTo_eq_some hfound⟩

theorem valueAt_congr (hm : Ascending m) (hm' : Ascending m') (h : ∀ e : Nat × α, e.1 ≤ k → (e ∈ m ↔ e ∈ m')) :
    valueAt default m k = valueAt default m' k := by
  rcases exists_last_or_before hm k with ⟨e, he, hek, hlast⟩ | hbefore
  · rw [valueAt_of_mem hm he hek hlast,
      valueAt_of_mem hm' ((h e hek).1 he) hek fun f hf hfk => hlast f ((h f hfk).2 hf) hfk]
  · rw [valueAt_of_before hbefore, valueAt_of_before]
    intro e he
    by_contra hek
    exact hek (hbefore e ((h e (Nat.not_lt.1 hek)).2 he))

theorem valueAt_eq_of_gap (hm : Ascending m) (hjk : j ≤ k) (hgap : ∀ e ∈ m, e.1 ≤ k → e.1 ≤ j) :
    valueAt default m k = valueAt default m j := by
  rcases exists_last_or_before hm k with ⟨e, he, hek, hlast⟩ | hbefore
  · rw [valueAt_of_mem hm he hek hlast,
      valueAt_of_mem hm he (hgap e he hek) fun f hf hfj => hlast f hf (Nat.le_trans hfj hjk)]
  · rw [valueAt_of_before hbefore, valueAt_of_before fun e he => Nat.lt_of_le_of_lt hjk (hbefore e he)]

theorem valueAt_congr_after (hm : Ascending m) (hm' : Ascending m') {e : Nat × α} (he : e ∈ m) (hj : j < e.1)
    (hek : e.1 ≤ k) (h : ∀ e : Nat × α, j < e.1 → (e ∈ m ↔ e ∈ m')) :
    valueAt default m k = valueAt default m' k := by
  rcases exists_last_or_before hm k with ⟨f, hf, hfk, hlast⟩ | hbefore
  · have hjf : j < f.1 := Nat.lt_of_lt_of_le hj (hlast e he hek)
    rw [valueAt_of_mem hm hf hfk hlast, valueAt_of_mem hm' ((h f hjf).1 hf) hfk]
    intro g hg hgk
    by_cases hjg : j < g.1
    · exact hlast g ((h g hjg).2 hg) hgk
    · omega
  · exact absurd hek (Nat.not_le.2 (hbefore e he))

end

section
variable [DecidableEq α] {default : α} {m : List (Nat × α)} {start stop : Nat} {value : α}

theorem Ascending.assignRange (hm : Ascending m) : Ascending (assignRange default m start stop value) := by
  have hkept : Ascending (m.filter fun entry => ¬ (start ≤ entry.1 ∧ entry.1 < stop)) := hm.filter _
  have hopened : ∀ {p : Prop} [Decidable p] {kept : List (Nat × α)}, Ascending kept →
      Ascending (if p then Lib.insertKey start value kept else kept) := by
    intro p _ kept h
    split_ifs
    · exact h.insertKey _ _
    · exact h
  unfold Lib.assignRange
  dsimp only
  by_cases ha : value = valueAt default m stop
  · rw [if_pos ha]
    exact (hopened hkept).removeKey _
  · rw [if_neg ha]
    exact (hopened hkept).insertKey _ _

/-- The entries after an assignment: those outside the range, and the changes of value at its two ends. -/
theorem mem_assignRange (hm : Ascending m) (hlt : start < stop) (e : Nat × α) :
    e ∈ assignRange default m start stop value ↔
      (e = (start, value) ∧ (if start = 0 then default else valueAt default m (start - 1)) ≠ value) ∨
      (e = (stop, valueAt default m stop) ∧ value ≠ valueAt default m stop) ∨
      (e ∈ m ∧ (e.1 < start ∨ stop < e.1)) := by
  set before := if start = 0 then default else valueAt default m (start - 1) with hbefore
  have hkept : Ascending (m.filter fun entry => ¬ (start ≤ entry.1 ∧ entry.1 < stop)) := hm.filter _
  have hmem : ∀ e, e ∈ (m.filter fun entry => ¬ (start ≤ entry.1 ∧ entry.1 < stop)) ↔
      e ∈ m ∧ (e.1 < start ∨ stop ≤ e.1) := fun e => by
    rw [List.mem_filter]
    refine and_congr_right fun _ => ?_
    simp only [decide_eq_true_eq]
    omega
  unfold assignRange
  dsimp only
  rw [← hbefore]
  by_cases hb : before = value <;> by_cases ha : value = valueAt default m stop
  · rw [if_neg (not_not.2 hb), if_pos ha, mem_removeKey, hmem]
    grind
  · rw [if_neg (not_not.2 hb), if_neg ha, mem_insertKey hkept, hmem]
    grind
  · rw [if_pos hb, if_pos ha, mem_removeKey, mem_insertKey hkept, hmem]
    grind
  · rw [if_pos hb, if_neg ha, mem_insertKey (hkept.insertKey _ _), mem_insertKey hkept, hmem]
    grind

theorem valueAt_assignRange_of_lt (hm : Ascending m) (hlt : start < stop) {k : Nat} (hk : k < start) :
    valueAt default (assignRange default m start stop value) k = valueAt default m k := by
  refine valueAt_congr hm.assignRange hm fun e he => ?_
  rw [mem_assignRange hm hlt]
  grind

theorem valueAt_assignRange_of_mem (hm : Ascending m) (hlt : start < stop) {k : Nat} (hstart : start ≤ k)
    (hk : k < stop) :
    valueAt default (assignRange default m start stop value) k = value := by
  by_cases hbefore : (if start = 0 then default else valueAt default m (start - 1)) = value
  · -- The run before the range goes on through it.
    have hgap : ∀ e ∈ assignRange default m start stop value, e.1 ≤ k → e.1 < start := by
      intro e he hek
      rw [mem_assignRange hm hlt] at he
      grind
    by_cases hzero : start = 0
    · rw [if_pos hzero] at hbefore
      rw [valueAt_of_before, hbefore]
      intro e he
      by_contra hek
      have := hgap e he (Nat.not_lt.1 hek)
      omega
    · rw [if_neg hzero] at hbefore
      rw [valueAt_eq_of_gap hm.assignRange (by omega : start - 1 ≤ k) fun e he hek => by have := hgap e he hek; omega,
        valueAt_assignRange_of_lt hm hlt (by omega), hbefore]
  · refine valueAt_of_mem hm.assignRange ((mem_assignRange hm hlt (start, value)).2 (.inl ⟨rfl, hbefore⟩)) hstart ?_
    intro f hf hfk
    rw [mem_assignRange hm hlt] at hf
    grind

theorem valueAt_assignRange_of_ge (hm : Ascending m) (hlt : start < stop) {k : Nat} (hk : stop ≤ k) :
    valueAt default (assignRange default m start stop value) k = valueAt default m k := by
  by_cases hlater : ∃ e ∈ m, stop < e.1 ∧ e.1 ≤ k
  · obtain ⟨e, he, hstop, hek⟩ := hlater
    refine (valueAt_congr_after hm hm.assignRange he hstop hek fun f hf => ?_).symm
    rw [mem_assignRange hm hlt]
    grind
  · have hold : valueAt default m k = valueAt default m stop :=
      valueAt_eq_of_gap hm hk fun e he hek => by
        by_contra hgt
        exact hlater ⟨e, he, Nat.not_le.1 hgt, hek⟩
    have hgap : ∀ e ∈ assignRange default m start stop value, e.1 ≤ k → e.1 ≤ stop := by
      intro e he hek
      rw [mem_assignRange hm hlt] at he
      grind
    rw [hold]
    by_cases ha : value = valueAt default m stop
    · have hgap' : ∀ e ∈ assignRange default m start stop value, e.1 ≤ k → e.1 ≤ stop - 1 := by
        intro e he hek
        rw [mem_assignRange hm hlt] at he
        grind
      rw [valueAt_eq_of_gap hm.assignRange (by omega) hgap',
        valueAt_assignRange_of_mem hm hlt (by omega) (by omega), ← ha]
    · exact valueAt_of_mem hm.assignRange
        ((mem_assignRange hm hlt (stop, valueAt default m stop)).2 (.inr (.inl ⟨rfl, ha⟩))) hk hgap

theorem valueAt_assignRange (hm : Ascending m) (hlt : start < stop) (k : Nat) :
    valueAt default (assignRange default m start stop value) k =
      if start ≤ k ∧ k < stop then value else valueAt default m k := by
  split_ifs with h
  · exact valueAt_assignRange_of_mem hm hlt h.1 h.2
  · by_cases hk : k < start
    · exact valueAt_assignRange_of_lt hm hlt hk
    · exact valueAt_assignRange_of_ge hm hlt (by omega)

end

end Rumoca.Lib
