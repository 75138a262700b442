import Mathlib.Data.List.Basic
/-!
# Maps in key order

A map from numbers as the list of its entries, ascending by key.
-/

namespace Rumoca.Lib

variable {α : Type}

def Ascending (m : List (Nat × α)) : Prop := m.Pairwise (·.1 < ·.1)

def insertKey (k : Nat) (v : α) : List (Nat × α) → List (Nat × α)
  | [] => [(k, v)]
  | e :: rest =>
    if k < e.1 then (k, v) :: e :: rest
    else if k = e.1 then (k, v) :: rest
    else e :: insertKey k v rest

def removeKey (k : Nat) (m : List (Nat × α)) : List (Nat × α) := m.filter (·.1 ≠ k)

/-- The entry with the last key up to `k`. -/
def lastUpTo (k : Nat) (m : List (Nat × α)) : Option (Nat × α) := (m.filter (·.1 ≤ k)).getLast?

theorem mem_insertKey {k : Nat} {v : α} {m : List (Nat × α)} (h : Ascending m) (e : Nat × α) :
    e ∈ insertKey k v m ↔ e = (k, v) ∨ (e ∈ m ∧ e.1 ≠ k) := by
  induction m with
  | nil => simp [insertKey]
  | cons first rest ih =>
    obtain ⟨hfirst, hrest⟩ := List.pairwise_cons.1 h
    unfold insertKey
    split_ifs with hlt heq
    · have hne : ∀ e ∈ first :: rest, e.1 ≠ k := by
        intro e he
        rcases List.mem_cons.1 he with rfl | he
        · omega
        · have := hfirst e he
          omega
      rw [List.mem_cons]
      exact or_congr_right ⟨fun he => ⟨he, hne e he⟩, fun he => he.1⟩
    · subst heq
      have hne : ∀ e ∈ rest, e.1 ≠ first.1 := fun e he => Nat.ne_of_gt (hfirst e he)
      rw [List.mem_cons, List.mem_cons]
      refine or_congr_right ⟨fun he => ⟨.inr he, hne e he⟩, fun he => he.1.resolve_left ?_⟩
      rintro rfl
      exact he.2 rfl
    · rw [List.mem_cons, ih hrest, List.mem_cons]
      constructor
      · rintro (rfl | rfl | ⟨he, hne⟩)
        · exact .inr ⟨.inl rfl, Ne.symm heq⟩
        · exact .inl rfl
        · exact .inr ⟨.inr he, hne⟩
      · rintro (rfl | ⟨rfl | he, hne⟩)
        · exact .inr (.inl rfl)
        · exact .inl rfl
        · exact .inr (.inr ⟨he, hne⟩)

theorem Ascending.insertKey {m : List (Nat × α)} (h : Ascending m) (k : Nat) (v : α) : Ascending (insertKey k v m) := by
  induction m with
  | nil => exact List.pairwise_singleton _ _
  | cons first rest ih =>
    obtain ⟨hfirst, hrest⟩ := List.pairwise_cons.1 h
    unfold Lib.insertKey
    split_ifs with hlt heq
    · refine List.pairwise_cons.2 ⟨fun e he => ?_, h⟩
      rcases List.mem_cons.1 he with rfl | he
      · exact hlt
      · exact Nat.lt_trans hlt (hfirst e he)
    · subst heq
      exact List.pairwise_cons.2 ⟨hfirst, hrest⟩
    · refine List.pairwise_cons.2 ⟨fun e he => ?_, ih hrest⟩
      rcases (mem_insertKey hrest e).1 he with rfl | ⟨he, -⟩
      · show first.1 < k
        omega
      · exact hfirst e he

theorem Ascending.removeKey {m : List (Nat × α)} (h : Ascending m) (k : Nat) : Ascending (removeKey k m) := h.filter _

theorem mem_removeKey {k : Nat} {m : List (Nat × α)} (e : Nat × α) : e ∈ removeKey k m ↔ e ∈ m ∧ e.1 ≠ k := by
  simp [removeKey]

theorem Ascending.eq_of_key {m : List (Nat × α)} (h : Ascending m) {e f : Nat × α} (he : e ∈ m) (hf : f ∈ m)
    (hkey : e.1 = f.1) : e = f := by
  induction m with
  | nil => cases he
  | cons first rest ih =>
    obtain ⟨hfirst, hrest⟩ := List.pairwise_cons.1 h
    rcases List.mem_cons.1 he with rfl | he' <;> rcases List.mem_cons.1 hf with rfl | hf'
    · rfl
    · exact absurd hkey (Nat.ne_of_lt (hfirst f hf'))
    · exact absurd hkey (Nat.ne_of_gt (hfirst e he'))
    · exact ih hrest he' hf'

theorem Ascending.mem_takeWhile {m : List (Nat × α)} (h : Ascending m) (stop : Nat) (e : Nat × α) :
    e ∈ m.takeWhile (·.1 < stop) ↔ e ∈ m ∧ e.1 < stop := by
  induction m with
  | nil => simp
  | cons first rest ih =>
    obtain ⟨hfirst, hrest⟩ := List.pairwise_cons.1 h
    rw [List.takeWhile_cons]
    split_ifs with hlt
    · rw [List.mem_cons, ih hrest, List.mem_cons]
      have hlt' : first.1 < stop := by simpa using hlt
      constructor
      · rintro (rfl | ⟨he, hs⟩)
        · exact ⟨.inl rfl, hlt'⟩
        · exact ⟨.inr he, hs⟩
      · rintro ⟨rfl | he, hs⟩
        · exact .inl rfl
        · exact .inr ⟨he, hs⟩
    · have hge : stop ≤ first.1 := by simpa using hlt
      refine iff_of_false (by simp) ?_
      rintro ⟨he, hs⟩
      rcases List.mem_cons.1 he with rfl | he
      · omega
      · have := hfirst e he
        omega

theorem lastUpTo_eq_none {k : Nat} {m : List (Nat × α)} (h : lastUpTo k m = none) : ∀ e ∈ m, k < e.1 := by
  intro e he
  rw [lastUpTo, List.getLast?_eq_none_iff] at h
  by_contra hle
  exact List.not_mem_nil (h ▸ List.mem_filter.2 ⟨he, by simpa using hle⟩)

theorem Ascending.lastUpTo_eq_some {m : List (Nat × α)} (hm : Ascending m) {k : Nat} {last : Nat × α}
    (h : lastUpTo k m = some last) : last ∈ m ∧ last.1 ≤ k ∧ ∀ e ∈ m, e.1 ≤ k → e.1 ≤ last.1 := by
  obtain ⟨init, hinit⟩ := List.getLast?_eq_some_iff.1 h
  have hmem : ∀ e, e ∈ init ++ [last] ↔ e ∈ m ∧ e.1 ≤ k := fun e => by
    rw [← hinit, List.mem_filter]
    simp
  obtain ⟨hlast, hle⟩ := (hmem last).1 (by simp)
  refine ⟨hlast, hle, fun e he hek => ?_⟩
  have hsorted : (init ++ [last]).Pairwise (·.1 < ·.1) := hinit ▸ hm.filter _
  rcases List.mem_append.1 ((hmem e).2 ⟨he, hek⟩) with he' | he'
  · exact Nat.le_of_lt ((List.pairwise_append.1 hsorted).2.2 e he' last (by simp))
  · exact Nat.le_of_eq (congrArg Prod.fst (List.mem_singleton.1 he'))

end Rumoca.Lib
