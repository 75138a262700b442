import Mathlib.Data.List.Induction
import Mathlib.Data.List.Nodup
/-!
# Keyed lists

A map as the list of its entries, and the lists that a pass pushes values onto
by key.
-/

namespace Rumoca.Lib

/-- `entry(key).or_default().push(value)` of an insertion-ordered map. -/
def pushEntry {κ α : Type} [DecidableEq κ] (sets : List (κ × List α)) (key : κ) (value : α) : List (κ × List α) :=
  match sets with
  | [] => [(key, [value])]
  | (name, values) :: rest =>
    if name = key then (name, values ++ [value]) :: rest else (name, values) :: pushEntry rest key value

theorem lookup_pushEntry {κ α : Type} [DecidableEq κ] (sets : List (κ × List α)) (root : κ) (var : α) (key : κ) :
    (pushEntry sets root var).lookup key =
      if key = root then some (((sets.lookup root).getD []) ++ [var]) else sets.lookup key := by
  induction sets with
  | nil =>
    by_cases hk : key = root
    · simp [pushEntry, hk]
    · simp [pushEntry, hk]
  | cons entry sets ih =>
    obtain ⟨name, vars⟩ := entry
    by_cases hn : name = root
    · subst hn
      by_cases hk : key = name
      · simp [pushEntry, hk]
      · rw [pushEntry, if_pos rfl, if_neg hk, List.lookup_cons, List.lookup_cons, beq_false_of_ne hk]
    · rw [pushEntry, if_neg hn, List.lookup_cons, List.lookup_cons, List.lookup_cons, beq_false_of_ne (Ne.symm hn), ih]
      by_cases hk : key = name
      · subst hk
        simp [hn]
      · rw [beq_false_of_ne hk]

theorem keys_pushEntry {κ α : Type} [DecidableEq κ] (sets : List (κ × List α)) (root : κ) (var : α) :
    (pushEntry sets root var).map (·.1) =
      if root ∈ sets.map (·.1) then sets.map (·.1) else sets.map (·.1) ++ [root] := by
  induction sets with
  | nil => rfl
  | cons entry sets ih =>
    obtain ⟨name, vars⟩ := entry
    by_cases hn : name = root
    · simp [pushEntry, hn]
    · rw [pushEntry, if_neg hn, List.map_cons, ih, List.map_cons]
      by_cases hr : root ∈ sets.map (·.1)
      · rw [if_pos hr, if_pos (List.mem_cons_of_mem _ hr)]
      · rw [if_neg hr, if_neg, List.cons_append]
        rw [List.mem_cons, not_or]
        exact ⟨Ne.symm hn, hr⟩

theorem keys_pushEntry_nodup {κ α : Type} [DecidableEq κ] {sets : List (κ × List α)}
    (h : (sets.map (·.1)).Nodup) (root : κ) (var : α) : ((pushEntry sets root var).map (·.1)).Nodup := by
  rw [keys_pushEntry]
  split
  · exact h
  · next hn =>
    refine List.nodup_append.2 ⟨h, List.nodup_singleton root, fun a ha b hb he => hn ?_⟩
    rw [← List.mem_singleton.1 hb, ← he]
    exact ha

theorem lookup_of_mem_keys {κ α : Type} [DecidableEq κ] {sets : List (κ × α)} (hkeys : (sets.map (·.1)).Nodup)
    {entry : κ × α} (he : entry ∈ sets) : sets.lookup entry.1 = some entry.2 := by
  induction sets with
  | nil => cases he
  | cons head sets ih =>
    rw [List.map_cons, List.nodup_cons] at hkeys
    rw [List.lookup_cons]
    rcases List.mem_cons.1 he with rfl | he
    · rw [beq_self_eq_true]
    · have hne : entry.1 ≠ head.1 := fun h => hkeys.1 (h ▸ List.mem_map_of_mem he)
      rw [beq_false_of_ne hne]
      exact ih hkeys.2 he

/-! ## Ordered maps -/

/-- `insert` of an ordered map. -/
def insertEntry {α : Type} (entries : List (Nat × α)) (key : Nat) (value : α) : List (Nat × α) :=
  match entries with
  | [] => [(key, value)]
  | (k, v) :: rest =>
    if key < k then (key, value) :: (k, v) :: rest
    else if key = k then (key, value) :: rest
    else (k, v) :: insertEntry rest key value

theorem lookup_insertEntry {α : Type} (entries : List (Nat × α)) (key : Nat) (value : α) (k : Nat) :
    (insertEntry entries key value).lookup k = if k = key then some value else entries.lookup k := by
  induction entries with
  | nil =>
    by_cases hk : k = key
    · simp [insertEntry, hk]
    · simp [insertEntry, hk]
  | cons entry rest ih =>
    obtain ⟨name, old⟩ := entry
    unfold insertEntry
    split
    · by_cases hk : k = key
      · simp [hk]
      · rw [List.lookup_cons, beq_false_of_ne hk, if_neg hk]
    · split
      · next h =>
        subst h
        by_cases hk : k = key
        · simp [hk]
        · rw [List.lookup_cons, List.lookup_cons, beq_false_of_ne hk, if_neg hk]
      · next h =>
        rw [List.lookup_cons, List.lookup_cons, ih]
        by_cases hk : k = name
        · subst hk
          simp [Ne.symm h]
        · rw [beq_false_of_ne hk]

/-- `collect` into an ordered map: the last value of a key stays. -/
def collectEntries {α : Type} (entries : List (Nat × α)) : List (Nat × α) :=
  entries.foldl (fun collected entry => insertEntry collected entry.1 entry.2) []

theorem lookup_collectEntries {α : Type} (entries : List (Nat × α)) (k : Nat) :
    (collectEntries entries).lookup k = entries.reverse.lookup k := by
  induction entries using List.reverseRecOn with
  | nil => rfl
  | append_singleton entries entry ih =>
    rw [collectEntries, List.foldl_append] at *
    rw [List.foldl_cons, List.foldl_nil, lookup_insertEntry, List.reverse_append, List.reverse_singleton,
      List.singleton_append, List.lookup_cons, ih]
    by_cases hk : k = entry.1
    · rw [if_pos hk, hk, beq_self_eq_true]
    · rw [if_neg hk, beq_false_of_ne hk]

theorem mem_of_lookup_collectEntries {α : Type} {entries : List (Nat × α)} {k : Nat} {value : α}
    (h : (collectEntries entries).lookup k = some value) : (k, value) ∈ entries := by
  rw [lookup_collectEntries] at h
  obtain ⟨before, after, hsplit, -⟩ := List.lookup_eq_some_iff.1 h
  rw [← List.mem_reverse, hsplit]
  simp

theorem lookup_collectEntries_eq_some {α : Type} {entries : List (Nat × α)} (hkeys : (entries.map (·.1)).Nodup)
    {k : Nat} {value : α} : (collectEntries entries).lookup k = some value ↔ (k, value) ∈ entries := by
  refine ⟨mem_of_lookup_collectEntries, fun h => ?_⟩
  have hreverse : (entries.reverse.map (·.1)).Nodup := by
    rw [List.map_reverse]
    exact List.nodup_reverse.2 hkeys
  rw [lookup_collectEntries]
  exact lookup_of_mem_keys hreverse (List.mem_reverse.2 h)

end Rumoca.Lib
