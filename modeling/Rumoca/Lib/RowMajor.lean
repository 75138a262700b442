import Mathlib.Algebra.BigOperators.Group.List.Basic
import Mathlib.Data.List.Forall2
import Mathlib.Tactic
/-!
# Row-major positions

The positions of an ordinal in a list of extents, the last one varying
fastest: `positionsOf` divides by the product of the later extents and
`ordinalOf` weighs with it. They are inverse below the product of the extents,
and the ordinals in order give the positions in row-major order.
-/

namespace Rumoca.Lib.RowMajor

def suffixProducts : List Nat → List Nat
  | [] => []
  | _ :: rest => rest.prod :: suffixProducts rest

def positionsOf : (extents : List Nat) → (ordinal : Nat) → List Nat
  | [], _ => []
  | extent :: rest, ordinal => (ordinal / rest.prod) % extent :: positionsOf rest ordinal

def ordinalOf : (extents positions : List Nat) → Nat
  | _ :: rest, position :: positions => position * rest.prod + ordinalOf rest positions
  | _, _ => 0

def choices {α : Type*} : List (List α) → List (List α)
  | [] => [[]]
  | values :: rest => values.flatMap fun value => (choices rest).map (value :: ·)

theorem positionsOf_mod (extents : List Nat) (k n : Nat) :
    positionsOf extents (n % (k * extents.prod)) = positionsOf extents n := by
  induction extents generalizing k with
  | nil => rfl
  | cons extent rest ih =>
    rw [List.prod_cons, ← Nat.mul_assoc, positionsOf, positionsOf, ih (k * extent), Nat.mod_mul_left_div_self,
      Nat.mod_mod_of_dvd _ (Dvd.intro_left k rfl)]

theorem positionsOf_lt {extents : List Nat} (h : ∀ extent ∈ extents, 0 < extent) (n : Nat) :
    List.Forall₂ (· < ·) (positionsOf extents n) extents := by
  induction extents with
  | nil => exact .nil
  | cons extent rest ih =>
    exact .cons (Nat.mod_lt _ (h extent (by simp))) (ih fun e he => h e (by simp [he]))

theorem ordinalOf_positionsOf (extents : List Nat) (n : Nat) :
    ordinalOf extents (positionsOf extents n) = n % extents.prod := by
  induction extents with
  | nil => simp [ordinalOf, Nat.mod_one]
  | cons extent rest ih =>
    rw [positionsOf, ordinalOf, ih, List.prod_cons, Nat.mul_comm extent, Nat.mod_mul, Nat.mul_comm, Nat.add_comm]

theorem range_mul (m n : Nat) :
    List.range (m * n) = (List.range m).flatMap fun i => (List.range n).map fun j => i * n + j := by
  induction m with
  | zero => simp
  | succ m ih =>
    rw [Nat.succ_mul, List.range_add, ih, List.range_succ, List.flatMap_append, List.flatMap_singleton]

theorem map_positionsOf_range (extents : List Nat) :
    (List.range extents.prod).map (positionsOf extents) = choices (extents.map List.range) := by
  induction extents with
  | nil => rfl
  | cons extent rest ih =>
    rw [List.prod_cons, range_mul, List.map_flatMap, List.map_cons, choices, ← ih]
    refine List.flatMap_congr fun i hi => ?_
    rw [List.map_map, List.map_map]
    refine List.map_congr_left fun j hj => ?_
    have hj : j < rest.prod := List.mem_range.1 hj
    have hi : i < extent := List.mem_range.1 hi
    simp only [Function.comp_apply, positionsOf]
    congr 1
    · rw [Nat.add_comm, Nat.add_mul_div_right _ _ (Nat.zero_lt_of_lt hj), Nat.div_eq_of_lt hj, Nat.zero_add,
        Nat.mod_eq_of_lt hi]
    · rw [← positionsOf_mod rest 1, Nat.one_mul, Nat.mul_comm, Nat.mul_add_mod, Nat.mod_eq_of_lt hj]

/-! ## Choices -/

section
variable {α β : Type*}

theorem mem_choices {lists : List (List α)} {choice : List α} :
    choice ∈ choices lists ↔ List.Forall₂ (· ∈ ·) choice lists := by
  induction lists generalizing choice with
  | nil => simp [choices]
  | cons values rest ih =>
    simp only [choices, List.mem_flatMap, List.mem_map, ih]
    constructor
    · rintro ⟨value, hv, tail, ht, rfl⟩
      exact .cons hv ht
    · intro h
      cases h with
      | @cons value _ tail _ hv ht => exact ⟨value, hv, tail, ht, rfl⟩

theorem nodup_choices {lists : List (List α)} (h : ∀ values ∈ lists, values.Nodup) : (choices lists).Nodup := by
  induction lists with
  | nil => simp [choices]
  | cons values rest ih =>
    refine List.nodup_flatMap.2 ⟨fun value _ => ?_, ?_⟩
    · exact (ih fun v hv => h v (by simp [hv])).map fun _ _ heq => (List.cons.inj heq).2
    · refine (h values (by simp)).imp fun hne => ?_
      rw [Function.onFun, List.disjoint_left]
      intro choice hc hc'
      obtain ⟨_, -, rfl⟩ := List.mem_map.1 hc
      obtain ⟨_, -, heq⟩ := List.mem_map.1 hc'
      exact hne (List.cons.inj heq).1.symm

theorem choices_zipWith {f : α → Nat → β} {items : List α} {lists : List (List Nat)} (hlen : items.length = lists.length) :
    (choices lists).map (List.zipWith f items) = choices (List.zipWith (fun item values => values.map (f item)) items lists) := by
  induction items generalizing lists with
  | nil =>
    cases lists with
    | nil => rfl
    | cons _ _ => simp at hlen
  | cons item items ih =>
    cases lists with
    | nil => simp at hlen
    | cons values lists =>
      rw [choices, List.map_flatMap, List.zipWith_cons_cons, choices, List.flatMap_map,
        ← ih (by simpa using hlen)]
      refine List.flatMap_congr fun value _ => ?_
      rw [List.map_map, List.map_map]
      rfl

end

end Rumoca.Lib.RowMajor
