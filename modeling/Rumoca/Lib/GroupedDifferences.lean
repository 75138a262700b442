import Mathlib.Data.Finset.Card
import Mathlib.Data.Fintype.Card
import Mathlib.Tactic
/-!
# Difference constraints between two families of grouped values

Rows and columns hold values that must agree within a group, lie above a start,
and satisfy `c i + w ≤ d j` for the edges and `d j ≤ c i + w` for the ties. A
sweep raises a pair to what the constraints ask of it. From below the least
solution each sweep settles one more group of rows, and one more sweep reaches
the least solution (`unsettled_lt`, `Sweep.reaches`).
-/

namespace Rumoca.Lib

variable {ι κ γ δ : Type*}

abbrev GroupedValues (ι κ : Type*) := (ι → Nat) × (κ → Nat)

theorem GroupedValues.row_le {x y : GroupedValues ι κ} (h : x ≤ y) (i : ι) : x.1 i ≤ y.1 i := h.1 i

theorem GroupedValues.column_le {x y : GroupedValues ι κ} (h : x ≤ y) (j : κ) : x.2 j ≤ y.2 j := h.2 j

structure GroupedConstraints (ι κ γ δ : Type*) where
  start : GroupedValues ι κ
  rowOwner : ι → γ
  columnOwner : κ → δ
  edge : ι → κ → Nat → Prop
  tie : ι → κ → Nat → Prop

open GroupedValues

namespace GroupedConstraints

variable (K : GroupedConstraints ι κ γ δ)

structure Solves (s : GroupedValues ι κ) : Prop where
  start_le : K.start ≤ s
  rows : ∀ i i', K.rowOwner i = K.rowOwner i' → s.1 i = s.1 i'
  columns : ∀ j j', K.columnOwner j = K.columnOwner j' → s.2 j = s.2 j'
  edges : ∀ i j w, K.edge i j w → s.1 i + w ≤ s.2 j
  ties : ∀ i j w, K.tie i j w → s.2 j ≤ s.1 i + w

def IsLeast (s : GroupedValues ι κ) : Prop := K.Solves s ∧ ∀ t, K.Solves t → s ≤ t

/-- One pass that raises a pair by the constraints alone, and to all they ask of it. -/
structure Sweep (x x' : GroupedValues ι κ) : Prop where
  le : x ≤ x'
  below : ∀ s, K.Solves s → x ≤ s → x' ≤ s
  rows_le : ∀ i i', K.rowOwner i = K.rowOwner i' → x.1 i' ≤ x'.1 i
  columns_eq : ∀ j j', K.columnOwner j = K.columnOwner j' → x'.2 j = x'.2 j'
  edge_le : ∀ i i' j w, K.edge i j w → K.rowOwner i = K.rowOwner i' → x.1 i' + w ≤ x'.2 j
  tie_le : ∀ i j w, K.tie i j w → x'.2 j ≤ x'.1 i + w

variable {K} {x x' s : GroupedValues ι κ}

theorem exists_isLeast (h : ∃ s, K.Solves s) : ∃ s, K.IsLeast s := by
  classical
  obtain ⟨s₀, hs₀⟩ := h
  have hrow : ∀ i, ∃ n, ∃ s, K.Solves s ∧ s.1 i = n := fun i => ⟨_, s₀, hs₀, rfl⟩
  have hcolumn : ∀ j, ∃ n, ∃ s, K.Solves s ∧ s.2 j = n := fun j => ⟨_, s₀, hs₀, rfl⟩
  let least : GroupedValues ι κ := (fun i => Nat.find (hrow i), fun j => Nat.find (hcolumn j))
  have hle : ∀ s, K.Solves s → least ≤ s := fun s hs =>
    ⟨fun i => Nat.find_min' (hrow i) ⟨s, hs, rfl⟩, fun j => Nat.find_min' (hcolumn j) ⟨s, hs, rfl⟩⟩
  have hrowOf : ∀ i, ∃ s, K.Solves s ∧ s.1 i = least.1 i := fun i => Nat.find_spec (hrow i)
  have hcolumnOf : ∀ j, ∃ s, K.Solves s ∧ s.2 j = least.2 j := fun j => Nat.find_spec (hcolumn j)
  refine ⟨least, ⟨⟨fun i => ?_, fun j => ?_⟩, fun i i' hi => ?_, fun j j' hj => ?_, fun i j w hw => ?_,
    fun i j w hw => ?_⟩, hle⟩
  · obtain ⟨s, hs, heq⟩ := hrowOf i
    rw [← heq]
    exact row_le hs.start_le i
  · obtain ⟨s, hs, heq⟩ := hcolumnOf j
    rw [← heq]
    exact column_le hs.start_le j
  · obtain ⟨s, hs, heq⟩ := hrowOf i
    obtain ⟨s', hs', heq'⟩ := hrowOf i'
    have h1 := row_le (hle s hs) i'
    have h2 := row_le (hle s' hs') i
    have := hs.rows i i' hi
    have := hs'.rows i i' hi
    omega
  · obtain ⟨s, hs, heq⟩ := hcolumnOf j
    obtain ⟨s', hs', heq'⟩ := hcolumnOf j'
    have h1 := column_le (hle s hs) j'
    have h2 := column_le (hle s' hs') j
    have := hs.columns j j' hj
    have := hs'.columns j j' hj
    omega
  · obtain ⟨s, hs, heq⟩ := hcolumnOf j
    have h1 := row_le (hle s hs) i
    have := hs.edges i j w hw
    omega
  · obtain ⟨s, hs, heq⟩ := hrowOf i
    have h1 := column_le (hle s hs) j
    have := hs.ties i j w hw
    omega

theorem Sweep.solves (h : K.Sweep x x) (hstart : K.start ≤ x) : K.Solves x where
  start_le := hstart
  rows i i' hi := le_antisymm (h.rows_le i' i hi.symm) (h.rows_le i i' hi)
  columns := h.columns_eq
  edges i j w hw := h.edge_le i i j w hw rfl
  ties := h.tie_le

def Unsettled (K : GroupedConstraints ι κ γ δ) (s x : GroupedValues ι κ) (g : γ) : Prop :=
  (∃ i, K.rowOwner i = g) ∧ ∀ i, K.rowOwner i = g → x.1 i < s.1 i

section
variable (hs : K.IsLeast s) (hsweep : K.Sweep x x') (hx : x ≤ s) (hstart : K.start ≤ x)
include hs hsweep hx hstart

/-- Lowering by one the groups that stay unsettled over a sweep, and the columns below their final value, leaves a
solution: so there are none. -/
theorem Sweep.settles (hrows : ∀ i, Unsettled K s x (K.rowOwner i) → Unsettled K s x' (K.rowOwner i)) :
    (∀ i, ¬ Unsettled K s x (K.rowOwner i)) ∧ ∀ j, x'.2 j = s.2 j := by
  classical
  have hx' : x' ≤ s := hsweep.below s hs.1 hx
  let lowered : GroupedValues ι κ :=
    (fun i => if Unsettled K s x (K.rowOwner i) then s.1 i - 1 else s.1 i,
      fun j => if x'.2 j < s.2 j then s.2 j - 1 else s.2 j)
  have hunsettled : ∀ i, Unsettled K s x (K.rowOwner i) → x'.1 i < s.1 i := fun i hi => (hrows i hi).2 i rfl
  have hsolves : K.Solves lowered := by
    refine ⟨⟨fun i => ?_, fun j => ?_⟩, fun i i' hi => ?_, fun j j' hj => ?_, fun i j w hw => ?_, fun i j w hw => ?_⟩
    · have h1 := row_le hstart i
      have h2 := row_le hx i
      by_cases hi : Unsettled K s x (K.rowOwner i)
      · have := hi.2 i rfl
        simp only [lowered, if_pos hi]
        omega
      · simp only [lowered, if_neg hi]
        omega
    · have h1 := column_le hstart j
      have h2 := column_le hsweep.le j
      have h3 := column_le hx' j
      simp only [lowered]
      split_ifs <;> omega
    · simp only [lowered, hi, hs.1.rows i i' hi]
    · simp only [lowered, hs.1.columns j j' hj, hsweep.columns_eq j j' hj]
    · have hedge := hs.1.edges i j w hw
      by_cases hj : x'.2 j < s.2 j
      · by_cases hi : Unsettled K s x (K.rowOwner i)
        · simp only [lowered, if_pos hi, if_pos hj]
          have := hi.2 i rfl
          omega
        · -- a settled row of the group has asked for its order
          obtain ⟨i', hi', hge⟩ : ∃ i', K.rowOwner i' = K.rowOwner i ∧ s.1 i' ≤ x.1 i' := by
            by_contra hnone
            refine hi ⟨⟨i, rfl⟩, fun i' hi' => ?_⟩
            by_contra hge
            exact hnone ⟨i', hi', not_lt.1 hge⟩
          have hasked := hsweep.edge_le i i' j w hw hi'.symm
          have := hs.1.rows i' i hi'
          simp only [lowered, if_neg hi, if_pos hj]
          omega
      · by_cases hi : Unsettled K s x (K.rowOwner i)
        · simp only [lowered, if_pos hi, if_neg hj]
          omega
        · simp only [lowered, if_neg hi, if_neg hj]
          omega
    · have htie := hs.1.ties i j w hw
      by_cases hi : Unsettled K s x (K.rowOwner i)
      · have hlt := hunsettled i hi
        have hasked := hsweep.tie_le i j w hw
        by_cases hj : x'.2 j < s.2 j
        · simp only [lowered, if_pos hi, if_pos hj]
          omega
        · simp only [lowered, if_pos hi, if_neg hj]
          omega
      · by_cases hj : x'.2 j < s.2 j
        · simp only [lowered, if_neg hi, if_pos hj]
          omega
        · simp only [lowered, if_neg hi, if_neg hj]
          omega
  have hle := hs.2 lowered hsolves
  constructor
  · intro i hi
    have h1 := row_le hle i
    have h2 := hi.2 i rfl
    simp only [lowered, if_pos hi] at h1
    omega
  · intro j
    have h1 := column_le hle j
    have h2 := column_le hx' j
    simp only [lowered] at h1
    split_ifs at h1 <;> omega

theorem Sweep.reaches (hall : ∀ i, ¬ Unsettled K s x (K.rowOwner i)) : x' = s := by
  have hx' : x' ≤ s := hsweep.below s hs.1 hx
  refine Prod.ext (funext fun i => le_antisymm (row_le hx' i) ?_)
    (funext (hsweep.settles hs hx hstart fun i hi => absurd hi (hall i)).2)
  obtain ⟨i', hi', hge⟩ : ∃ i', K.rowOwner i' = K.rowOwner i ∧ s.1 i' ≤ x.1 i' := by
    by_contra hnone
    refine hall i ⟨⟨i, rfl⟩, fun i' hi' => ?_⟩
    by_contra hge
    exact hnone ⟨i', hi', not_lt.1 hge⟩
  have h1 := hsweep.rows_le i i' hi'.symm
  have h2 := hs.1.rows i' i hi'
  omega

end

section
variable [Fintype ι] [DecidableEq γ]

open Classical in
/-- How many groups have no settled row. -/
noncomputable def unsettled (K : GroupedConstraints ι κ γ δ) (s x : GroupedValues ι κ) : Nat :=
  ((Finset.univ.image K.rowOwner).filter fun g => Unsettled K s x g).card

theorem unsettled_le {owners : Finset γ} (h : ∀ i, K.rowOwner i ∈ owners) : unsettled K s x ≤ owners.card := by
  classical
  refine Finset.card_le_card fun g hg => ?_
  obtain ⟨i, -, rfl⟩ := Finset.mem_image.1 (Finset.mem_filter.1 hg).1
  exact h i

theorem unsettled_pos_iff : 0 < unsettled K s x ↔ ∃ i, Unsettled K s x (K.rowOwner i) := by
  classical
  unfold unsettled
  rw [Finset.card_pos]
  constructor
  · rintro ⟨g, hg⟩
    obtain ⟨⟨i, rfl⟩, hi⟩ := (Finset.mem_filter.1 hg).2
    exact ⟨i, ⟨i, rfl⟩, hi⟩
  · rintro ⟨i, hi⟩
    exact ⟨_, Finset.mem_filter.2 ⟨Finset.mem_image_of_mem _ (Finset.mem_univ i), hi⟩⟩

theorem unsettled_lt (hs : K.IsLeast s) (hsweep : K.Sweep x x') (hx : x ≤ s) (hstart : K.start ≤ x)
    (hpos : 0 < unsettled K s x) : unsettled K s x' < unsettled K s x := by
  classical
  have hkeep : ∀ g, Unsettled K s x' g → Unsettled K s x g := fun g hg =>
    ⟨hg.1, fun i hi => (row_le hsweep.le i).trans_lt (hg.2 i hi)⟩
  obtain ⟨i, hi⟩ := unsettled_pos_iff.1 hpos
  obtain ⟨i', hbefore, hafter⟩ : ∃ i', Unsettled K s x (K.rowOwner i') ∧ ¬ Unsettled K s x' (K.rowOwner i') := by
    by_contra hnone
    refine (hsweep.settles hs hx hstart fun i' hi' => ?_).1 i hi
    by_contra hset
    exact hnone ⟨i', hi', hset⟩
  have howner := Finset.mem_image_of_mem K.rowOwner (Finset.mem_univ i')
  refine Finset.card_lt_card ⟨fun g hg => ?_, fun hsub => ?_⟩
  · obtain ⟨howner, hg⟩ := Finset.mem_filter.1 hg
    exact Finset.mem_filter.2 ⟨howner, hkeep g hg⟩
  · exact hafter (Finset.mem_filter.1 (hsub (Finset.mem_filter.2 ⟨howner, hbefore⟩))).2

open Classical in
/-- How many sweeps still raise a value. -/
noncomputable def sweepsLeft (K : GroupedConstraints ι κ γ δ) (s x : GroupedValues ι κ) : Nat :=
  if x = s then 0 else unsettled K s x + 1

theorem sweepsLeft_lt (hs : K.IsLeast s) (hsweep : K.Sweep x x') (hx : x ≤ s) (hstart : K.start ≤ x) (hne : x' ≠ x) :
    sweepsLeft K s x' < sweepsLeft K s x := by
  have hxs : x ≠ s := by
    rintro rfl
    exact hne (le_antisymm (hsweep.below x hs.1 le_rfl) hsweep.le)
  rw [sweepsLeft, sweepsLeft, if_neg hxs]
  by_cases hpos : 0 < unsettled K s x
  · have := unsettled_lt hs hsweep hx hstart hpos
    split_ifs <;> omega
  · -- every group has a settled row, so the sweep reaches the least solution
    have hall : ∀ i, ¬ Unsettled K s x (K.rowOwner i) := by
      intro i hi
      exact hpos (unsettled_pos_iff.2 ⟨i, hi⟩)
    rw [if_pos (hsweep.reaches hs hx hstart hall)]
    omega

end

end GroupedConstraints

end Rumoca.Lib
