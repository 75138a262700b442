import Mathlib.Algebra.BigOperators.Ring.Finset
import Mathlib.Algebra.Order.BigOperators.Group.Finset
import Mathlib.Tactic
import Rumoca.Lib.DifferenceConstraints
/-!
# Assignments, their duals and least offsets

A perfect assignment of a relation `E` with orders `o` is a permutation along
`E`. `weight_le` and `tight_of_isMaxWeight` are duality and complementary
slackness. The offsets of an assignment are a dual solution in the naturals
above lower bounds; `IsLeastOffsets.of_isMaxWeight`: the least one does not
depend on which assignment of maximum weight it is tight on.
-/

namespace Rumoca.Lib

variable {ι : Type*} [Fintype ι] {E : ι → ι → Prop} {o : ι → ι → Nat}

def weight (o : ι → ι → Nat) (σ : Equiv.Perm ι) : Nat := ∑ i, o i (σ i)

/-- An assignment along `E` that no other outweighs. -/
structure IsMaxWeight (E : ι → ι → Prop) (o : ι → ι → Nat) (σ : Equiv.Perm ι) : Prop where
  edge : ∀ i, E i (σ i)
  weight_le : ∀ τ : Equiv.Perm ι, (∀ i, E i (τ i)) → weight o τ ≤ weight o σ

/-- A dual solution: `z j - y i` covers the order of every entry. -/
def Feasible (E : ι → ι → Prop) (o : ι → ι → Nat) (y z : ι → Int) : Prop := ∀ i j, E i j → (o i j : Int) ≤ z j - y i

def TightOn (o : ι → ι → Nat) (σ : Equiv.Perm ι) (y z : ι → Int) : Prop := ∀ i, (o i (σ i) : Int) = z (σ i) - y i

theorem sum_assigned (σ : Equiv.Perm ι) (y z : ι → Int) : ∑ i, (z (σ i) - y i) = ∑ j, z j - ∑ i, y i := by
  rw [Finset.sum_sub_distrib, Equiv.sum_comp σ z]

theorem TightOn.weight_eq {σ : Equiv.Perm ι} {y z : ι → Int} (h : TightOn o σ y z) :
    (weight o σ : Int) = ∑ j, z j - ∑ i, y i := by
  rw [weight, Nat.cast_sum, ← sum_assigned σ]
  exact Finset.sum_congr rfl fun i _ => h i

theorem Feasible.weight_le {σ : Equiv.Perm ι} {y z : ι → Int} (h : Feasible E o y z) (hσ : ∀ i, E i (σ i)) :
    (weight o σ : Int) ≤ ∑ j, z j - ∑ i, y i := by
  rw [weight, Nat.cast_sum, ← sum_assigned σ]
  exact Finset.sum_le_sum fun i _ => h i _ (hσ i)

theorem isMaxWeight_of_tight {σ : Equiv.Perm ι} {y z : ι → Int} (h : Feasible E o y z) (hσ : ∀ i, E i (σ i))
    (ht : TightOn o σ y z) : IsMaxWeight E o σ := by
  refine ⟨hσ, fun τ hτ => ?_⟩
  have := h.weight_le hτ
  have := ht.weight_eq
  omega

theorem tight_of_isMaxWeight {σ τ : Equiv.Perm ι} {y z : ι → Int} (h : Feasible E o y z) (ht : TightOn o σ y z)
    (hσ : ∀ i, E i (σ i)) (hτ : IsMaxWeight E o τ) : TightOn o τ y z := by
  have hle : ∀ i ∈ Finset.univ, (o i (τ i) : Int) ≤ z (τ i) - y i := fun i _ => h i _ (hτ.edge i)
  have hsum : ∑ i, (o i (τ i) : Int) = ∑ i, (z (τ i) - y i) := by
    have h1 := hτ.weight_le σ hσ
    have h2 := h.weight_le hτ.edge
    have h3 := ht.weight_eq
    rw [sum_assigned τ, ← Nat.cast_sum]
    change (weight o τ : Int) = _
    omega
  exact fun i => (Finset.sum_eq_sum_iff_of_le hle).1 hsum i (Finset.mem_univ i)

/-! ## Offsets -/

/-- Offsets in the naturals above `lower`, exact on an assignment. -/
structure IsOffsets (E : ι → ι → Prop) (o : ι → ι → Nat) (lower : ι → Nat) (σ : Equiv.Perm ι) (c d : ι → Nat) :
    Prop where
  lower_le : ∀ j, lower j ≤ d j
  order_le : ∀ i j, E i j → c i + o i j ≤ d j
  exact_on : ∀ i, c i + o i (σ i) = d (σ i)

/-- Offsets below every other. -/
structure IsLeastOffsets (E : ι → ι → Prop) (o : ι → ι → Nat) (lower : ι → Nat) (σ : Equiv.Perm ι) (c d : ι → Nat) :
    Prop extends IsOffsets E o lower σ c d where
  least : ∀ c' d', IsOffsets E o lower σ c' d' → (∀ i, c i ≤ c' i) ∧ ∀ j, d j ≤ d' j

variable {lower : ι → Nat} {σ τ : Equiv.Perm ι} {c d : ι → Nat}

omit [Fintype ι] in
theorem IsOffsets.feasible (h : IsOffsets E o lower σ c d) : Feasible E o (fun i => c i) fun j => d j := by
  intro i j hij
  have := h.order_le i j hij
  simp only
  omega

omit [Fintype ι] in
theorem IsOffsets.tightOn (h : IsOffsets E o lower σ c d) : TightOn o σ (fun i => c i) fun j => d j := by
  intro i
  have := h.exact_on i
  simp only
  omega

theorem IsOffsets.of_isMaxWeight (h : IsOffsets E o lower σ c d) (hσ : ∀ i, E i (σ i)) (hτ : IsMaxWeight E o τ) :
    IsOffsets E o lower τ c d := by
  refine ⟨h.lower_le, h.order_le, fun i => ?_⟩
  have := tight_of_isMaxWeight h.feasible h.tightOn hσ hτ i
  omega

theorem IsLeastOffsets.of_isMaxWeight (h : IsLeastOffsets E o lower σ c d) (hσ : IsMaxWeight E o σ)
    (hτ : IsMaxWeight E o τ) : IsLeastOffsets E o lower τ c d :=
  ⟨h.toIsOffsets.of_isMaxWeight hσ.edge hτ, fun c' d' h' => h.least c' d' (h'.of_isMaxWeight hτ.edge hσ)⟩

/-! ## The row offsets as difference constraints -/

def RowLower (o : ι → ι → Nat) (lower : ι → Nat) (σ : Equiv.Perm ι) (i : ι) (b : Int) : Prop :=
  b = lower (σ i) - o i (σ i)

/-- What the offset of row `k` asks of row `i`. -/
def RowEdge (E : ι → ι → Prop) (o : ι → ι → Nat) (σ : Equiv.Perm ι) (k i : ι) (b : Int) : Prop :=
  E k (σ i) ∧ b = o k (σ i) - o i (σ i)

def columnOffset (o : ι → ι → Nat) (σ : Equiv.Perm ι) (c : ι → Nat) (j : ι) : Nat := c (σ.symm j) + o (σ.symm j) j

omit [Fintype ι] in
theorem isOffsets_iff : IsOffsets E o lower σ c d ↔
    Satisfies (RowLower o lower σ) (RowEdge E o σ) c ∧ d = columnOffset o σ c := by
  constructor
  · intro h
    refine ⟨⟨fun i b hb => ?_, fun k i b hb => ?_⟩, ?_⟩
    · rw [hb]
      have := h.lower_le (σ i)
      have := h.exact_on i
      omega
    · obtain ⟨hE, rfl⟩ := hb
      have := h.order_le k _ hE
      have := h.exact_on i
      omega
    · funext j
      have := h.exact_on (σ.symm j)
      rw [Equiv.apply_symm_apply] at this
      exact this.symm
  · rintro ⟨h, rfl⟩
    refine ⟨fun j => ?_, fun i j hij => ?_, fun i => ?_⟩
    · have := h.1 (σ.symm j) _ rfl
      rw [Equiv.apply_symm_apply] at this
      unfold columnOffset
      omega
    · have := h.2 i (σ.symm j) (o i j - o (σ.symm j) j) (by
        unfold RowEdge
        rw [Equiv.apply_symm_apply]
        exact ⟨hij, rfl⟩)
      unfold columnOffset
      omega
    · unfold columnOffset
      rw [Equiv.symm_apply_apply]

omit [Fintype ι] in
theorem isLeastOffsets_iff : IsLeastOffsets E o lower σ c d ↔
    IsLeastSolution (RowLower o lower σ) (RowEdge E o σ) c ∧ d = columnOffset o σ c := by
  constructor
  · intro h
    obtain ⟨hs, hd⟩ := isOffsets_iff.1 h.toIsOffsets
    exact ⟨⟨hs, fun c' hc' => (h.least c' _ (isOffsets_iff.2 ⟨hc', rfl⟩)).1⟩, hd⟩
  · rintro ⟨⟨hs, hleast⟩, rfl⟩
    refine ⟨isOffsets_iff.2 ⟨hs, rfl⟩, fun c' d' h' => ?_⟩
    obtain ⟨hs', rfl⟩ := isOffsets_iff.1 h'
    exact ⟨hleast c' hs', fun j => Nat.add_le_add_right (hleast c' hs' _) _⟩

/-- A dual solution exact on an assignment shifts to offsets, so there are least ones. -/
theorem exists_isLeastOffsets {y z : ι → Int} (h : Feasible E o y z) (ht : TightOn o σ y z) (lower : ι → Nat) :
    ∃ c d, IsLeastOffsets E o lower σ c d := by
  let shift : Int := ∑ i, |y i| + ∑ j, |z j| + ∑ j, (lower j : Int)
  have hnn : ∀ f : ι → Int, (∀ i, 0 ≤ f i) → ∀ i, f i ≤ ∑ i, f i := fun f hf i =>
    Finset.single_le_sum (fun i _ => hf i) (Finset.mem_univ i)
  have hy := hnn (fun i => |y i|) fun i => abs_nonneg _
  have hz := hnn (fun i => |z i|) fun i => abs_nonneg _
  have hl := hnn (fun i => (lower i : Int)) fun i => Int.natCast_nonneg _
  have h0 : 0 ≤ ∑ i, |y i| ∧ 0 ≤ ∑ i, |z i| ∧ (0 : Int) ≤ ∑ j, (lower j : Int) :=
    ⟨Finset.sum_nonneg fun i _ => abs_nonneg _, Finset.sum_nonneg fun i _ => abs_nonneg _,
      Finset.sum_nonneg fun i _ => Int.natCast_nonneg _⟩
  have hc : ∀ i, 0 ≤ y i + shift := fun i => by
    have := hy i
    have := neg_abs_le (y i)
    simp only [shift]
    omega
  have hd : ∀ j, (lower j : Int) ≤ z j + shift := fun j => by
    have := hz j
    have := hl j
    have := neg_abs_le (z j)
    simp only [shift]
    omega
  have hoff : IsOffsets E o lower σ (fun i => (y i + shift).toNat) fun j => (z j + shift).toNat := by
    refine ⟨fun j => ?_, fun i j hij => ?_, fun i => ?_⟩
    · have := hd j
      omega
    · have := h i j hij
      have := hc i
      have := hd j
      omega
    · have := ht i
      have := hc i
      have := hd (σ i)
      omega
  obtain ⟨c, hleast⟩ := exists_leastSolution ⟨_, (isOffsets_iff.1 hoff).1⟩
  exact ⟨c, _, isLeastOffsets_iff.2 ⟨hleast, rfl⟩⟩

/-! ## Rounds of demands -/

/-- `d` is what the lower bounds and the row offsets `c` together ask of the columns. -/
structure IsDemand (E : ι → ι → Prop) (o : ι → ι → Nat) (lower c d : ι → Nat) : Prop where
  lower_le : ∀ j, lower j ≤ d j
  order_le : ∀ i j, E i j → c i + o i j ≤ d j
  reason : ∀ j, d j = lower j ∨ ∃ i, E i j ∧ d j = c i + o i j

omit [Fintype ι] in
theorem IsDemand.unique {d' : ι → Nat} (h : IsDemand E o lower c d) (h' : IsDemand E o lower c d') : d = d' := by
  have hle : ∀ {d d' : ι → Nat}, IsDemand E o lower c d → IsDemand E o lower c d' → ∀ j, d j ≤ d' j := by
    intro d d' h h' j
    rcases h.reason j with heq | ⟨i, hE, heq⟩
    · exact heq ▸ h'.lower_le j
    · exact heq ▸ h'.order_le i j hE
  exact funext fun j => le_antisymm (hle h h' j) (hle h' h j)

open Classical in
/-- The demand on a column. -/
noncomputable def demand (E : ι → ι → Prop) (o : ι → ι → Nat) (lower c : ι → Nat) (j : ι) : Nat :=
  max (lower j) (Finset.univ.sup fun i => if E i j then c i + o i j else 0)

theorem isDemand_demand (E : ι → ι → Prop) (o : ι → ι → Nat) (lower c : ι → Nat) :
    IsDemand E o lower c (demand E o lower c) := by
  classical
  refine ⟨fun j => le_max_left _ _, fun i j hE => le_trans ?_ (le_max_right _ _), fun j => ?_⟩
  · have := Finset.le_sup (f := fun i => if E i j then c i + o i j else 0) (Finset.mem_univ i)
    rwa [if_pos hE] at this
  · unfold demand
    by_cases hle : (Finset.univ.sup fun i => if E i j then c i + o i j else 0) ≤ lower j
    · exact .inl (max_eq_left hle)
    · have hpos : 0 < Finset.univ.sup fun i => if E i j then c i + o i j else 0 := by omega
      obtain ⟨i, -, hi⟩ := Finset.lt_sup_iff.1 hpos
      obtain ⟨k, -, hk⟩ := Finset.exists_mem_eq_sup _ ⟨i, Finset.mem_univ i⟩ fun i => if E i j then c i + o i j else 0
      rw [max_eq_right (by omega), hk]
      rw [hk] at hpos
      by_cases hE : E k j
      · exact .inr ⟨k, hE, if_pos hE⟩
      · rw [if_neg hE] at hpos
        omega

noncomputable def rowRound (E : ι → ι → Prop) (o : ι → ι → Nat) (lower : ι → Nat) (σ : Equiv.Perm ι) (c : ι → Nat)
    (i : ι) : Nat := demand E o lower c (σ i) - o i (σ i)

theorem rowRound_add (lower : ι → Nat) (hσ : ∀ i, E i (σ i)) (c : ι → Nat) (i : ι) :
    rowRound E o lower σ c i + o i (σ i) = demand E o lower c (σ i) := by
  have := (isDemand_demand E o lower c).order_le i _ (hσ i)
  unfold rowRound
  omega

theorem differenceRound_rowRound (o : ι → ι → Nat) (lower : ι → Nat) (hσ : ∀ i, E i (σ i)) :
    DifferenceRound (RowLower o lower σ) (RowEdge E o σ) (rowRound E o lower σ) := by
  have h := isDemand_demand E o lower
  have hadd := rowRound_add (o := o) lower hσ
  refine ⟨fun c i => ?_, fun c i b hb => ?_, fun c k i b hb => ?_, fun c i => ?_⟩
  · have := (h c).order_le i _ (hσ i)
    have := hadd c i
    omega
  · rw [hb]
    have := (h c).lower_le (σ i)
    have := hadd c i
    omega
  · obtain ⟨hE, rfl⟩ := hb
    have := (h c).order_le k _ hE
    have := hadd c i
    omega
  · have := hadd c i
    rcases (h c).reason (σ i) with heq | ⟨k, hE, heq⟩
    · refine .inr (.inl ?_)
      unfold RowLower
      omega
    · refine .inr (.inr ⟨k, _, ⟨hE, rfl⟩, ?_⟩)
      omega

theorem eq_least_of_fixed (h : IsLeastOffsets E o lower σ c d) (hσ : ∀ i, E i (σ i)) {c' : ι → Nat}
    (hle : ∀ i, c' i ≤ c i) (hfix : rowRound E o lower σ c' = c') : c' = c ∧ demand E o lower c' = d := by
  obtain ⟨hleast, hd⟩ := isLeastOffsets_iff.1 h
  have hsat := (differenceRound_rowRound o lower hσ).satisfies_of_fixed hfix
  have hc : c' = c := funext fun i => le_antisymm (hle i) (hleast.2 c' hsat i)
  refine ⟨hc, funext fun j => ?_⟩
  have := rowRound_add (o := o) lower hσ c' (σ.symm j)
  rw [hfix, Equiv.apply_symm_apply] at this
  rw [← this, hd, hc]
  rfl

end Rumoca.Lib
