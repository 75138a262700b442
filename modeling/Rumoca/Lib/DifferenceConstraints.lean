import Mathlib.Data.Finset.Card
import Mathlib.Data.Fintype.Card
import Mathlib.Tactic
/-!
# Least solutions of difference constraints

`f` raises a vector to what a system of constraints `c i ≥ β i` and
`c i ≥ c k + w` asks of it. `iterate_eq_least`: from below the least
solution, each round of `f` settles one more component, so as many rounds as
there are components reach it.
-/

namespace Rumoca.Lib

variable {ι : Type*} [Fintype ι]

/-- One round over the constraints `lower i ≤ c i` and `c k + w ≤ c i` for
`edge k i w`: it is monotone and raises nothing but by a constraint. -/
structure DifferenceRound (lower : ι → Int → Prop) (edge : ι → ι → Int → Prop)
    (f : (ι → Nat) → ι → Nat) : Prop where
  le_self : ∀ c i, c i ≤ f c i
  lower_le : ∀ c i b, lower i b → b ≤ f c i
  edge_le : ∀ c k i w, edge k i w → (c k : Int) + w ≤ f c i
  reason : ∀ c i, f c i = c i ∨ lower i (f c i) ∨ ∃ k w, edge k i w ∧ (f c i : Int) = c k + w

variable {lower : ι → Int → Prop} {edge : ι → ι → Int → Prop} {f : (ι → Nat) → ι → Nat}

/-- `c` satisfies every constraint. -/
def Satisfies (lower : ι → Int → Prop) (edge : ι → ι → Int → Prop) (c : ι → Nat) : Prop :=
  (∀ i b, lower i b → b ≤ c i) ∧ ∀ k i w, edge k i w → (c k : Int) + w ≤ c i

def IsLeastSolution (lower : ι → Int → Prop) (edge : ι → ι → Int → Prop) (c : ι → Nat) : Prop :=
  Satisfies lower edge c ∧ ∀ c', Satisfies lower edge c' → ∀ i, c i ≤ c' i

omit [Fintype ι] in
/-- Satisfiable constraints have a least solution. -/
theorem exists_leastSolution (h : ∃ c, Satisfies lower edge c) : ∃ c, IsLeastSolution lower edge c := by
  classical
  obtain ⟨c₀, hc₀⟩ := h
  have hex : ∀ i, ∃ n, ∃ c, Satisfies lower edge c ∧ c i = n := fun i => ⟨c₀ i, c₀, hc₀, rfl⟩
  refine ⟨fun i => Nat.find (hex i), ⟨fun i b hb => ?_, fun k i w hw => ?_⟩, fun c hc i => Nat.find_min' _ ⟨c, hc, rfl⟩⟩
  · obtain ⟨c, hc, hci⟩ := Nat.find_spec (hex i)
    beta_reduce
    rw [← hci]
    exact hc.1 i b hb
  · obtain ⟨c, hc, hci⟩ := Nat.find_spec (hex i)
    beta_reduce
    have hk : Nat.find (hex k) ≤ c k := Nat.find_min' _ ⟨c, hc, rfl⟩
    have := hc.2 k i w hw
    rw [hci] at this
    omega

namespace DifferenceRound

variable (hf : DifferenceRound lower edge f)
include hf

omit [Fintype ι] in
/-- Below a solution a round stays below it. -/
theorem le_solution {c s : ι → Nat} (hs : Satisfies lower edge s) (hc : ∀ i, c i ≤ s i) (i : ι) : f c i ≤ s i := by
  rcases hf.reason c i with h | h | ⟨k, w, hw, h⟩
  · rw [h]; exact hc i
  · have := hs.1 i _ h; omega
  · have := hs.2 k i w hw
    have := hc k
    omega

omit [Fintype ι] in
/-- A round that changes nothing ends in a solution. -/
theorem satisfies_of_fixed {c : ι → Nat} (h : f c = c) : Satisfies lower edge c := by
  refine ⟨fun i b hb => ?_, fun k i w hw => ?_⟩
  · have := hf.lower_le c i b hb
    rwa [h] at this
  · have := hf.edge_le c k i w hw
    rwa [h] at this

omit [Fintype ι] in
/-- While some component is not settled, a round settles one. Else lowering
the unsettled ones by one would be a smaller solution. -/
theorem settles {c s : ι → Nat} (hs : IsLeastSolution lower edge s) (hc : ∀ i, c i ≤ s i) (hne : ∃ i, c i < s i) :
    ∃ i, c i < s i ∧ f c i = s i := by
  classical
  by_contra hnone
  have hlt : ∀ i, c i < s i → f c i < s i := by
    intro i hi
    exact lt_of_le_of_ne (hf.le_solution hs.1 hc i) fun h => hnone ⟨i, hi, h⟩
  let lowered : ι → Nat := fun i => if c i < s i then s i - 1 else s i
  have hlow : Satisfies lower edge lowered := by
    refine ⟨fun i b hb => ?_, fun k i w hw => ?_⟩
    · have h1 := hs.1.1 i b hb
      have h2 := hf.lower_le c i b hb
      by_cases hi : c i < s i
      · have := hlt i hi
        simp only [lowered, if_pos hi]
        omega
      · simpa only [lowered, if_neg hi] using h1
    · have h1 := hs.1.2 k i w hw
      have h2 := hf.edge_le c k i w hw
      have h3 := hc k
      by_cases hi : c i < s i
      · have := hlt i hi
        by_cases hk : c k < s k
        · simp only [lowered, if_pos hi, if_pos hk]; omega
        · simp only [lowered, if_pos hi, if_neg hk]; omega
      · by_cases hk : c k < s k
        · simp only [lowered, if_neg hi, if_pos hk]; omega
        · simp only [lowered, if_neg hi, if_neg hk]; omega
  obtain ⟨i, hi⟩ := hne
  have := hs.2 lowered hlow i
  simp only [lowered, if_pos hi] at this
  omega

theorem iterate_eq_least {s : ι → Nat} (hs : IsLeastSolution lower edge s) :
    f^[Fintype.card ι] (fun _ => 0) = s := by
  classical
  have hle : ∀ t i, f^[t] (fun _ => 0) i ≤ s i := by
    intro t
    induction t with
    | zero => exact fun i => Nat.zero_le _
    | succ t ih =>
      intro i
      rw [Function.iterate_succ_apply']
      exact hf.le_solution hs.1 ih i
  -- as many components as rounds are settled
  have hcount : ∀ t, min t (Fintype.card ι) ≤ (Finset.univ.filter fun i => f^[t] (fun _ => 0) i = s i).card := by
    intro t
    induction t with
    | zero => simp
    | succ t ih =>
      rw [Function.iterate_succ_apply']
      set c := f^[t] (fun _ => 0) with hc
      have hkeep : ∀ i, c i = s i → f c i = s i := fun i hi =>
        le_antisymm (hf.le_solution hs.1 (hle t) i) (hi ▸ hf.le_self c i)
      have hsub : (Finset.univ.filter fun i => c i = s i) ⊆ Finset.univ.filter fun i => f c i = s i := by
        intro i hi
        simp only [Finset.mem_filter, Finset.mem_univ, true_and] at hi ⊢
        exact hkeep i hi
      by_cases hne : ∃ i, c i < s i
      · obtain ⟨i, hi, hfi⟩ := hf.settles hs (hle t) hne
        have hss : (Finset.univ.filter fun i => c i = s i) ⊂ Finset.univ.filter fun i => f c i = s i := by
          refine ⟨hsub, fun hback => ?_⟩
          have := hback (Finset.mem_filter.2 ⟨Finset.mem_univ i, hfi⟩)
          simp only [Finset.mem_filter, Finset.mem_univ, true_and] at this
          exact absurd this (Nat.ne_of_lt hi)
        have := Finset.card_lt_card hss
        omega
      · have hall : (Finset.univ.filter fun i => f c i = s i) = Finset.univ := by
          refine Finset.filter_true_of_mem fun i _ => hkeep i ?_
          have hci : c i ≤ s i := hle t i
          have hge : ¬ c i < s i := fun h => hne ⟨i, h⟩
          omega
        rw [hall, Finset.card_univ]
        exact min_le_right _ _
  funext i
  have hall := hcount (Fintype.card ι)
  rw [min_self] at hall
  have huniv := Finset.eq_univ_of_card _ (le_antisymm (Finset.card_le_univ _) hall)
  have := huniv ▸ Finset.mem_univ i
  simpa using this

end DifferenceRound

end Rumoca.Lib
