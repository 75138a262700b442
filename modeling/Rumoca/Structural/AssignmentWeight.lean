import Rumoca.Structural.AssignmentMax
/-!
# The heaviest assignment of maximum size

The potentials price every row and column, also those the search has lost
sight of: an edge in use is available backwards, so its reduced cost is not
positive, and every other edge's is not negative. `maximumWeightMatching_heaviest`
needs no perfect matching and no square signature.
-/

namespace Rumoca.Structural

open Rumoca.Lib

namespace Assignment

def assigned (result : List (Option Nat)) (row : Nat) : Option Nat := (result[row]?).getD none

def totalOrder (rows : List (List SignatureEntry)) (matching : Nat → Option Nat) : Int :=
  totalWeight (Finset.range rows.length) (fun row column => orderAt (signatureRow rows row) column) matching

section
variable {rows : List (List SignatureEntry)} {m : Nat} {slack : Int} {graph : Assignment}

theorem assigned_matchedColumn (graph : Assignment) (n : Nat) :
    assigned ((List.range n).map (matchedColumn graph n)) =
      fun row => if row < n then matchedColumn graph n row else none := by
  funext row
  unfold assigned
  by_cases hrow : row < n
  · simp [hrow]
  · simp [hrow]

theorem Residual.isPricing (hsig : Signature rows m)
    (h : Residual rows.length m (cost rows m (maximumOrder rows)) (Adjacent rows m (maximumOrder rows)) slack graph) :
    ∃ y z σ τ, IsPricing (HasEntry rows) (Finset.range rows.length) (Finset.range m)
      (fun row column => orderAt (signatureRow rows row) column)
      (fun row => if row < rows.length then matchedColumn graph rows.length row else none) y z σ τ := by
  obtain ⟨φ, R, -, -, hdual⟩ := h.dual
  have hle : ∀ u v, Av graph u v → 0 ≤ cost rows m (maximumOrder rows) u v + φ u - φ v := fun u v hav =>
    (hdual u v hav).1
  have hcost : ∀ row < rows.length, ∀ c < m, cost rows m (maximumOrder rows) row (rows.length + c) =
      maximumOrder rows - orderAt (signatureRow rows row) c := by
    intro row hrow c hc
    rw [cost, if_pos ⟨hrow, by omega, by omega⟩, Nat.add_sub_cancel_left]
  have hsource : ∀ row < rows.length, cost rows m (maximumOrder rows) (rows.length + m) row = 0 := by
    intro row hrow
    unfold cost IsColumn
    grind
  have hsinkCost : ∀ c < m, cost rows m (maximumOrder rows) (rows.length + c) (rows.length + m + 1) = 0 := by
    intro c hc
    unfold cost IsColumn
    grind
  have hmatched : ∀ row c, (if row < rows.length then matchedColumn graph rows.length row else none) = some c →
      row < rows.length ∧ c < m ∧ Av graph (rows.length + c) row := by
    intro row c hc
    rw [Option.ite_none_right_eq_some] at hc
    exact ⟨hc.1, (matchedColumn_eq_some h hc.1).1 hc.2⟩
  have hsourceAdj : ∀ row < rows.length, Adjacent rows m (maximumOrder rows) (rows.length + m) row := fun row hrow =>
    ⟨0, .inl (.inl ⟨rfl, hrow, rfl⟩)⟩
  have hsinkAdj : ∀ c < m, Adjacent rows m (maximumOrder rows) (rows.length + c) (rows.length + m + 1) := fun c hc =>
    ⟨0, .inl (.inr (.inr ⟨by omega, by omega, rfl, rfl⟩))⟩
  refine ⟨fun row => maximumOrder rows + φ row, fun c => -φ (rows.length + c), maximumOrder rows + φ (rows.length + m), -φ (rows.length + m + 1),
    fun row c he hne => ?_, fun row c hc => ?_, fun row c hc => ?_, fun row hrow hnone => ?_, fun row c hc => ?_,
    fun c hc hfree => ?_⟩
  · -- an entry left out is available forwards
    obtain ⟨entry, hentry, rfl⟩ := he
    have hrow := Entry.lt hentry
    have hcm := hsig.column_lt row entry hentry
    have hadj : Adjacent rows m (maximumOrder rows) row (rows.length + entry.column) :=
      (adjacent_row hrow ⟨by omega, by omega⟩).2 ⟨entry, hentry, rfl⟩
    rw [if_pos hrow] at hne
    have hav := (h.shape.av_reverse hadj).2 fun hback => hne ((matchedColumn_eq_some h hrow).2 ⟨hcm, hback⟩)
    have hnn := hle _ _ hav
    rw [hcost row hrow _ hcm] at hnn
    omega
  · obtain ⟨hrow, hcm, hav⟩ := hmatched row c hc
    have hnn := hle _ _ hav
    rw [cost_neg, hcost row hrow c hcm] at hnn
    omega
  · obtain ⟨hrow, hcm, hav⟩ := hmatched row c hc
    have hused : ¬ Av graph (rows.length + m) row := fun hfree =>
      (h.flow.source_iff row hrow (by omega)).1 hfree _ ⟨by omega, by omega⟩ hav
    have hback := (h.shape.av_reverse ((hsourceAdj row hrow).imp fun _ hd => hd.symm)).2 hused
    have hnn := hle _ _ hback
    rw [cost_neg, hsource row hrow] at hnn
    omega
  · have hlt := Finset.mem_range.1 hrow
    rw [if_pos hlt, matchedColumn_eq_none h hlt] at hnone
    have hnn := hle _ _ hnone
    rw [hsource row hlt] at hnn
    omega
  · obtain ⟨hrow, hcm, hav⟩ := hmatched row c hc
    have hused : ¬ Av graph (rows.length + c) (rows.length + m + 1) := fun hfree =>
      (h.flow.sink_iff (rows.length + c) ⟨by omega, by omega⟩ (by omega)).1 hfree row hrow hav
    have hback := (h.shape.av_reverse ((hsinkAdj c hcm).imp fun _ hd => hd.symm)).2 hused
    have hnn := hle _ _ hback
    rw [cost_neg, hsinkCost c hcm] at hnn
    omega
  · have hcm := Finset.mem_range.1 hc
    have hav := (h.flow.sink_iff (rows.length + c) ⟨by omega, by omega⟩ (by omega)).2 fun row hrow hav =>
      hfree row (Finset.mem_range.2 hrow) (by rw [if_pos hrow]; exact (matchedColumn_eq_some h hrow).2 ⟨hcm, hav⟩)
    have hnn := hle _ _ hav
    rw [hsinkCost c hcm] at hnn
    omega

end

/-! ## The result -/

/-- A matching as large as any, and as heavy as any of its size. -/
structure IsHeaviestMaximum (rows : List (List SignatureEntry)) (matching : Nat → Option Nat) : Prop where
  isMatching : IsMatching (HasEntry rows) matching
  isMaximum : IsMaximum (HasEntry rows) (Finset.range rows.length) matching
  heaviest : ∀ other, IsMatching (HasEntry rows) other →
    (matched (Finset.range rows.length) other).card = (matched (Finset.range rows.length) matching).card →
    totalOrder rows other ≤ totalOrder rows matching

/-- Every signature gets a maximum matching of the largest total order. -/
theorem maximumWeightMatching_heaviest {rows : List (List SignatureEntry)} {m : Nat} (hsig : Signature rows m)
    (hsize : rows.length + m + 2 < usizeLimit)
    (hcost : (maximumOrder rows : Int) * (2 * (rows.length + m) + 5) + 1 < i64Limit) :
    ∃ result, maximumWeightMatching rows m = pure result ∧ result.length = rows.length ∧
      IsHeaviestMaximum rows (assigned result) := by
  obtain ⟨graph, slack, hrun, hres, hmax⟩ := maximumWeightMatching_run hsig hsize hcost
  obtain ⟨y, z, σ, τ, hprices⟩ := hres.isPricing hsig
  have hmatching := matchedColumn_isMatching hres
  refine ⟨_, hrun, by simp, ?_⟩
  rw [assigned_matchedColumn]
  refine ⟨hmatching, hmax, fun other hother hcard => ?_⟩
  refine hprices.weight_le hmatching hother (fun row _ c he => ?_) hcard
  obtain ⟨entry, hentry, rfl⟩ := he
  exact Finset.mem_range.2 (hsig.column_lt row entry hentry)

def crowdedRows : List (List SignatureEntry) := [[⟨0, 1⟩], [⟨0, 2⟩, ⟨1, 0⟩], [⟨1, 5⟩]]

theorem crowdedRows_signature : Signature crowdedRows 2 := by
  refine ⟨fun row => ?_, fun row => ?_⟩
  · rcases row with - | - | - | row
    · decide
    · decide
    · decide
    · intro entry h
      cases h
  · rcases row with - | - | - | row
    · decide
    · decide
    · decide
    · exact List.nodup_nil

theorem heaviest_crowdedRows : ∃ result, maximumWeightMatching crowdedRows 2 = pure result ∧ result.length = 3 ∧
    IsHeaviestMaximum crowdedRows (assigned result) :=
  maximumWeightMatching_heaviest crowdedRows_signature (by decide) (by decide)

end Assignment

end Rumoca.Structural
