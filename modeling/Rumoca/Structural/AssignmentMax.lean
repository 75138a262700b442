import Rumoca.Structural.AssignmentAugment
import Rumoca.Structural.AssignmentBuild
import Rumoca.Lib.Bipartite
import Rumoca.Lib.AssignmentDuality
/-!
# The assignment is maximum

Every augmentation matches one more row, so the loop of
`maximumWeightMatching` ends with all of them matched or with a blocked
source. Where a perfect matching exists the source is blocked only when no
row is free. `maximumWeightMatching_spec`: the result is a perfect matching
with a dual solution, which certifies its weight.
-/

namespace Rumoca.Structural

open Rumoca.Lib

namespace Assignment

section
variable {n m : Nat} {w : Nat → Nat → Int} {adj : Nat → Nat → Prop} {unit slack : Int} {graph : Assignment}

/-! ## The rows left to match -/

open Classical in
/-- The rows the source can still reach directly. -/
noncomputable def freeRows (n m : Nat) (graph : Assignment) : Finset Nat :=
  (Finset.range n).filter fun row => Av graph (n + m) row

theorem freeRows_card_succ {graph' : Assignment} (h : Augmented n m (Av graph) (Av graph')) :
    (freeRows n m graph').card + 1 = (freeRows n m graph).card := by
  classical
  obtain ⟨-, first, hfirst, hav, hiff⟩ := h
  have herase : freeRows n m graph' = (freeRows n m graph).erase first := by
    ext row
    simp only [freeRows, Finset.mem_filter, Finset.mem_range, Finset.mem_erase, hiff row]
    tauto
  have hmem : first ∈ freeRows n m graph := by
    simp only [freeRows, Finset.mem_filter, Finset.mem_range]
    exact ⟨hfirst, hav⟩
  rw [herase, Finset.card_erase_add_one hmem]

theorem augmentDirect_spec (hB : Bounds n m w unit slack) (hw : ∀ u v, w v u = -w u v)
    (h : Residual n m w adj slack graph) :
    ∃ graph' count, graph.augmentDirect = pure (graph', count) ∧ Residual n m w adj slack graph' ∧
      count + (freeRows n m graph').card = (freeRows n m graph).card := by
  obtain ⟨⟨graph', count⟩, hrun, hres, -, hcount⟩ := foldlM_fallible
    (l := List.range (graph.edges graph.source).length) (f := augmentDirectEdge)
    (fun _ (s : Assignment × Nat) => Residual n m w adj slack s.1 ∧ SameTargets graph s.1 ∧
      s.2 + (freeRows n m s.1).card = (freeRows n m graph).card)
    (fun pre sourceEdge post s heq hs => by
      obtain ⟨g, count⟩ := s
      obtain ⟨hres, hsame, hcount⟩ := hs
      have hlt : sourceEdge < (graph.edges (n + m)).length := by
        have hmem : sourceEdge ∈ List.range (graph.edges graph.source).length := by rw [heq]; simp
        rwa [List.mem_range, h.shape.source_eq] at hmem
      obtain ⟨edge, he, -⟩ := hsame _ _ _ (List.getElem?_eq_getElem hlt)
      rcases augmentDirectEdge_spec hB hw hres count he with hstep | ⟨g', hstep, hres', hsame', haug⟩
      · exact ⟨_, hstep, hres, hsame, hcount⟩
      · have := freeRows_card_succ haug
        simp only at hcount this
        exact ⟨_, hstep, hres', hsame.trans hsame', by simp only; omega⟩)
    (s := (graph, 0)) ⟨h, fun u i edge he => ⟨edge, he, rfl⟩, by simp⟩
  exact ⟨graph', count, hrun, hres, hcount⟩

/-- The loop: every turn matches a row, until `limit` are matched or the source is blocked. -/
theorem matchingLoop_spec (limit : Nat) (hB : Bounds n m w unit slack) (hw : ∀ u v, w v u = -w u v)
    (h : Residual n m w adj slack graph) (hfree : (freeRows n m graph).card = n) :
    ∃ graph', loopFallible (matchingTurn limit) (limit + 1) (graph, 0) = pure graph' ∧
      Residual n m w adj slack graph' ∧ ((freeRows n m graph').card + limit ≤ n ∨ Blocked n m graph') := by
  refine loopFallible_ghost (matchingTurn limit)
    (fun (_ : Unit) (s : Assignment × Nat) => Residual n m w adj slack s.1 ∧ s.2 + (freeRows n m s.1).card = n)
    (fun _ s => limit - s.2)
    (fun g => Residual n m w adj slack g ∧ ((freeRows n m g).card + limit ≤ n ∨ Blocked n m g))
    (fun _ s hs => ?_) (limit + 1) () (graph, 0) ⟨h, by simpa using hfree⟩ (by simp)
  obtain ⟨g, count⟩ := s
  obtain ⟨hres, hcount⟩ := hs
  simp only at hcount
  by_cases hdone : count ≥ limit
  · exact .inr ⟨g, by simp only [matchingTurn, if_pos hdone], hres, .inl (by omega)⟩
  obtain ⟨g₁, direct, hdirect, hres₁, hcount₁⟩ := augmentDirect_spec hB hw hres
  simp only at hres hcount₁
  simp only [matchingTurn, if_neg hdone, hdirect, pure_bind]
  by_cases hall : count + direct = limit
  · exact .inr ⟨g₁, by rw [if_pos hall], hres₁, .inl (by omega)⟩
  rw [if_neg hall]
  rcases augment_spec hB hw hres₁ with ⟨g₂, haug, hres₂, hflow⟩ | ⟨haug, hblocked⟩
  · have := freeRows_card_succ hflow
    refine .inl ⟨(), (g₂, count + direct + 1), by simp [haug], ⟨hres₂, ?_⟩, ?_⟩
    · simp only
      omega
    · simp only
      omega
  · exact .inr ⟨g₁, by simp [haug], hres₁, .inr hblocked⟩

end

/-! ## The columns of the rows -/

section
variable {rows : List (List SignatureEntry)} {m maximum : Nat} {w : Nat → Nat → Int} {slack : Int}
  {graph : Assignment}

theorem adjacent_row {row v : Nat} (hrow : row < rows.length) (hv : IsColumn rows.length m v) :
    Adjacent rows m maximum row v ↔ ∃ entry, Entry rows row entry ∧ v = rows.length + entry.column := by
  unfold IsColumn at hv
  constructor
  · rintro ⟨c, h | h⟩
    · unfold Forward at h
      grind
    · unfold Forward at h
      grind
  · rintro ⟨entry, he, rfl⟩
    exact ⟨_, .inl (.inr (.inl ⟨hrow, entry, he, rfl, rfl⟩))⟩

theorem matchedColumn_eq_some (h : Residual rows.length m w (Adjacent rows m maximum) slack graph) {row c : Nat}
    (hrow : row < rows.length) :
    matchedColumn graph rows.length row = some c ↔ c < m ∧ Av graph (rows.length + c) row := by
  set n := rows.length with hn
  -- an edge the scan stops at
  have hused : ∀ edge ∈ graph.edges row, (!edge.available && decide (n ≤ edge.target ∧ edge.target < graph.source)) =
      true ↔ IsColumn n m edge.target ∧ Av graph edge.target row := by
    intro edge he
    obtain ⟨i, hi⟩ := List.mem_iff_getElem?.1 he
    have hadj : Adjacent rows m maximum row edge.target := (h.shape.adj_iff _ _).2 ⟨edge, he, rfl⟩
    have hback : Adjacent rows m maximum edge.target row := hadj.imp fun _ hc => hc.symm
    have hrev := h.shape.av_reverse hback
    rw [h.shape.av_iff hi] at hrev
    rw [h.shape.source_eq, hrev]
    unfold IsColumn
    simp only [Bool.and_eq_true, Bool.not_eq_true', decide_eq_true_eq, Bool.not_eq_true]
    exact and_comm
  have huniq : ∀ c c', IsColumn n m c → IsColumn n m c' → Av graph c row → Av graph c' row → c = c' :=
    fun c c' hc hc' => h.flow.row_unique row c c' hrow (by omega) hc hc'
  unfold matchedColumn
  constructor
  · intro hfind
    obtain ⟨edge, hedge, rfl⟩ := Option.map_eq_some_iff.1 hfind
    have hstop := List.find?_some hedge
    obtain ⟨hcol, hav⟩ := (hused edge (List.mem_of_find?_eq_some hedge)).1 hstop
    unfold IsColumn at hcol
    refine ⟨by omega, ?_⟩
    rwa [Nat.add_sub_cancel' hcol.1]
  · rintro ⟨hc, hav⟩
    have hcol : IsColumn n m (n + c) := ⟨by omega, by omega⟩
    have hback := (h.shape.adj_of_av hav).imp fun _ hd => hd.symm
    obtain ⟨edge, he, htarget⟩ := (h.shape.adj_iff _ _).1 hback
    cases hfind : (graph.edges row).find? fun edge =>
        !edge.available && decide (n ≤ edge.target ∧ edge.target < graph.source) with
    | none => exact absurd ((hused edge he).2 (htarget ▸ ⟨hcol, hav⟩)) (List.find?_eq_none.1 hfind edge he)
    | some other =>
      have hstop := List.find?_some hfind
      obtain ⟨hcol', hav'⟩ := (hused other (List.mem_of_find?_eq_some hfind)).1 hstop
      rw [Option.map_some, huniq _ _ hcol' hcol hav' hav, Nat.add_sub_cancel_left]

def HasEntry (rows : List (List SignatureEntry)) (row column : Nat) : Prop :=
  ∃ entry, Entry rows row entry ∧ entry.column = column

theorem matchedColumn_isMatching (h : Residual rows.length m w (Adjacent rows m maximum) slack graph) :
    IsMatching (HasEntry rows) fun row => if row < rows.length then matchedColumn graph rows.length row else none := by
  refine ⟨fun row c hc => ?_, fun row row' c hc hc' => ?_⟩
  · rw [Option.ite_none_right_eq_some] at hc
    obtain ⟨hcm, hav⟩ := (matchedColumn_eq_some h hc.1).1 hc.2
    have hadj := (h.shape.adj_of_av hav).imp fun _ hd => hd.symm
    obtain ⟨entry, he, hcol⟩ := (adjacent_row hc.1 ⟨by omega, by omega⟩).1 hadj
    exact ⟨entry, he, by omega⟩
  · rw [Option.ite_none_right_eq_some] at hc hc'
    obtain ⟨hcm, hav⟩ := (matchedColumn_eq_some h hc.1).1 hc.2
    obtain ⟨-, hav'⟩ := (matchedColumn_eq_some h hc'.1).1 hc'.2
    exact h.flow.col_unique _ row row' ⟨by omega, by omega⟩ hc.1 hc'.1 hav hav'

theorem matchedColumn_eq_none (h : Residual rows.length m w (Adjacent rows m maximum) slack graph) {row : Nat}
    (hrow : row < rows.length) :
    matchedColumn graph rows.length row = none ↔ Av graph (rows.length + m) row := by
  rw [h.flow.source_iff row hrow (by omega), Option.eq_none_iff_forall_ne_some]
  constructor
  · intro hnone c hc hav
    unfold IsColumn at hc
    refine hnone (c - rows.length) ((matchedColumn_eq_some h hrow).2 ⟨by omega, ?_⟩)
    rwa [Nat.add_sub_cancel' hc.1]
  · intro hfree c hc
    obtain ⟨hcm, hav⟩ := (matchedColumn_eq_some h hrow).1 hc
    exact hfree _ ⟨by omega, by omega⟩ hav

/-- Rows the source reaches while the sink is out of reach own their columns. -/
theorem blocked_maximum (hsig : Signature rows m)
    (h : Residual rows.length m w (Adjacent rows m maximum) slack graph) (hblocked : Blocked rows.length m graph) :
    IsMaximum (HasEntry rows) (Finset.range rows.length)
      fun row => if row < rows.length then matchedColumn graph rows.length row else none := by
  set n := rows.length with hn
  obtain ⟨R, hsource, hout, hreach⟩ := hblocked
  have hsink : ∀ row ∈ R, ∀ c, IsColumn n m c → Av graph row c → ¬ Av graph c (n + m + 1) :=
    fun row hrow c _ hav hav' => hout (hreach _ _ hav' (hreach _ _ hav hrow))
  have hclosed : ∀ row ∈ R, ∀ c, Av graph row c → ∀ row', Av graph c row' → row' ∈ R :=
    fun row hrow c hav row' hav' => hreach _ _ hav' (hreach _ _ hav hrow)
  refine maximum_of_closed (Z := {row | row < n ∧ row ∈ R}) (fun row hrow c he => ?_) (fun row c hc => ?_)
    fun row hrow hnot => ?_
  · obtain ⟨hlt, hRrow⟩ := hrow
    obtain ⟨entry, he, rfl⟩ := he
    have hcol : IsColumn n m (n + entry.column) := ⟨by omega, by have := hsig.column_lt row entry he; omega⟩
    have hadj : Adjacent rows m maximum row (n + entry.column) := (adjacent_row hlt hcol).2 ⟨entry, he, rfl⟩
    have hcm : entry.column < m := hsig.column_lt row entry he
    by_cases hav : Av graph row (n + entry.column)
    · -- the column is in use by a row the source reaches through it
      obtain ⟨row', hrow', hav'⟩ : ∃ row' < n, Av graph (n + entry.column) row' := by
        by_contra hnone
        refine hsink row hRrow _ hcol hav ((h.flow.sink_iff _ hcol ?_).2 fun row' hrow' hav' =>
          hnone ⟨row', hrow', hav'⟩)
        unfold IsColumn at hcol
        omega
      refine ⟨row', ⟨hrow', hclosed row hRrow _ hav row' hav'⟩, ?_⟩
      rw [if_pos hrow', matchedColumn_eq_some h hrow']
      exact ⟨hcm, hav'⟩
    · refine ⟨row, ⟨hlt, hRrow⟩, ?_⟩
      rw [if_pos hlt, matchedColumn_eq_some h hlt]
      exact ⟨hcm, (h.shape.av_reverse (hadj.imp fun _ hd => hd.symm)).2 hav⟩
  · rw [Option.ite_none_right_eq_some] at hc
    exact Finset.mem_range.2 hc.1
  · have hlt := Finset.mem_range.1 hrow
    rw [if_pos hlt]
    refine Option.ne_none_iff_exists'.1 fun hnone => hnot ⟨hlt, ?_⟩
    exact hreach _ _ ((matchedColumn_eq_none h hlt).1 hnone) hsource

theorem isMaximum_of_end (hsig : Signature rows m)
    (h : Residual rows.length m w (Adjacent rows m maximum) slack graph)
    (hend : (freeRows rows.length m graph).card + min rows.length m ≤ rows.length ∨ Blocked rows.length m graph) :
    IsMaximum (HasEntry rows) (Finset.range rows.length)
      fun row => if row < rows.length then matchedColumn graph rows.length row else none := by
  classical
  rcases hend with hcard | hblocked
  swap
  · exact blocked_maximum hsig h hblocked
  intro other hother
  have hle := card_matched_le_min (s := Finset.range rows.length) (t := Finset.range m) hother fun row _ c hc => by
    obtain ⟨entry, he, rfl⟩ := hother.edge row c hc
    exact Finset.mem_range.2 (hsig.column_lt row entry he)
  have hfree : (Finset.range rows.length).filter (fun row => ¬ (if row < rows.length then
      matchedColumn graph rows.length row else none).isSome = true) = freeRows rows.length m graph := by
    refine Finset.filter_congr fun row hrow => ?_
    have hlt := Finset.mem_range.1 hrow
    rw [if_pos hlt, Option.not_isSome_iff_eq_none, matchedColumn_eq_none h hlt]
  have hsum := Finset.card_filter_add_card_filter_not (s := Finset.range rows.length) fun row =>
    (if row < rows.length then matchedColumn graph rows.length row else none).isSome = true
  rw [hfree, Finset.card_range] at hsum
  rw [Finset.card_range, Finset.card_range] at hle
  simp only [matched] at hle ⊢
  omega

theorem maximumWeightMatching_run (hsig : Signature rows m) (hsize : rows.length + m + 2 < usizeLimit)
    (hcost : (maximumOrder rows : Int) * (2 * (rows.length + m) + 5) + 1 < i64Limit) : ∃ graph slack,
      maximumWeightMatching rows m = pure ((List.range rows.length).map (matchedColumn graph rows.length)) ∧
      Residual rows.length m (cost rows m (maximumOrder rows)) (Adjacent rows m (maximumOrder rows)) slack graph ∧
      IsMaximum (HasEntry rows) (Finset.range rows.length)
        fun row => if row < rows.length then matchedColumn graph rows.length row else none := by
  let slack : Int := (maximumOrder rows : Int) * (rows.length + m + 2 : Nat)
  have hslack : 0 ≤ slack := Int.mul_nonneg (Int.natCast_nonneg _) (Int.natCast_nonneg _)
  have hB : Bounds rows.length m (cost rows m (maximumOrder rows)) (maximumOrder rows) slack := by
    refine cost_bounds slack (le_refl _) ?_
    have : 2 * slack + maximumOrder rows = (maximumOrder rows : Int) * (2 * (rows.length + m) + 5) := by
      simp only [slack]
      push_cast
      ring
    omega
  obtain ⟨graph, hgraph, hres, hfree⟩ := assignmentGraph_residual hsig hsize slack hslack
  have hall : (freeRows rows.length m graph).card = rows.length := by
    have heq : freeRows rows.length m graph = Finset.range rows.length := by
      classical
      exact Finset.filter_true_of_mem fun row hrow => (hfree row).2 (Finset.mem_range.1 hrow)
    rw [heq, Finset.card_range]
  obtain ⟨final, hloop, hfinal, hend⟩ :=
    matchingLoop_spec (min rows.length m) hB (cost_neg rows m _) hres hall
  refine ⟨final, slack, ?_, hfinal, isMaximum_of_end hsig hfinal hend⟩
  simp only [maximumWeightMatching, hgraph, pure_bind, hloop]

end

end Assignment

/-! ## The result -/

section
variable {rows : List (List SignatureEntry)}

def SignatureEdge (rows : List (List SignatureEntry)) (row column : Fin rows.length) : Prop :=
  Assignment.HasEntry rows row column

def signatureOrder (rows : List (List SignatureEntry)) (row column : Fin rows.length) : Nat :=
  orderAt (signatureRow rows row) column

def matchingColumns {n : Nat} (σ : Equiv.Perm (Fin n)) : List Nat := List.ofFn fun row => (σ row : Nat)

theorem Assignment.perfect_of_maximum {m : Nat → Option Nat} (hsig : Signature rows rows.length)
    (hm : IsMatching (HasEntry rows) m) (hmax : IsMaximum (HasEntry rows) (Finset.range rows.length) m)
    (hperfect : ∃ τ : Equiv.Perm (Fin rows.length), ∀ row, SignatureEdge rows row (τ row)) :
    ∃ σ : Equiv.Perm (Fin rows.length), ∀ row : Fin rows.length, m row = some (σ row : Nat) := by
  obtain ⟨τ, hτ⟩ := hperfect
  -- the given matching as a partial map
  let given : Nat → Option Nat := fun row => if h : row < rows.length then some (τ ⟨row, h⟩) else none
  have hgiven : ∀ row c, given row = some c ↔ ∃ h : row < rows.length, (τ ⟨row, h⟩ : Nat) = c := by
    intro row c
    simp only [given, Option.dite_none_right_eq_some, Option.some.injEq]
  have hmatching : IsMatching (HasEntry rows) given := by
    refine ⟨fun row c hc => ?_, fun row row' c hc hc' => ?_⟩
    · obtain ⟨h, rfl⟩ := (hgiven row c).1 hc
      exact hτ ⟨row, h⟩
    · obtain ⟨h, rfl⟩ := (hgiven row c).1 hc
      obtain ⟨h', heq⟩ := (hgiven row' _).1 hc'
      have := τ.injective (Fin.val_injective heq)
      exact (Fin.mk.inj_iff.1 this).symm
  have hgivenAll : ∀ row ∈ Finset.range rows.length, ∃ c, given row = some c := fun row hrow =>
    ⟨_, (hgiven row _).2 ⟨Finset.mem_range.1 hrow, rfl⟩⟩
  have htotal : ∀ row : Fin rows.length, ∃ c : Fin rows.length, m row = some (c : Nat) := by
    intro row
    obtain ⟨c, hc⟩ := hmax.all hmatching hgivenAll row (Finset.mem_range.2 row.2)
    obtain ⟨entry, he, rfl⟩ := hm.edge _ _ hc
    exact ⟨⟨entry.column, hsig.column_lt row entry he⟩, hc⟩
  choose f hf using htotal
  have hinj : Function.Injective f := fun row row' h =>
    Fin.val_injective (hm.injective row row' (f row) (hf row) (h ▸ hf row'))
  exact ⟨Equiv.ofBijective f (Finite.injective_iff_bijective.1 hinj), hf⟩

open Assignment in
/-- The matching is perfect and has a dual solution exact on it. -/
theorem maximumWeightMatching_spec (hsig : Signature rows rows.length)
    (hperfect : ∃ τ : Equiv.Perm (Fin rows.length), ∀ row, SignatureEdge rows row (τ row))
    (hsize : 2 * rows.length + 2 < usizeLimit)
    (hcost : (maximumOrder rows : Int) * (4 * rows.length + 5) + 1 < i64Limit) :
    ∃ σ : Equiv.Perm (Fin rows.length),
      maximumWeightMatching rows rows.length = pure ((matchingColumns σ).map some) ∧
      (∀ row, SignatureEdge rows row (σ row)) ∧ ∃ y z,
        Feasible (SignatureEdge rows) (signatureOrder rows) y z ∧ TightOn (signatureOrder rows) σ y z := by
  set n := rows.length with hn
  obtain ⟨final, slack, hrun, hfinal, hmax⟩ := maximumWeightMatching_run hsig (by omega) (by
    rwa [show (2 * ((rows.length : Int) + rows.length) + 5) = 4 * rows.length + 5 by ring])
  have hmatching := matchedColumn_isMatching hfinal
  obtain ⟨σ, hσ⟩ := perfect_of_maximum hsig hmatching hmax hperfect
  have hcolumn : ∀ row : Fin n, matchedColumn final n row = some (σ row : Nat) := fun row => by
    have := hσ row
    rwa [if_pos row.2] at this
  have hused : ∀ (row : Fin n) (c : Fin n), Av final (n + c) row ↔ σ row = c := by
    intro row c
    have h1 := matchedColumn_eq_some hfinal (c := c) row.2
    rw [hcolumn row, Option.some.injEq] at h1
    rw [Fin.ext_iff, h1]
    exact ⟨fun h => ⟨c.2, h⟩, fun h => h.2⟩
  refine ⟨σ, ?_, fun row => hmatching.edge _ _ (hσ row), ?_⟩
  · rw [hrun]
    congr 1
    refine List.ext_getElem (by simp [matchingColumns]) fun row h1 h2 => ?_
    rw [List.length_map, List.length_range] at h1
    simpa [matchingColumns] using hcolumn ⟨row, h1⟩
  · -- the potentials bound the orders from both sides of a column
    obtain ⟨φ, R, -, -, hdual⟩ := hfinal.dual
    refine ⟨fun row => -φ row, fun c => signatureOrder rows (σ.symm c) c - φ (σ.symm c), fun row c he => ?_, fun row => ?_⟩
    · by_cases hrow : σ row = c
      · subst hrow
        simp
      · have hadj : Adjacent rows n (maximumOrder rows) row (n + c) :=
          (adjacent_row row.2 ⟨by omega, by omega⟩).2 (he.imp fun e h => ⟨h.1, by rw [h.2]⟩)
        have hav : Av final row (n + c) := (hfinal.shape.av_reverse hadj).2 fun h => hrow ((hused row c).1 h)
        have hback : Av final (n + c) (σ.symm c) := (hused _ c).2 (σ.apply_symm_apply c)
        have h1 := (hdual _ _ hav).1
        have h2 := (hdual _ _ hback).1
        have hcol : IsColumn n n (n + c) := ⟨by omega, by omega⟩
        rw [cost, if_pos ⟨row.2, hcol⟩, Nat.add_sub_cancel_left] at h1
        rw [cost_neg, cost, if_pos ⟨(σ.symm c).2, hcol⟩, Nat.add_sub_cancel_left] at h2
        simp only [signatureOrder]
        omega
    · simp

end

end Rumoca.Structural
