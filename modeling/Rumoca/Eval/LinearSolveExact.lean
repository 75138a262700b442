import Rumoca.Eval.LinearSolve
import Rumoca.Solve.StructuralPatternRows
/-!
# The kernels of a linear solve agree

Every kernel builds the system the registers hold, or divides by its diagonal,
and so gives the solution that elimination gives. A pattern with a stray row
makes the sparse kernel fail, whatever the matrix is.
-/

namespace Rumoca.Eval

open Solve Lib Lib.LinearSystem

/-! ## Building the matrix -/

section
variable {F : Type} [Field F]

def AugmentedMatrix.withRow (matrix : AugmentedMatrix F) (row : Nat) (cols : List Nat) (v : Nat → F) (b : F) :
    AugmentedMatrix F where
  n := matrix.n
  get := fun r c => if r = row ∧ c = matrix.n then b else if r = row ∧ c ∈ cols then v c else matrix.get r c

omit [Field F] in
theorem AugmentedMatrix.setRow_eq {matrix : AugmentedMatrix F} {row : Nat} {cols : List Nat} {entry : Nat → EvalResult F}
    {rhs : EvalResult F} {v : Nat → F} {b : F} (hentry : ∀ c ∈ cols, entry c = pure (v c)) (hrhs : rhs = pure b) :
    matrix.setRow cols entry rhs row = pure (matrix.withRow row cols v b) := by
  have hpass : ∀ (cols : List Nat) (matrix : AugmentedMatrix F), (∀ c ∈ cols, entry c = pure (v c)) →
      cols.foldlM (fun matrix col => do
        let value ← entry col
        return matrix.set row col value) matrix =
        (pure { n := matrix.n, get := fun r c => if r = row ∧ c ∈ cols then v c else matrix.get r c } :
          EvalResult (AugmentedMatrix F)) := by
    intro cols
    induction cols with
    | nil => simp
    | cons col cols ih =>
      intro matrix hcols
      obtain ⟨hcol, hcols⟩ := List.forall_mem_cons.1 hcols
      rw [List.foldlM_cons, hcol]
      refine (ih (matrix.set row col (v col)) hcols).trans (congrArg pure ?_)
      refine congrArg (AugmentedMatrix.mk matrix.n) ?_
      funext r c
      rw [set_get]
      by_cases hr : r = row
      · by_cases hmem : c ∈ cols
        · rw [if_pos ⟨hr, hmem⟩, if_pos ⟨hr, List.mem_cons_of_mem _ hmem⟩]
        · rw [if_neg fun h => hmem h.2]
          by_cases hc : c = col
          · rw [if_pos ⟨hr, hc⟩, if_pos ⟨hr, hc ▸ List.mem_cons_self⟩, hc]
          · rw [if_neg fun h => hc h.2, if_neg fun h => (List.mem_cons.1 h.2).elim hc hmem]
      · rw [if_neg fun h => hr h.1, if_neg fun h => hr h.1, if_neg fun h => hr h.1]
  rw [setRow, hpass cols matrix hentry, hrhs]
  rfl

def filledMatrix (n : Nat) (cols : Nat → List Nat) (v : Nat → Nat → F) (b : Nat → F) : AugmentedMatrix F where
  n := n
  get := fun r c => if r < n then if c = n then b r else if c ∈ cols r then v r c else 0 else 0

theorem filledMatrix_congr {n : Nat} {cols cols' : Nat → List Nat} {v v' : Nat → Nat → F} {b b' : Nat → F}
    (hv : ∀ r < n, ∀ c < n, (if c ∈ cols r then v r c else 0) = if c ∈ cols' r then v' r c else 0)
    (hcols : ∀ r < n, ∀ c, c ∈ cols r ∨ c ∈ cols' r → c < n) (hb : ∀ r < n, b r = b' r) :
    filledMatrix n cols v b = filledMatrix n cols' v' b' := by
  refine congrArg (AugmentedMatrix.mk n) ?_
  funext r c
  by_cases hr : r < n
  · rw [if_pos hr, if_pos hr]
    by_cases hc : c = n
    · rw [if_pos hc, if_pos hc, hb r hr]
    · rw [if_neg hc, if_neg hc]
      by_cases hlt : c < n
      · exact hv r hr c hlt
      · rw [if_neg fun h => hlt (hcols r hr c (.inl h)), if_neg fun h => hlt (hcols r hr c (.inr h))]
  · rw [if_neg hr, if_neg hr]

omit [Field F] in
/-- A pass of turns that succeed or panic panics at a turn that does. -/
theorem foldlM_panic {σ α : Type} {step : σ → α → EvalResult σ} {l : List α}
    (hstep : ∀ a ∈ l, ∀ s, step s a = ExceptT.mk none ∨ ∃ s', step s a = pure s')
    (hpanic : ∃ a ∈ l, ∀ s, step s a = ExceptT.mk none) (s : σ) : l.foldlM step s = ExceptT.mk none := by
  induction l generalizing s with
  | nil => simp at hpanic
  | cons a l ih =>
    obtain ⟨hhead, htail⟩ := List.forall_mem_cons.1 hstep
    rw [List.foldlM_cons]
    rcases hhead s with hnone | ⟨s', hsome⟩
    · rw [hnone]
      rfl
    · rw [hsome, pure_bind]
      refine ih htail ?_ s'
      obtain ⟨b, hb, hnone⟩ := hpanic
      rcases List.mem_cons.1 hb with rfl | hb
      · cases (hnone s).symm.trans hsome
      · exact ⟨b, hb, hnone⟩

theorem foldlM_rows {n : Nat} {cols : Nat → List Nat} {v : Nat → Nat → F} {b : Nat → F}
    {step : AugmentedMatrix F → Nat → EvalResult (AugmentedMatrix F)}
    (hstep : ∀ (matrix : AugmentedMatrix F), ∀ row < n, step matrix row = pure (matrix.withRow row (cols row) (v row) (b row))) :
    (List.range n).foldlM step { n := n, get := fun _ _ => 0 } = pure (filledMatrix n cols v b) := by
  have key : ∀ k ≤ n, (List.range k).foldlM step { n := n, get := fun _ _ => 0 } =
      pure { n := n, get := fun r c => if r < k then if c = n then b r else if c ∈ cols r then v r c else 0 else 0 } := by
    intro k
    induction k with
    | zero => exact fun _ => rfl
    | succ k ih =>
      intro hk
      rw [List.range_succ, List.foldlM_append, ih (by omega), pure_bind, List.foldlM_cons, hstep _ k hk, pure_bind,
        List.foldlM_nil]
      refine congrArg pure (congrArg (AugmentedMatrix.mk n) ?_)
      funext r c
      by_cases hr : r = k
      · simp only [hr, true_and, lt_irrefl, if_false, Nat.lt_succ_self, if_true]
      · have hiff : r < k + 1 ↔ r < k := by omega
        simp only [hr, false_and, if_false, hiff]
  exact key n le_rfl

/-! ## The system in the registers -/

/-- Initialized registers hold the matrix and the right-hand side. -/
structure HoldsSystem (regs : List F) (initialized : List Bool) (matrixStart rhsStart n : Nat) : Prop where
  registers : regs.length ≤ u32Limit
  matrix_le : matrixStart + n * n ≤ regs.length
  rhs_le : rhsStart + n ≤ regs.length
  matrix_initialized : ∀ i < n * n, initialized.getD (matrixStart + i) false = true
  rhs_initialized : ∀ i < n, initialized.getD (rhsStart + i) false = true

def coefficient (regs : List F) (matrixStart n row col : Nat) : F := regs.getD (matrixStart + (row * n + col)) 0

def rightSide (regs : List F) (rhsStart row : Nat) : F := regs.getD (rhsStart + row) 0

def systemMatrix (regs : List F) (matrixStart rhsStart n : Nat) : AugmentedMatrix F :=
  filledMatrix n (fun _ => List.range n) (coefficient regs matrixStart n) (rightSide regs rhsStart)

theorem index_eq {values : List F} {i : Nat} (h : i < values.length) : index values i = pure (values.getD i 0) := by
  rw [index, List.getElem?_eq_getElem h, List.getD_eq_getElem?_getD, List.getElem?_eq_getElem h]
  rfl

theorem getReg_eq {regs : List F} {initialized : List Bool} {i : Nat} (h : i < regs.length)
    (hinit : initialized.getD i false = true) : getReg regs initialized i = pure (regs.getD i 0) := by
  rw [getReg, List.getElem?_eq_getElem h]
  dsimp only
  rw [if_pos hinit, List.getD_eq_getElem?_getD, List.getElem?_eq_getElem h]
  rfl

variable {regs : List F} {initialized : List Bool} {matrixStart rhsStart n : Nat}

namespace HoldsSystem

omit [Field F] in
theorem lt_limits (h : HoldsSystem regs initialized matrixStart rhsStart n) :
    n * n < usizeLimit ∧ n + 1 < usizeLimit ∧ n * (n + 1) < usizeLimit := by
  have hn : n ≤ u32Limit := (Nat.le_add_left n rhsStart).trans (h.rhs_le.trans h.registers)
  have hsquare : n * n ≤ u32Limit := (Nat.le_add_left _ matrixStart).trans (h.matrix_le.trans h.registers)
  have hmul : n * (n + 1) = n * n + n := Nat.mul_succ n n
  unfold u32Limit at hn hsquare
  unfold usizeLimit
  omega

theorem zeroed_eq (h : HoldsSystem regs initialized matrixStart rhsStart n) :
    AugmentedMatrix.zeroed n = (pure { n := n, get := fun _ _ => 0 } : EvalResult (AugmentedMatrix F)) := by
  obtain ⟨-, hstride, hlen⟩ := h.lt_limits
  rw [AugmentedMatrix.zeroed, checkedUsize, if_pos hstride]
  dsimp only
  rw [checkedUsize, if_pos hlen]

omit [Field F] in
theorem offset_eq (h : HoldsSystem regs initialized matrixStart rhsStart n) {row col : Nat} (hrow : row < n)
    (hcol : col < n) : checkedMatrixOffset row n col = pure (row * n + col) := by
  obtain ⟨hlimit, -, -⟩ := h.lt_limits
  have hlt := entry_lt hrow hcol
  rw [checkedMatrixOffset, checkedUsize, if_pos (by omega)]
  dsimp only
  rw [checkedUsize, if_pos (by omega)]

omit [Field F] in
theorem register_eq (h : HoldsSystem regs initialized matrixStart rhsStart n) {start offset : Nat}
    (hlt : start + offset < regs.length) : checkedRegisterAtOffset start offset regs.length = pure (start + offset) := by
  have hlimit := h.registers
  rw [checkedRegisterAtOffset, checkedU32, if_pos (by omega)]
  dsimp only
  rw [checkedU32, if_pos (by omega)]

omit [Field F] in
theorem registerIndex_eq (h : HoldsSystem regs initialized matrixStart rhsStart n) {start offset : Nat}
    (hlt : start + offset < regs.length) :
    checkedRegisterIndexAtOffset start offset regs.length = pure (start + offset) := by
  have hlimit : regs.length ≤ usizeLimit := h.registers.trans (by decide)
  rw [checkedRegisterIndexAtOffset, checkedUsize, if_pos (by omega)]
  exact if_pos hlt

theorem buildAugmentedMatrix_eq (h : HoldsSystem regs initialized matrixStart rhsStart n) :
    buildAugmentedMatrix regs initialized matrixStart rhsStart n = pure (systemMatrix regs matrixStart rhsStart n) := by
  rw [buildAugmentedMatrix, h.zeroed_eq, pure_bind]
  refine foldlM_rows fun matrix row hrow => AugmentedMatrix.setRow_eq (fun col hcol => ?_) ?_
  · have hlt := entry_lt hrow (List.mem_range.1 hcol)
    have hmatrix := h.matrix_le
    rw [h.offset_eq hrow (List.mem_range.1 hcol), pure_bind, h.register_eq (by omega), pure_bind,
      getReg_eq (by omega) (h.matrix_initialized _ hlt)]
    rfl
  · have hrhs := h.rhs_le
    rw [h.register_eq (by omega), pure_bind, getReg_eq (by omega) (h.rhs_initialized row hrow)]
    rfl

theorem buildAugmentedMatrixUnchecked_eq (h : HoldsSystem regs initialized matrixStart rhsStart n) :
    buildAugmentedMatrixUnchecked regs matrixStart rhsStart n = pure (systemMatrix regs matrixStart rhsStart n) := by
  rw [buildAugmentedMatrixUnchecked, h.zeroed_eq, pure_bind]
  refine foldlM_rows fun matrix row hrow => AugmentedMatrix.setRow_eq (fun col hcol => ?_) ?_
  · have hlt := entry_lt hrow (List.mem_range.1 hcol)
    have hmatrix := h.matrix_le
    rw [h.offset_eq hrow (List.mem_range.1 hcol), pure_bind, h.registerIndex_eq (by omega), pure_bind, index_eq (by omega)]
    rfl
  · have hrhs := h.rhs_le
    rw [h.registerIndex_eq (by omega), pure_bind, index_eq (by omega)]
    rfl

end HoldsSystem

end

/-! ## The kernels -/

section
variable {F : Type} [Field F] [LinearOrder F] {regs : List F} {initialized : List Bool} {matrixStart rhsStart n : Nat}
  {pattern : StructuralPattern} {out : List F}

def ZeroOutside (regs : List F) (matrixStart n : Nat) (pattern : StructuralPattern) : Prop :=
  ∀ row < n, ∀ col < n, pattern.contains row col = false → coefficient regs matrixStart n row col = 0

namespace HoldsSystem

theorem solveAllUnchecked_eq (h : HoldsSystem regs initialized matrixStart rhsStart n) (hn : 1 ≤ n) (hout : n ≤ out.length)
    (kernel : LinearSolveKernel) (pattern : StructuralPattern) :
    solveAllUnchecked regs matrixStart rhsStart n kernel (some pattern) out =
      match kernel with
      | .Diagonal => solveDiagonalUnchecked regs matrixStart rhsStart n out
      | .SparseCandidate => solveSparseUnchecked regs matrixStart rhsStart n pattern out
      | .SmallDense | .Dense => eliminateInto (systemMatrix regs matrixStart rhsStart n) n out := by
  have hlimit : regs.length ≤ u32Limit := h.registers
  have husize : u32Limit < usizeLimit := by decide
  have hmatrix := h.matrix_le
  have hrhs := h.rhs_le
  have hrange : ∀ start len, start + len ≤ regs.length → ensureRegisterRange regs.length "read" start len = pure () := by
    intro start len hle
    rw [ensureRegisterRange, checkedUsize, if_pos (by omega)]
    exact if_pos hle
  simp only [solveAllUnchecked]
  rw [if_neg (by omega), if_neg (by omega), checkedUsize, if_pos h.lt_limits.1]
  dsimp only
  rw [hrange _ _ hmatrix, pure_bind, hrange _ _ hrhs, pure_bind]
  cases kernel with
  | Diagonal => rfl
  | SparseCandidate => rfl
  | SmallDense => rw [h.buildAugmentedMatrixUnchecked_eq, pure_bind]
  | Dense => rw [h.buildAugmentedMatrixUnchecked_eq, pure_bind]

theorem solveComponent_eq (h : HoldsSystem regs initialized matrixStart rhsStart n) {component : Nat} (hcomponent : component < n) :
    solveComponent regs initialized matrixStart rhsStart n component =
      match (systemMatrix regs matrixStart rhsStart n).gaussianEliminateInPlace with
      | none => throw (linearSolveError n (some component) "singular matrix")
      | some reduced => pure (reduced.solutionComponent component) := by
  rw [solveComponent, validateComponent, if_neg (by omega), if_neg (by omega), pure_bind, h.buildAugmentedMatrix_eq]
  exact pure_bind _ _

theorem solveSparseUnchecked_eq (h : HoldsSystem regs initialized matrixStart rhsStart n) (hrows : pattern.rows = n)
    (hcolumns : pattern.columns = n) (hzero : ZeroOutside regs matrixStart n pattern)
    (hstray : ∀ row < n, pattern.straysAt row = false) :
    solveSparseUnchecked regs matrixStart rhsStart n pattern out =
      eliminateInto (systemMatrix regs matrixStart rhsStart n) n out := by
  have hvisit : ∀ row < n, ∃ cols, pattern.visitRowColumns row = some cols := by
    intro row hrow
    refine Option.ne_none_iff_exists'.1 fun hnone => ?_
    have := (StructuralPattern.visitRowColumns_eq_none (hrow.trans_eq hrows.symm)).1 hnone
    rw [hstray row hrow] at this
    cases this
  have hbound : ∀ row < n, ∀ col ∈ (pattern.visitRowColumns row).getD [], col < n := by
    intro row hrow col hcol
    obtain ⟨cols, hcols⟩ := hvisit row hrow
    rw [hcols, Option.getD_some] at hcol
    exact (StructuralPattern.visitRowColumns_lt hcols col hcol).trans_eq hcolumns
  have hbuilt : systemMatrix regs matrixStart rhsStart n = filledMatrix n
      (fun row => (pattern.visitRowColumns row).getD []) (coefficient regs matrixStart n) (rightSide regs rhsStart) := by
    refine filledMatrix_congr (fun row hrow col hcol => ?_) (fun row hrow col hmem => ?_) fun _ _ => rfl
    · rw [if_pos (List.mem_range.2 hcol)]
      split
      · rfl
      · next hnotMem =>
        -- A column that is not visited is not contained.
        obtain ⟨cols, hcols⟩ := hvisit row hrow
        refine hzero row hrow col hcol (Bool.eq_false_iff.2 fun hcontains => hnotMem ?_)
        rw [hcols]
        exact StructuralPattern.mem_of_contains hcontains hcols
    · exact hmem.elim List.mem_range.1 (hbound row hrow col)
  rw [solveSparseUnchecked, if_neg (by omega), h.zeroed_eq, pure_bind, hbuilt]
  rw [foldlM_rows fun matrix row hrow => ?_, pure_bind]
  obtain ⟨cols, hcols⟩ := hvisit row hrow
  have hmatrix := h.matrix_le
  have hrhs := h.rhs_le
  have hlt : ∀ col ∈ cols, col < n := by
    have := hbound row hrow
    rwa [hcols] at this
  rw [hcols]
  refine AugmentedMatrix.setRow_eq (fun col hcol => ?_) ?_
  · have := entry_lt hrow (hlt col hcol)
    rw [index_eq (by omega)]
    rfl
  · rw [index_eq (by omega)]
    rfl

theorem solveSparseUnchecked_eq_none (h : HoldsSystem regs initialized matrixStart rhsStart n) (hrows : pattern.rows = n)
    (hcolumns : pattern.columns = n) (hstray : ∃ row < n, pattern.straysAt row = true) :
    solveSparseUnchecked regs matrixStart rhsStart n pattern out = ExceptT.mk none := by
  have hmatrix := h.matrix_le
  have hrhs := h.rhs_le
  rw [solveSparseUnchecked, if_neg (by omega), h.zeroed_eq, pure_bind, foldlM_panic]
  · rfl
  · intro row hrow matrix
    rw [List.mem_range] at hrow
    cases hcols : pattern.visitRowColumns row with
    | none => exact .inl rfl
    | some cols =>
      refine .inr ⟨_, AugmentedMatrix.setRow_eq (v := coefficient regs matrixStart n row)
        (b := rightSide regs rhsStart row) (fun col hcol => ?_) ?_⟩
      · have := entry_lt hrow ((StructuralPattern.visitRowColumns_lt hcols col hcol).trans_eq hcolumns)
        rw [index_eq (by omega)]
        rfl
      · rw [index_eq (by omega)]
        rfl
  · obtain ⟨row, hrow, hstray⟩ := hstray
    refine ⟨row, List.mem_range.2 hrow, fun matrix => ?_⟩
    rw [(StructuralPattern.visitRowColumns_eq_none (hrow.trans_eq hrows.symm)).2 hstray]
    rfl

theorem divideByDiagonal_eq (h : HoldsSystem regs initialized matrixStart rhsStart n) {component : Nat}
    (hcomponent : component < n) : divideByDiagonal regs matrixStart rhsStart n out component =
      if coefficient regs matrixStart n component component = 0 then
        throw (linearSolveError n (some component) "singular diagonal")
      else pure (out.set component (rightSide regs rhsStart component / coefficient regs matrixStart n component component)) := by
  have hmatrix := h.matrix_le
  have hrhs := h.rhs_le
  have hlt := entry_lt hcomponent hcomponent
  simp only [divideByDiagonal]
  rw [Nat.add_assoc, index_eq (by omega), pure_bind, index_eq (by omega)]
  rfl

end HoldsSystem

def NonzeroDiagonal (regs : List F) (matrixStart n : Nat) : Prop :=
  ∀ component < n, coefficient regs matrixStart n component component ≠ 0

theorem solveDiagonalUnchecked_eq (h : HoldsSystem regs initialized matrixStart rhsStart n) (hout : n ≤ out.length) :
    (NonzeroDiagonal regs matrixStart n ∧ solveDiagonalUnchecked regs matrixStart rhsStart n out =
        pure ((List.range n).foldl (fun out component => out.set component
          (rightSide regs rhsStart component / coefficient regs matrixStart n component component)) out)) ∨
      ¬NonzeroDiagonal regs matrixStart n ∧ ∃ component, solveDiagonalUnchecked regs matrixStart rhsStart n out =
        throw (linearSolveError n (some component) "singular diagonal") := by
  have key : ∀ (components : List Nat) (out : List F), (∀ component ∈ components, component < n) →
      ((∀ component ∈ components, coefficient regs matrixStart n component component ≠ 0) ∧
        components.foldlM (divideByDiagonal regs matrixStart rhsStart n) out =
          pure (components.foldl (fun out component => out.set component
            (rightSide regs rhsStart component / coefficient regs matrixStart n component component)) out)) ∨
      (∃ component ∈ components, coefficient regs matrixStart n component component = 0) ∧ ∃ component,
        components.foldlM (divideByDiagonal regs matrixStart rhsStart n) out =
          throw (linearSolveError n (some component) "singular diagonal") := by
    intro components
    induction components with
    | nil => exact fun out _ => .inl ⟨by simp, rfl⟩
    | cons component components ih =>
      intro out hcomponents
      obtain ⟨hcomponent, hrest⟩ := List.forall_mem_cons.1 hcomponents
      rw [List.foldlM_cons, h.divideByDiagonal_eq hcomponent]
      by_cases hzero : coefficient regs matrixStart n component component = 0
      · rw [if_pos hzero]
        exact .inr ⟨⟨component, List.mem_cons_self, hzero⟩, component, rfl⟩
      · rw [if_neg hzero, pure_bind]
        rcases ih _ hrest with ⟨hnonzero, hpure⟩ | ⟨⟨other, hother, hzero'⟩, hthrow⟩
        · exact .inl ⟨List.forall_mem_cons.2 ⟨hzero, hnonzero⟩, hpure⟩
        · exact .inr ⟨⟨other, List.mem_cons_of_mem _ hother, hzero'⟩, hthrow⟩
  rw [solveDiagonalUnchecked, Nat.min_eq_left hout]
  rcases key (List.range n) out (fun component => List.mem_range.1) with ⟨hnonzero, hpure⟩ | ⟨⟨component, hmem, hzero⟩, hthrow⟩
  · exact .inl ⟨fun component hlt => hnonzero component (List.mem_range.2 hlt), hpure⟩
  · exact .inr ⟨fun hall => hall component (List.mem_range.1 hmem) hzero, hthrow⟩

omit [LinearOrder F] in
theorem systemMatrix_get {r c : Nat} (hr : r < n) (hc : c < n) :
    (systemMatrix regs matrixStart rhsStart n).get r c = coefficient regs matrixStart n r c := by
  simp [systemMatrix, filledMatrix, hr, hc, hc.ne]

omit [LinearOrder F] in
theorem systemMatrix_rhs {r : Nat} (hr : r < n) :
    (systemMatrix regs matrixStart rhsStart n).get r n = rightSide regs rhsStart r := by
  simp [systemMatrix, filledMatrix, hr]

omit [LinearOrder F] in
/-- The matrix of a system that is zero off the diagonal. -/
theorem coefficients_diagonal (hoff : ∀ row < n, ∀ col < n, row ≠ col → coefficient regs matrixStart n row col = 0) :
    coefficients n (systemMatrix regs matrixStart rhsStart n).get =
      Matrix.diagonal fun i : Fin n => coefficient regs matrixStart n i i := by
  ext r c
  rw [Matrix.diagonal_apply]
  refine (systemMatrix_get r.isLt c.isLt).trans ?_
  split
  · next heq => rw [heq]
  · next hne => exact hoff r r.isLt c c.isLt fun h => hne (Fin.ext h)

variable [IsStrictOrderedRing F]

theorem gaussianEliminateInPlace_diagonal (rhsStart : Nat)
    (hoff : ∀ row < n, ∀ col < n, row ≠ col → coefficient regs matrixStart n row col = 0) :
    (NonzeroDiagonal regs matrixStart n ∧ ∃ reduced,
        (systemMatrix regs matrixStart rhsStart n).gaussianEliminateInPlace = some reduced ∧
          ∀ component < n, reduced.solutionComponent component =
            rightSide regs rhsStart component / coefficient regs matrixStart n component component) ∨
      ¬NonzeroDiagonal regs matrixStart n ∧
        (systemMatrix regs matrixStart rhsStart n).gaussianEliminateInPlace = none := by
  have hmatrix : coefficients n (systemMatrix regs matrixStart rhsStart n).get =
      Matrix.diagonal fun i : Fin n => coefficient regs matrixStart n i i := coefficients_diagonal hoff
  have hdet : (coefficients n (systemMatrix regs matrixStart rhsStart n).get).det ≠ 0 ↔
      NonzeroDiagonal regs matrixStart n := by
    rw [hmatrix, Matrix.det_diagonal, Finset.prod_ne_zero_iff]
    exact ⟨fun h component hlt => h ⟨component, hlt⟩ (Finset.mem_univ _), fun h i _ => h i i.isLt⟩
  rcases AugmentedMatrix.gaussianEliminateInPlace_spec (systemMatrix regs matrixStart rhsStart n) with
    ⟨hnonzero, reduced, hsome, hunique⟩ | ⟨hzero, hnone⟩
  · have hdiagonal := hdet.1 hnonzero
    refine .inl ⟨hdiagonal, reduced, hsome, fun component hcomponent => ?_⟩
    have hsolves : (coefficients n (systemMatrix regs matrixStart rhsStart n).get).mulVec
        (fun i : Fin n => rightSide regs rhsStart i / coefficient regs matrixStart n i i) =
        rightHandSide n (systemMatrix regs matrixStart rhsStart n).get := by
      rw [hmatrix]
      funext i
      rw [Matrix.mulVec_diagonal, mul_div_cancel₀ _ (hdiagonal i i.isLt)]
      exact (systemMatrix_rhs i.isLt).symm
    exact (congrFun ((hunique _).1 hsolves) ⟨component, hcomponent⟩).symm
  · exact .inr ⟨fun h => hdet.2 h hzero, hnone⟩

end

/-! ## The answers -/

section
variable {F : Type}

def IsSingular (n : Nat) (error : EvalSolveError) : Prop :=
  ∃ component reason, error = linearSolveError n component reason ∧
    (reason = "singular matrix" ∨ reason = "singular diagonal")

/-- The same solution, or the error of a singular system each. -/
inductive SameAnswer (n : Nat) : EvalResult (List F) → EvalResult (List F) → Prop
  | solution (out : List F) : SameAnswer n (pure out) (pure out)
  | singular {e e' : EvalSolveError} : IsSingular n e → IsSingular n e' → SameAnswer n (throw e) (throw e')

/-- One component of the same solution, or the error of a singular system each. -/
inductive ComponentAnswer (n component : Nat) : EvalResult (List F) → EvalResult F → Prop
  | solution {out : List F} {x : F} : out[component]? = some x → ComponentAnswer n component (pure out) (pure x)
  | singular {e e' : EvalSolveError} : IsSingular n e → IsSingular n e' → ComponentAnswer n component (throw e) (throw e')

theorem isSingular_matrix (n : Nat) (component : Option Nat) :
    IsSingular n (linearSolveError n component "singular matrix") := ⟨component, _, rfl, .inl rfl⟩

theorem isSingular_diagonal (n : Nat) (component : Option Nat) :
    IsSingular n (linearSolveError n component "singular diagonal") := ⟨component, _, rfl, .inr rfl⟩

theorem getElem?_foldl_set (v : Nat → F) (out : List F) (n component : Nat) (hout : n ≤ out.length) (h : component < n) :
    ((List.range n).foldl (fun out i => out.set i (v i)) out)[component]? = some (v component) := by
  have hlength : ∀ k, ((List.range k).foldl (fun out i => out.set i (v i)) out).length = out.length := by
    intro k
    induction k with
    | zero => rfl
    | succ k ih => rw [List.range_succ, List.foldl_append, List.foldl_cons, List.foldl_nil, List.length_set, ih]
  induction n with
  | zero => omega
  | succ n ih =>
    rw [List.range_succ, List.foldl_append, List.foldl_cons, List.foldl_nil, List.getElem?_set, hlength]
    by_cases heq : n = component
    · rw [if_pos heq, if_pos (by omega), heq]
    · rw [if_neg heq]
      exact ih (by omega) (by omega)

end

section
variable {F : Type} [Field F] [LinearOrder F] [IsStrictOrderedRing F]

/-- Elimination succeeds exactly on a nonsingular matrix, with the unique solution in the last column. -/
def Eliminates (start : AugmentedMatrix F) : Prop :=
  (start.gaussianEliminateInPlace.isSome ↔ start.matrixOf.det ≠ 0) ∧
    ∀ reduced, start.gaussianEliminateInPlace = some reduced →
      ∀ x, start.matrixOf.mulVec x = start.rhsOf ↔ x = AugmentedMatrix.solution start.n reduced

def SolversAgree (regs : List F) (initialized : List Bool) (matrixStart rhsStart n : Nat) (pattern : StructuralPattern)
    (out : List F) : Prop :=
  ∃ kernel, selectLinearSolveKernel n pattern = .ok kernel ∧
    SameAnswer n (solveAllUnchecked regs matrixStart rhsStart n kernel (some pattern) out)
      (solveAllUnchecked regs matrixStart rhsStart n .Dense (some pattern) out) ∧
    ∀ component < n, ComponentAnswer n component
      (solveAllUnchecked regs matrixStart rhsStart n kernel (some pattern) out)
      (solveComponent regs initialized matrixStart rhsStart n component)

theorem eliminates (start : AugmentedMatrix F) : Eliminates start := by
  rcases start.gaussianEliminateInPlace_spec with ⟨hdet, reduced, hsome, hunique⟩ | ⟨hdet, hnone⟩
  · refine ⟨by simp [hsome, hdet], fun reduced' hsome' => ?_⟩
    obtain rfl := Option.some.inj (hsome.symm.trans hsome')
    exact hunique
  · exact ⟨by simp [hnone, hdet], fun reduced hsome => by simp [hnone] at hsome⟩

variable {regs : List F} {initialized : List Bool} {matrixStart rhsStart n : Nat} {pattern : StructuralPattern}
  {out : List F}

omit [IsStrictOrderedRing F] in
theorem sameAnswer_refl (matrix : AugmentedMatrix F) : SameAnswer n (eliminateInto matrix n out) (eliminateInto matrix n out) := by
  unfold eliminateInto
  cases matrix.gaussianEliminateInPlace with
  | none => exact .singular (isSingular_matrix n none) (isSingular_matrix n none)
  | some reduced => exact .solution _

omit [IsStrictOrderedRing F] in
theorem HoldsSystem.componentAnswer (h : HoldsSystem regs initialized matrixStart rhsStart n) (hout : n ≤ out.length)
    {component : Nat} (hcomponent : component < n) :
    ComponentAnswer n component (eliminateInto (systemMatrix regs matrixStart rhsStart n) n out)
      (solveComponent regs initialized matrixStart rhsStart n component) := by
  rw [h.solveComponent_eq hcomponent, eliminateInto, Nat.min_eq_left hout]
  cases (systemMatrix regs matrixStart rhsStart n).gaussianEliminateInPlace with
  | none => exact .singular (isSingular_matrix n none) (isSingular_matrix n (some component))
  | some reduced => exact .solution (getElem?_foldl_set reduced.solutionComponent out n component hout hcomponent)

theorem selectLinearSolveKernel_cases (pattern : StructuralPattern) (h : n * n < usizeLimit) :
    (selectLinearSolveKernel n pattern = .ok .Diagonal ∧ pattern.viewsDiagonal = true) ∨
      selectLinearSolveKernel n pattern = .ok .SmallDense ∨ selectLinearSolveKernel n pattern = .ok .Dense ∨
        selectLinearSolveKernel n pattern = .ok .SparseCandidate := by
  unfold selectLinearSolveKernel
  split
  · next hdiagonal => exact .inl ⟨rfl, hdiagonal.1⟩
  · split
    · exact .inr (.inl rfl)
    · rw [checkedPolicyProduct, checkedUsize, if_pos h]
      dsimp only
      split
      · exact .inr (.inr (.inr rfl))
      · exact .inr (.inr (.inl rfl))

theorem not_contains_of_viewsDiagonal (h : pattern.viewsDiagonal = true) {row col : Nat} (hne : row ≠ col) :
    pattern.contains row col = false := by
  obtain ⟨rows, columns, representation, hrows, hvalid⟩ := pattern
  cases representation with
  | Stacked segments => cases h
  | Flat representation =>
    cases representation with
    | Diagonal =>
      simp only [StructuralPattern.contains, FlatRepresentation.contains]
      split
      · rfl
      · exact beq_false_of_ne hne
    | _ => cases h

theorem HoldsSystem.diagonalAnswer (h : HoldsSystem regs initialized matrixStart rhsStart n) (hout : n ≤ out.length)
    (hoff : ∀ row < n, ∀ col < n, row ≠ col → coefficient regs matrixStart n row col = 0) :
    SameAnswer n (solveDiagonalUnchecked regs matrixStart rhsStart n out)
        (eliminateInto (systemMatrix regs matrixStart rhsStart n) n out) ∧
      ∀ component < n, ComponentAnswer n component (solveDiagonalUnchecked regs matrixStart rhsStart n out)
        (solveComponent regs initialized matrixStart rhsStart n component) := by
  rcases gaussianEliminateInPlace_diagonal rhsStart hoff with
    ⟨hnonzero, reduced, hsome, hsolution⟩ | ⟨hzero, hnone⟩
  · obtain ⟨-, hsolve⟩ := (solveDiagonalUnchecked_eq h hout).resolve_right fun hright => hright.1 hnonzero
    -- The quotients are the components of the solution.
    have heq : solveDiagonalUnchecked regs matrixStart rhsStart n out =
        eliminateInto (systemMatrix regs matrixStart rhsStart n) n out := by
      rw [hsolve, eliminateInto, hsome, Nat.min_eq_left hout]
      refine congrArg pure (List.foldl_ext _ _ _ fun out component hmem => ?_)
      rw [hsolution component (List.mem_range.1 hmem)]
    rw [heq]
    exact ⟨sameAnswer_refl _, fun component hcomponent => h.componentAnswer hout hcomponent⟩
  · obtain ⟨-, place, hsolve⟩ := (solveDiagonalUnchecked_eq h hout).resolve_left fun hleft => hzero hleft.1
    rw [hsolve]
    refine ⟨?_, fun component hcomponent => ?_⟩
    · rw [eliminateInto, hnone]
      exact .singular (isSingular_diagonal n _) (isSingular_matrix n none)
    · rw [h.solveComponent_eq hcomponent, hnone]
      exact .singular (isSingular_diagonal n _) (isSingular_matrix n (some component))

/-- Elimination solves every nonsingular system, and the kernels agree unless the sparse one meets a stray row. -/
theorem solvers_agree_iff (hn : 1 ≤ n) (h : HoldsSystem regs initialized matrixStart rhsStart n) (hout : n ≤ out.length)
    (hrows : pattern.rows = n) (hcolumns : pattern.columns = n) (hzero : ZeroOutside regs matrixStart n pattern) :
    ((∀ start : AugmentedMatrix F, Eliminates start) ∧
        SolversAgree regs initialized matrixStart rhsStart n pattern out) ↔
      ¬(selectLinearSolveKernel n pattern = .ok .SparseCandidate ∧ ∃ row < n, pattern.straysAt row = true) := by
  have hdense : ∀ component < n, ComponentAnswer n component
      (eliminateInto (systemMatrix regs matrixStart rhsStart n) n out)
      (solveComponent regs initialized matrixStart rhsStart n component) := fun component => h.componentAnswer hout
  rw [and_iff_right eliminates]
  constructor
  · rintro ⟨kernel, hkernel, hsame, -⟩ ⟨hsparse, hstray⟩
    obtain rfl := Except.ok.inj (hsparse.symm.trans hkernel)
    rw [h.solveAllUnchecked_eq hn hout] at hsame
    dsimp only at hsame
    rw [h.solveSparseUnchecked_eq_none hrows hcolumns hstray] at hsame
    cases hsame
  · intro hsafe
    rcases selectLinearSolveKernel_cases pattern h.lt_limits.1 with
      ⟨hkernel, hview⟩ | hkernel | hkernel | hkernel
    · refine ⟨_, hkernel, ?_⟩
      rw [h.solveAllUnchecked_eq hn hout, h.solveAllUnchecked_eq hn hout]
      exact h.diagonalAnswer hout fun row hrow col hcol hne =>
        hzero row hrow col hcol (not_contains_of_viewsDiagonal hview hne)
    · refine ⟨_, hkernel, ?_⟩
      rw [h.solveAllUnchecked_eq hn hout, h.solveAllUnchecked_eq hn hout]
      exact ⟨sameAnswer_refl _, hdense⟩
    · refine ⟨_, hkernel, ?_⟩
      rw [h.solveAllUnchecked_eq hn hout]
      exact ⟨sameAnswer_refl _, hdense⟩
    · refine ⟨_, hkernel, ?_⟩
      have hstray : ∀ row < n, pattern.straysAt row = false :=
        fun row hrow => Bool.eq_false_iff.2 fun hstray => hsafe ⟨hkernel, row, hrow, hstray⟩
      rw [h.solveAllUnchecked_eq hn hout, h.solveAllUnchecked_eq hn hout]
      dsimp only
      rw [h.solveSparseUnchecked_eq hrows hcolumns hzero hstray]
      exact ⟨sameAnswer_refl _, hdense⟩

end

def diagonalPattern : StructuralPattern where
  rows := 1
  columns := 1
  representation := .Flat .Diagonal
  rows_u32 := by decide
  valid := trivial

theorem holdsSystem_one : HoldsSystem [(2 : ℚ), 3] [true, true] 0 1 1 where
  registers := by decide
  matrix_le := by decide
  rhs_le := by decide
  matrix_initialized := by decide
  rhs_initialized := by decide

theorem solvers_agree_iff_one :
    ((∀ start : AugmentedMatrix ℚ, Eliminates start) ∧
        SolversAgree [(2 : ℚ), 3] [true, true] 0 1 1 diagonalPattern [0]) ↔
      ¬(selectLinearSolveKernel 1 diagonalPattern = .ok .SparseCandidate ∧
        ∃ row < 1, diagonalPattern.straysAt row = true) :=
  solvers_agree_iff le_rfl holdsSystem_one (by decide) rfl rfl (by
    intro row hrow col hcol hcontains
    obtain rfl : row = 0 := by omega
    obtain rfl : col = 0 := by omega
    cases hcontains)

def straySegment : PatternSegment where
  rows := .Strided 0 [0] [1]
  pattern :=
    { rows := 0
      columns := 17
      representation := .Csr [0] []
      rows_u32 := by decide
      valid := by rfl }

def strayPattern : StructuralPattern where
  rows := 17
  columns := 17
  representation := .Stacked [straySegment]
  rows_u32 := by decide
  valid := ⟨List.replicate 17 false, by rfl⟩

theorem holdsSystem_stray : HoldsSystem (List.replicate 306 (0 : ℚ)) (List.replicate 306 true) 0 289 17 where
  registers := by rw [List.length_replicate]; decide
  matrix_le := by rw [List.length_replicate]; decide
  rhs_le := by rw [List.length_replicate]
  matrix_initialized := fun i hi => by
    rw [List.getD_eq_getElem?_getD, List.getElem?_replicate, if_pos (by omega)]
    rfl
  rhs_initialized := fun i hi => by
    rw [List.getD_eq_getElem?_getD, List.getElem?_replicate, if_pos (by omega)]
    rfl

/-- On a matrix of zeros the sparse kernel fails, where the elimination calls the matrix singular. -/
theorem not_solversAgree_stray :
    HoldsSystem (List.replicate 306 (0 : ℚ)) (List.replicate 306 true) 0 289 17 ∧
      ZeroOutside (List.replicate 306 (0 : ℚ)) 0 17 strayPattern ∧
      ¬SolversAgree (List.replicate 306 (0 : ℚ)) (List.replicate 306 true) 0 289 17 strayPattern (List.replicate 17 0) := by
  refine ⟨holdsSystem_stray, fun row _ col _ _ => ?_, ?_⟩
  · rw [coefficient, List.getD_eq_getElem?_getD, List.getElem?_replicate]
    split <;> rfl
  · rintro ⟨kernel, hkernel, hsame, -⟩
    have hsparse : selectLinearSolveKernel 17 strayPattern = .ok .SparseCandidate := by decide +kernel
    obtain rfl := Except.ok.inj (hsparse.symm.trans hkernel)
    rw [holdsSystem_stray.solveAllUnchecked_eq (by decide) (by rw [List.length_replicate])] at hsame
    dsimp only at hsame
    rw [holdsSystem_stray.solveSparseUnchecked_eq_none rfl rfl ⟨0, by decide, by decide⟩] at hsame
    cases hsame

end Rumoca.Eval
