import Mathlib.Data.List.ProdSigma
import Mathlib.Tactic.FieldSimp
import Rumoca.Eval.Reverse
import Rumoca.Lib.Versions
/-!
# Operations under renaming

An operation and its copy over other registers: the operands are the versions
of the operands, the destination is any range of its own. Both write the same
values, and their transposes pass the same contributions on, provided the tape
still holds what the partials read.
-/

namespace Rumoca.Eval

open Solve Lib

section
variable {K : Type}

/-- The registers from `start`, `stride` apart, are versions of those from the other start. -/
def RangeRenamed (ρ : Reg → Option Reg) (start start' : Reg) (count stride : Nat) : Prop :=
  ∀ k < count, ρ (start + k * stride) = some (start' + k * stride)

/-- The same operation with versions as operands and another destination. -/
inductive OpRenamed (ρ : Reg → Option Reg) : LinearOp K → LinearOp K → Prop
  | const (dst dst' : Reg) (value : K) : OpRenamed ρ (.const dst value) (.const dst' value)
  | loadTime (dst dst' : Reg) : OpRenamed ρ (.loadTime dst) (.loadTime dst')
  | loadY (dst dst' : Reg) (index : Nat) : OpRenamed ρ (.loadY dst index) (.loadY dst' index)
  | loadP (dst dst' : Reg) (index : Nat) : OpRenamed ρ (.loadP dst index) (.loadP dst' index)
  | loadIndexedP (dst dst' : Reg) (base count : Nat) {index index' : Reg} (hindex : ρ index = some index') :
      OpRenamed ρ (.loadIndexedP dst base count index) (.loadIndexedP dst' base count index')
  | loadSeed (dst dst' : Reg) (index : Nat) : OpRenamed ρ (.loadSeed dst index) (.loadSeed dst' index)
  | move (dst dst' : Reg) {src src' : Reg} (hsrc : ρ src = some src') : OpRenamed ρ (.move dst src) (.move dst' src')
  | unary (dst dst' : Reg) (op : UnaryOp) {arg arg' : Reg} (harg : ρ arg = some arg') :
      OpRenamed ρ (.unary dst op arg) (.unary dst' op arg')
  | binary (dst dst' : Reg) (op : BinaryOp) {lhs lhs' rhs rhs' : Reg} (hlhs : ρ lhs = some lhs')
      (hrhs : ρ rhs = some rhs') : OpRenamed ρ (.binary dst op lhs rhs) (.binary dst' op lhs' rhs')
  | compare (dst dst' : Reg) (op : CompareOp) {lhs lhs' rhs rhs' : Reg} (hlhs : ρ lhs = some lhs')
      (hrhs : ρ rhs = some rhs') : OpRenamed ρ (.compare dst op lhs rhs) (.compare dst' op lhs' rhs')
  | select (dst dst' : Reg) {cond cond' ifTrue ifTrue' ifFalse ifFalse' : Reg} (hcond : ρ cond = some cond')
      (htrue : ρ ifTrue = some ifTrue') (hfalse : ρ ifFalse = some ifFalse') :
      OpRenamed ρ (.select dst cond ifTrue ifFalse) (.select dst' cond' ifTrue' ifFalse')
  | linearSolveComponent (dst dst' : Reg) {matrix matrix' rhs rhs' : Reg} (n component : Nat)
      (hmatrix : RangeRenamed ρ matrix matrix' (n * n) 1) (hrhs : RangeRenamed ρ rhs rhs' n 1) :
      OpRenamed ρ (.linearSolveComponent dst matrix rhs n component) (.linearSolveComponent dst' matrix' rhs' n component)
  | dotProduct (dst dst' : Reg) {lhs lhs' rhs rhs' : Reg} (count lhsStride rhsStride : Nat)
      (hlhs : RangeRenamed ρ lhs lhs' count lhsStride) (hrhs : RangeRenamed ρ rhs rhs' count rhsStride) :
      OpRenamed ρ (.dotProduct dst lhs rhs count lhsStride rhsStride) (.dotProduct dst' lhs' rhs' count lhsStride rhsStride)
  | matrixMultiply (dst dst' : Reg) {lhs lhs' rhs rhs' : Reg} (rows inner columns : Nat)
      (hlhs : RangeRenamed ρ lhs lhs' (rows * inner) 1) (hrhs : RangeRenamed ρ rhs rhs' (inner * columns) 1) :
      OpRenamed ρ (.matrixMultiply dst lhs rhs rows inner columns 1) (.matrixMultiply dst' lhs' rhs' rows inner columns 1)
  | tensorBinary (dst dst' : Reg) (op : BinaryOp) {lhs lhs' rhs rhs' : Reg} (count lhsStride rhsStride : Nat)
      (hlhs : RangeRenamed ρ lhs lhs' count lhsStride) (hrhs : RangeRenamed ρ rhs rhs' count rhsStride) :
      OpRenamed ρ (.tensorBinary dst op lhs rhs count lhsStride rhsStride 1)
        (.tensorBinary dst' op lhs' rhs' count lhsStride rhsStride 1)
  | tensorTranspose (dst dst' : Reg) {src src' : Reg} (rows columns elementWidth : Nat)
      (hsrc : RangeRenamed ρ src src' (rows * columns * elementWidth) 1) :
      OpRenamed ρ (.tensorTranspose dst src rows columns elementWidth 1)
        (.tensorTranspose dst' src' rows columns elementWidth 1)
  | tensorFill (dst dst' : Reg) {value value' : Reg} (count : Nat) (hvalue : ρ value = some value') :
      OpRenamed ρ (.tensorFill dst value count 1) (.tensorFill dst' value' count 1)
  | tensorIdentity (dst dst' : Reg) (size : Nat) : OpRenamed ρ (.tensorIdentity dst size 1) (.tensorIdentity dst' size 1)
  | tensorLoad (dst dst' : Reg) (input : TensorInputKind) (inputStart count : Nat) :
      OpRenamed ρ (.tensorLoad dst input inputStart count none 1) (.tensorLoad dst' input inputStart count none 1)
  | storeOutput {src src' : Reg} (hsrc : ρ src = some src') : OpRenamed ρ (.storeOutput src) (.storeOutput src')
  | storeOutputRange {start start' : Reg} (count stride : Nat) (hrange : RangeRenamed ρ start start' count stride) :
      OpRenamed ρ (.storeOutputRange start count stride) (.storeOutputRange start' count stride)

/-- `count` registers from `start` on. -/
def registerRange (start : Reg) (count : Nat) : List Reg := (List.range count).map (registerAt start)

def destinations : LinearOp K → List Reg
  | .const dst _ | .loadTime dst | .loadY dst _ | .loadP dst _ | .loadIndexedP dst .. | .loadSeed dst _ | .move dst _
  | .unary dst .. | .binary dst .. | .compare dst .. | .select dst .. | .linearSolveComponent dst ..
  | .dotProduct dst .. => [dst]
  | .matrixMultiply dstStart _ _ rows _ columns _ => registerRange dstStart (rows * columns)
  | .tensorBinary dstStart _ _ _ count _ _ _ | .tensorFill dstStart _ count _ | .tensorLoad dstStart _ _ count _ _ =>
    registerRange dstStart count
  | .tensorTranspose dstStart _ rows columns elementWidth _ => registerRange dstStart (rows * columns * elementWidth)
  | .tensorIdentity dstStart size _ => registerRange dstStart (size * size)
  | _ => []

def leftReads (op : BinaryOp) (lhs rhs : Reg) : List Reg :=
  match op with
  | .add | .sub | .and | .or => []
  | .mul | .div => [rhs]
  | .pow | .atan2 | .min | .max => [lhs, rhs]

def rightReads (op : BinaryOp) (lhs rhs : Reg) : List Reg :=
  match op with
  | .add | .sub | .and | .or => []
  | .mul => [lhs]
  | .div | .pow | .atan2 | .min | .max => [lhs, rhs]

/-- Both operands of a binary operation, each with the registers its partial depends on. -/
def binaryReads (op : BinaryOp) (lhs rhs : Reg) : List (Reg × List Reg) :=
  [(lhs, leftReads op lhs rhs), (rhs, rightReads op lhs rhs)]

/-- Both operands of each term of a dot product, each with the registers its partial depends on. -/
def dotReads (terms : List (Reg × Reg)) : List (Reg × List Reg) :=
  terms.flatMap fun term => [(term.1, [term.2]), (term.2, [term.1])]

def partialReads : LinearOp K → List (Reg × List Reg)
  | .move _ src => [(src, [])]
  | .unary _ op arg => [(arg, if partialIsConstant op then [] else [arg])]
  | .binary _ op lhs rhs => binaryReads op lhs rhs
  | .select _ cond ifTrue ifFalse => [(ifTrue, [cond]), (ifFalse, [cond])]
  | .dotProduct _ lhsStart rhsStart count lhsStride rhsStride =>
    dotReads (dotTerms lhsStart rhsStart count lhsStride rhsStride)
  | .matrixMultiply _ lhsStart rhsStart rows inner columns _ =>
    (List.range rows ×ˢ List.range columns).flatMap fun cell =>
      dotReads (productTerms lhsStart rhsStart inner columns cell.1 cell.2)
  | .tensorBinary _ op lhsStart rhsStart count lhsStride rhsStride _ =>
    (dotTerms lhsStart rhsStart count lhsStride rhsStride).flatMap fun term => binaryReads op term.1 term.2
  | .tensorTranspose _ srcStart rows columns elementWidth _ =>
    (registerRange srcStart (rows * columns * elementWidth)).map fun src => (src, [])
  | .tensorFill _ valueStart _ _ => [(valueStart, [])]
  | _ => []

/-- The registers whose values decide where an adjoint goes, whatever passes it on. -/
def slotReads : LinearOp K → List Reg
  | .loadIndexedP _ _ _ index => [index]
  | .linearSolveComponent _ matrixStart rhsStart n component =>
    if n ≤ component then [] else registerRange matrixStart (n * n) ++ registerRange rhsStart n
  | _ => []

/-- Whether a result depends on an input, when `active` says which registers do. -/
def opActive (active : Reg → Bool) (op : LinearOp K) : Bool :=
  match op with
  | .loadY .. | .loadP .. | .loadIndexedP .. | .loadSeed .. | .tensorLoad .. | .linearSolveComponent .. => true
  | op => (partialReads op).any fun read => active read.1

theorem mem_registerRange {start r : Reg} {count : Nat} : r ∈ registerRange start count ↔ ∃ k < count, start + k = r := by
  simp [registerRange, registerAt]

theorem nodup_registerRange (start : Reg) (count : Nat) : (registerRange start count).Nodup :=
  List.nodup_range.map fun _ _ h => Nat.add_left_cancel h

@[simp] theorem length_registerRange (start : Reg) (count : Nat) : (registerRange start count).length = count := by
  simp [registerRange]

theorem nodup_destinations (op : LinearOp K) : (destinations op).Nodup := by
  unfold destinations
  split <;> first | exact List.nodup_singleton _ | exact nodup_registerRange _ _ | exact List.nodup_nil

theorem OpRenamed.length_eq {ρ : Reg → Option Reg} {op op' : LinearOp K} (h : OpRenamed ρ op op') :
    (destinations op).length = (destinations op').length := by
  cases h <;> simp [destinations]

theorem map_cells (rows columns : Nat) :
    (List.range rows ×ˢ List.range columns).map (fun cell => cell.1 * columns + cell.2) = List.range (rows * columns) := by
  induction rows with
  | zero => simp
  | succ rows ih =>
    have happend : List.range (rows + 1) ×ˢ List.range columns =
        (List.range rows ×ˢ List.range columns) ++ (List.range columns).map (rows, ·) := by
      simp [SProd.sprod, List.product, List.range_succ]
    rw [happend, List.map_append, ih, Nat.succ_mul, List.range_add]
    simp

theorem map_cells_registerAt (start : Reg) (rows columns : Nat) :
    (List.range rows ×ˢ List.range columns).map (fun cell => registerAt start (cell.1 * columns + cell.2)) =
      registerRange start (rows * columns) := by
  rw [registerRange, ← map_cells, List.map_map]
  rfl

theorem mem_cells {rows columns : Nat} {cell : Nat × Nat} :
    cell ∈ List.range rows ×ˢ List.range columns ↔ cell.1 < rows ∧ cell.2 < columns := by
  rw [List.mem_product, List.mem_range, List.mem_range]

theorem transposeSource_lt {rows columns elementWidth index : Nat} (h : index < rows * columns * elementWidth) :
    transposeSource rows columns elementWidth index < rows * columns * elementWidth := by
  have hwidth : 0 < elementWidth := Nat.pos_of_ne_zero fun h0 => by simp [h0] at h
  have helement : index / elementWidth < rows * columns := Nat.div_lt_of_lt_mul (by rwa [Nat.mul_comm])
  have hcolumns : 0 < columns := Nat.pos_of_ne_zero fun h0 => by simp [h0] at helement
  rw [Nat.mul_comm rows columns]
  refine entry_lt (entry_lt (Nat.mod_lt _ hcolumns) ?_) (Nat.mod_lt _ hwidth)
  exact Nat.div_lt_of_lt_mul (by rwa [Nat.mul_comm])

/-! ## The forward pass -/

/-- Both registers are written the same values, each at its own targets. -/
def Wrote (targets targets' : List Reg) (regs regs' after after' : Reg → K) : Prop :=
  ∃ values : List K, values.length = targets.length ∧ after = writes regs targets values ∧
    after' = writes regs' targets' values

theorem wrote_one (dst dst' : Reg) (regs regs' : Reg → K) {v v' : K} (h : v = v') :
    Wrote [dst] [dst'] regs regs' (Function.update regs dst v) (Function.update regs' dst' v') :=
  ⟨[v], rfl, rfl, h ▸ rfl⟩

theorem wrote_none (regs regs' : Reg → K) : Wrote [] [] regs regs' regs regs' := ⟨[], rfl, rfl, rfl⟩

theorem wrote_result (x : Except EvalSolveError K) (dst dst' : Reg) (regs regs' : Reg → K) :
    Outcomes (Wrote [dst] [dst'] regs regs') (do
        let value ← x
        pure (Function.update regs dst value)) (do
        let value ← x
        pure (Function.update regs' dst' value)) := by
  cases x with
  | error e => rfl
  | ok v => exact wrote_one dst dst' regs regs' rfl

theorem wrote_loop {α : Type} (xs : List α) (target target' : α → Reg) (value value' : (Reg → K) → α → K)
    (regs regs' : Reg → K) (hvalue : ∀ x ∈ xs, value regs x = value' regs' x)
    (hclear : ∀ s s' : Reg → K, (∀ r, (∀ x ∈ xs, target x ≠ r) → s r = s' r) → ∀ x ∈ xs, value s x = value s' x)
    (hclear' : ∀ s s' : Reg → K, (∀ r, (∀ x ∈ xs, target' x ≠ r) → s r = s' r) → ∀ x ∈ xs, value' s x = value' s' x) :
    Wrote (xs.map target) (xs.map target') regs regs'
      (xs.foldl (fun s x => Function.update s (target x) (value s x)) regs)
      (xs.foldl (fun s x => Function.update s (target' x) (value' s x)) regs') := by
  refine ⟨xs.map (value regs), by simp, foldl_writes hclear regs, ?_⟩
  rw [foldl_writes hclear' regs', List.map_congr_left hvalue]

/-- `wrote_loop` over the cells of a matrix. -/
theorem wrote_cells (dst dst' : Reg) (rows columns : Nat) (value value' : (Reg → K) → Nat × Nat → K)
    (regs regs' : Reg → K) (hvalue : ∀ cell, cell.1 < rows → cell.2 < columns → value regs cell = value' regs' cell)
    (hclear : ∀ s s' : Reg → K, (∀ r, (∀ k < rows * columns, registerAt dst k ≠ r) → s r = s' r) →
      ∀ cell, cell.1 < rows → cell.2 < columns → value s cell = value s' cell)
    (hclear' : ∀ s s' : Reg → K, (∀ r, (∀ k < rows * columns, registerAt dst' k ≠ r) → s r = s' r) →
      ∀ cell, cell.1 < rows → cell.2 < columns → value' s cell = value' s' cell) :
    Wrote (registerRange dst (rows * columns)) (registerRange dst' (rows * columns)) regs regs'
      ((List.range rows ×ˢ List.range columns).foldl (fun s cell =>
        Function.update s (registerAt dst (cell.1 * columns + cell.2)) (value s cell)) regs)
      ((List.range rows ×ˢ List.range columns).foldl (fun s cell =>
        Function.update s (registerAt dst' (cell.1 * columns + cell.2)) (value' s cell)) regs') := by
  have hcells : ∀ {d : Reg} {s s' : Reg → K},
      (∀ r, (∀ cell ∈ List.range rows ×ˢ List.range columns, registerAt d (cell.1 * columns + cell.2) ≠ r) → s r = s' r) →
      ∀ r, (∀ k < rows * columns, registerAt d k ≠ r) → s r = s' r := fun hs r hr =>
    hs r fun cell hcell => hr _ (entry_lt (mem_cells.1 hcell).1 (mem_cells.1 hcell).2)
  have h := wrote_loop (List.range rows ×ˢ List.range columns) (fun cell => registerAt dst (cell.1 * columns + cell.2))
    (fun cell => registerAt dst' (cell.1 * columns + cell.2)) value value' regs regs'
    (fun cell hcell => hvalue cell (mem_cells.1 hcell).1 (mem_cells.1 hcell).2)
    (fun s s' hs cell hcell => hclear s s' (hcells hs) cell (mem_cells.1 hcell).1 (mem_cells.1 hcell).2)
    fun s s' hs cell hcell => hclear' s s' (hcells hs) cell (mem_cells.1 hcell).1 (mem_cells.1 hcell).2
  rwa [map_cells_registerAt, map_cells_registerAt] at h

theorem wrote_loads (load : Nat → Except EvalSolveError K) (xs : List Nat) (target target' : Nat → Reg)
    (regs regs' : Reg → K) :
    Outcomes (Wrote (xs.map target) (xs.map target') regs regs')
      (xs.foldlM (fun s x => do
        let value ← load x
        pure (Function.update s (target x) value)) regs)
      (xs.foldlM (fun s x => do
        let value ← load x
        pure (Function.update s (target' x) value)) regs') := by
  induction xs generalizing regs regs' with
  | nil => exact wrote_none regs regs'
  | cons x xs ih =>
    simp only [List.foldlM_cons]
    refine Outcomes.bind (R := fun s s' => ∃ v, s = Function.update regs (target x) v ∧
      s' = Function.update regs' (target' x) v) ?_ ?_
    · cases load x with
      | error e => rfl
      | ok v => exact ⟨v, rfl, rfl⟩
    · rintro s s' - - ⟨v, rfl, rfl⟩
      refine (ih _ _).mono ?_
      rintro after after' ⟨values, hlen, rfl, rfl⟩
      exact ⟨v :: values, by simp [hlen], rfl, rfl⟩

theorem not_overlap {dst src a b : Reg} {n m : Nat} (h : overlap (dst, n) (src, m) = false) (ha : a < n) (hb : b < m) :
    registerAt dst a ≠ registerAt src b := by
  simp only [overlap, decide_eq_false_iff_not, not_and, not_lt] at h
  unfold registerAt
  unfold Reg at *
  omega

theorem stride_lt_extent {count stride k : Nat} (hk : k < count) : k * stride < extent count stride := by
  unfold extent
  split
  · next h => simp [h]
  · exact Nat.lt_succ_of_le (Nat.mul_le_mul_right _ (Nat.le_sub_one_of_lt hk))

theorem sumTerms_congr [Field K] {regs regs' : Reg → K} {terms terms' : List (Reg × Reg)}
    (h : List.Forall₂ (fun t t' => regs t.1 = regs' t'.1 ∧ regs t.2 = regs' t'.2) terms terms') :
    sumTerms regs terms = sumTerms regs' terms' := by
  unfold sumTerms
  generalize (0 : K) = start
  induction h generalizing start with
  | nil => rfl
  | cons ht _ ih => rw [List.foldl_cons, List.foldl_cons, ht.1, ht.2, ih]

variable {ρ : Reg → Option Reg} {op op' : LinearOp K} {regs regs' : Reg → K}

theorem RangeRenamed.value_eq {start start' : Reg} {count stride k : Nat}
    (h : RangeRenamed ρ start start' count stride) (hagree : AgreesAlong ρ regs regs') (hk : k < count) :
    regs (registerAt start (k * stride)) = regs' (registerAt start' (k * stride)) := (hagree _ _ (h k hk)).symm

theorem RangeRenamed.one {start start' : Reg} {count k : Nat} (h : RangeRenamed ρ start start' count 1) (hk : k < count) :
    ρ (registerAt start k) = some (registerAt start' k) := by
  simpa [registerAt] using h k hk

section
variable [Field K] [LinearOrder K] (E : Elementary K)

theorem forwardOp_tensor (h : tensorSupported op = true) (hover : overlapping op = false) (inputs : ReverseInputs K) :
    forwardOp E inputs regs op = forwardTensor E inputs regs op := by
  unfold forwardOp
  split
  case h_15 => rw [if_pos h, hover]; rfl
  all_goals cases h

theorem forwardOp_renamed (h : OpRenamed ρ op op') (hagree : AgreesAlong ρ regs regs') (hover : overlapping op = false)
    (hover' : overlapping op' = false) (inputs : ReverseInputs K) :
    Outcomes (Wrote (destinations op) (destinations op') regs regs') (forwardOp E inputs regs op)
      (forwardOp E inputs regs' op') := by
  cases h with
  | const dst dst' value => exact wrote_one dst dst' regs regs' rfl
  | loadTime dst dst' => exact wrote_one dst dst' regs regs' rfl
  | loadY dst dst' index => exact wrote_result _ dst dst' regs regs'
  | loadP dst dst' index => exact wrote_result _ dst dst' regs regs'
  | loadIndexedP dst dst' base count hindex =>
    simp only [forwardOp, hagree _ _ hindex]
    exact wrote_result _ dst dst' regs regs'
  | loadSeed dst dst' index =>
    simp only [forwardOp]
    cases inputs.seed with
    | none => rfl
    | some seed => exact wrote_result _ dst dst' regs regs'
  | move dst dst' hsrc => exact wrote_one dst dst' regs regs' (hagree _ _ hsrc).symm
  | unary dst dst' op harg => exact wrote_one dst dst' regs regs' (by rw [hagree _ _ harg])
  | binary dst dst' op hlhs hrhs => exact wrote_one dst dst' regs regs' (by rw [hagree _ _ hlhs, hagree _ _ hrhs])
  | compare dst dst' op hlhs hrhs => exact wrote_one dst dst' regs regs' (by rw [hagree _ _ hlhs, hagree _ _ hrhs])
  | select dst dst' hcond htrue hfalse =>
    exact wrote_one dst dst' regs regs' (by rw [hagree _ _ hcond, hagree _ _ htrue, hagree _ _ hfalse])
  | @linearSolveComponent dst dst' matrix matrix' rhs rhs' n component hmatrix hrhs =>
    have hsolve : solveLinearSystem (fun k => regs (matrix + k)) (fun k => regs (rhs + k)) n =
        solveLinearSystem (fun k => regs' (matrix' + k)) (fun k => regs' (rhs' + k)) n :=
      solveLinearSystem_congr (fun k hk => (hagree _ _ (hmatrix.one hk)).symm) fun k hk => (hagree _ _ (hrhs.one hk)).symm
    simp only [forwardOp, hsolve]
    cases solveLinearSystem (fun k => regs' (matrix' + k)) (fun k => regs' (rhs' + k)) n with
    | error e => rfl
    | ok solution => exact wrote_one dst dst' regs regs' rfl
  | @dotProduct dst dst' lhs lhs' rhs rhs' count lhsStride rhsStride hlhs hrhs =>
    refine wrote_one dst dst' regs regs' (sumTerms_congr ?_)
    refine List.forall₂_map_left_iff.2 (List.forall₂_map_right_iff.2 (List.forall₂_same.2 fun k hk => ?_))
    exact ⟨hlhs.value_eq hagree (List.mem_range.1 hk), hrhs.value_eq hagree (List.mem_range.1 hk)⟩
  | @matrixMultiply dst dst' lhs lhs' rhs rhs' rows inner columns hlhs hrhs =>
    rw [forwardOp_tensor E rfl hover, forwardOp_tensor E rfl hover']
    simp only [overlapping, Bool.or_eq_false_iff] at hover hover'
    have hclear : ∀ {d l m : Nat}, overlap (d, rows * columns) (l, m) = false → ∀ {s s' : Reg → K},
        (∀ r, (∀ k < rows * columns, registerAt d k ≠ r) → s r = s' r) →
        ∀ {k}, k < m → s (registerAt l k) = s' (registerAt l k) :=
      fun ho _ _ hs k hk => hs _ fun _ hcell => not_overlap ho hcell hk
    have hterms : ∀ {s s' : Reg → K} {l l' r r' row column : Nat},
        (∀ term < inner, s (registerAt l (row * inner + term)) = s' (registerAt l' (row * inner + term))) →
        (∀ term < inner, s (registerAt r (term * columns + column)) = s' (registerAt r' (term * columns + column))) →
        sumTerms s (productTerms l r inner columns row column) = sumTerms s' (productTerms l' r' inner columns row column) :=
      fun hl hr => sumTerms_congr (List.forall₂_map_left_iff.2 (List.forall₂_map_right_iff.2
        (List.forall₂_same.2 fun term hterm => ⟨hl term (List.mem_range.1 hterm), hr term (List.mem_range.1 hterm)⟩)))
    refine wrote_cells dst dst' rows columns
      (fun s cell => sumTerms s (productTerms lhs rhs inner columns cell.1 cell.2))
      (fun s cell => sumTerms s (productTerms lhs' rhs' inner columns cell.1 cell.2)) regs regs'
      (fun cell hrow hcol => ?_) (fun s s' hs cell hrow hcol => ?_) fun s s' hs cell hrow hcol => ?_
    · exact hterms (fun term hterm => (hagree _ _ (hlhs.one (entry_lt hrow hterm))).symm)
        fun term hterm => (hagree _ _ (hrhs.one (entry_lt hterm hcol))).symm
    · exact hterms (fun term hterm => hclear hover.1 hs (entry_lt hrow hterm))
        fun term hterm => hclear hover.2 hs (entry_lt hterm hcol)
    · exact hterms (fun term hterm => hclear hover'.1 hs (entry_lt hrow hterm))
        fun term hterm => hclear hover'.2 hs (entry_lt hterm hcol)
  | @tensorBinary dst dst' op lhs lhs' rhs rhs' count lhsStride rhsStride hlhs hrhs =>
    rw [forwardOp_tensor E rfl hover, forwardOp_tensor E rfl hover']
    simp only [overlapping, Bool.or_eq_false_iff] at hover hover'
    have hclear : ∀ {d l stride : Nat}, overlap (d, count) (l, extent count stride) = false →
        ∀ {s s' : Reg → K}, (∀ r, (∀ x ∈ List.range count, registerAt d x ≠ r) → s r = s' r) →
        ∀ {e}, e < count → s (registerAt l (e * stride)) = s' (registerAt l (e * stride)) :=
      fun ho _ _ hs e he => hs _ fun x hx => not_overlap ho (List.mem_range.1 hx) (stride_lt_extent he)
    refine wrote_loop (List.range count) (registerAt dst) (registerAt dst')
      (fun s e => evalBinary E op (s (registerAt lhs (e * lhsStride))) (s (registerAt rhs (e * rhsStride))))
      (fun s e => evalBinary E op (s (registerAt lhs' (e * lhsStride))) (s (registerAt rhs' (e * rhsStride)))) regs regs'
      (fun e he => ?_) (fun s s' hs e he => ?_) fun s s' hs e he => ?_ <;> rw [List.mem_range] at he
    · rw [hlhs.value_eq hagree he, hrhs.value_eq hagree he]
    · rw [hclear hover.1 hs he, hclear hover.2 hs he]
    · rw [hclear hover'.1 hs he, hclear hover'.2 hs he]
  | @tensorTranspose dst dst' src src' rows columns elementWidth hsrc =>
    rw [forwardOp_tensor E rfl hover, forwardOp_tensor E rfl hover']
    simp only [forwardTensor, transposePairs, List.foldl_map]
    refine wrote_loop (List.range (rows * columns * elementWidth)) (registerAt dst) (registerAt dst')
      (fun s index => s (registerAt src (transposeSource rows columns elementWidth index)))
      (fun s index => s (registerAt src' (transposeSource rows columns elementWidth index))) regs regs'
      (fun index hindex => ?_) (fun s s' hs index hindex => ?_) fun s s' hs index hindex => ?_ <;>
      have hlt := transposeSource_lt (List.mem_range.1 hindex)
    · exact (hagree _ _ (hsrc.one hlt)).symm
    · exact hs _ fun x hx => not_overlap hover (List.mem_range.1 hx) hlt
    · exact hs _ fun x hx => not_overlap hover' (List.mem_range.1 hx) hlt
  | @tensorFill dst dst' value value' count hvalue =>
    rw [forwardOp_tensor E rfl hover, forwardOp_tensor E rfl hover']
    exact wrote_loop (List.range count) (registerAt dst) (registerAt dst') (fun _ _ => regs value)
      (fun _ _ => regs' value') regs regs' (fun _ _ => (hagree _ _ hvalue).symm) (fun _ _ _ _ _ => rfl)
      fun _ _ _ _ _ => rfl
  | tensorIdentity dst dst' size =>
    exact wrote_cells dst dst' size size (fun _ cell => if cell.1 = cell.2 then 1 else 0)
      (fun _ cell => if cell.1 = cell.2 then 1 else 0) regs regs' (fun _ _ _ => rfl) (fun _ _ _ _ _ _ => rfl)
      fun _ _ _ _ _ _ => rfl
  | tensorLoad dst dst' input inputStart count =>
    exact wrote_loads (fun element => loadInput (inputSpace inputs input).1 (inputSpace inputs input).2 (inputStart + element))
      (List.range count) (registerAt dst) (registerAt dst') regs regs'
  | storeOutput hsrc => exact wrote_none regs regs'
  | storeOutputRange count stride hrange => exact wrote_none regs regs'

/-! ## The backward pass -/

/-- Both give up the adjoints of their targets and pass on contributions, the same to the active operands. -/
def Passed (ρ : Reg → Option Reg) (active : Reg → Bool) (targets targets' : List Reg) (s s' t t' : Adjoints K) : Prop :=
  ∃ l l', Moved ρ (active ·) l l' ∧ t.adj = scatter (consume s.adj targets) l ∧ t'.adj = scatter (consume s'.adj targets') l' ∧
    t.cot = t'.cot

omit [LinearOrder K] in
theorem moved_dot {active : Reg → Bool} {tape tape' : Reg → K} {g g' : K} {terms terms' : List (Reg × Reg)}
    (h : List.Forall₂ (fun t t' => ρ t.1 = some t'.1 ∧ ρ t.2 = some t'.2) terms terms')
    (hg : ∀ read ∈ dotReads terms, active read.1 = true → g = g')
    (htape : ∀ read ∈ dotReads terms, active read.1 = true → ∀ r ∈ read.2, ∀ v, ρ r = some v → tape' v = tape r) :
    Moved ρ (active ·) (dotContributions tape g terms) (dotContributions tape' g' terms') := by
  unfold dotContributions
  induction h with
  | nil => exact .nil
  | @cons t t' terms terms' ht _ ih =>
    have hmem : ∀ read ∈ [(t.1, [t.2]), (t.2, [t.1])], read ∈ dotReads (t :: terms) := fun read hr =>
      List.mem_flatMap.2 ⟨t, by simp, hr⟩
    have hrest : ∀ read ∈ dotReads terms, read ∈ dotReads (t :: terms) := fun read hr => by
      rw [dotReads, List.flatMap_cons]
      exact List.mem_append_right _ hr
    rw [List.flatMap_cons, List.flatMap_cons]
    refine .cons ⟨ht.1, fun ha => ?_⟩ (.cons ⟨ht.2, fun ha => ?_⟩
      (ih (fun read hr => hg read (hrest read hr)) fun read hr => htape read (hrest read hr)))
    · have hread := hmem (t.1, [t.2]) (by simp)
      rw [hg _ hread ha, htape _ hread ha t.2 (by simp) _ ht.2]
    · have hread := hmem (t.2, [t.1]) (by simp)
      rw [hg _ hread ha, htape _ hread ha t.1 (by simp) _ ht.1]

theorem binaryPartials_fst {tape tape' : Reg → K} {op : BinaryOp} {lhs lhs' rhs rhs' : Reg} (hlhs : ρ lhs = some lhs')
    (hrhs : ρ rhs = some rhs') (h : ∀ r ∈ leftReads op lhs rhs, ∀ v, ρ r = some v → tape' v = tape r) :
    (binaryPartials E op (tape lhs) (tape rhs)).1 = (binaryPartials E op (tape' lhs') (tape' rhs')).1 := by
  cases op <;> simp only [leftReads, List.forall_mem_cons, hlhs, hrhs, Option.some.injEq, forall_eq'] at h <;>
    simp only [binaryPartials, h]

theorem binaryPartials_snd {tape tape' : Reg → K} {op : BinaryOp} {lhs lhs' rhs rhs' : Reg} (hlhs : ρ lhs = some lhs')
    (hrhs : ρ rhs = some rhs') (h : ∀ r ∈ rightReads op lhs rhs, ∀ v, ρ r = some v → tape' v = tape r) :
    (binaryPartials E op (tape lhs) (tape rhs)).2 = (binaryPartials E op (tape' lhs') (tape' rhs')).2 := by
  cases op <;> simp only [rightReads, List.forall_mem_cons, hlhs, hrhs, Option.some.injEq, forall_eq'] at h <;>
    simp only [binaryPartials, h]

theorem moved_binary {active : Reg → Bool} {tape tape' : Reg → K} {g g' : K} {op : BinaryOp} {lhs lhs' rhs rhs' : Reg}
    (hlhs : ρ lhs = some lhs') (hrhs : ρ rhs = some rhs')
    (hg : ∀ read ∈ binaryReads op lhs rhs, active read.1 = true → g = g')
    (htape : ∀ read ∈ binaryReads op lhs rhs, active read.1 = true → ∀ r ∈ read.2, ∀ v, ρ r = some v → tape' v = tape r) :
    Moved ρ (active ·) [(lhs, g * (binaryPartials E op (tape lhs) (tape rhs)).1),
        (rhs, g * (binaryPartials E op (tape lhs) (tape rhs)).2)]
      [(lhs', g' * (binaryPartials E op (tape' lhs') (tape' rhs')).1),
        (rhs', g' * (binaryPartials E op (tape' lhs') (tape' rhs')).2)] := by
  simp only [binaryReads, List.forall_mem_cons] at hg htape
  refine .cons ⟨hlhs, fun ha => ?_⟩ (.cons ⟨hrhs, fun ha => ?_⟩ .nil)
  · rw [hg.1 ha, binaryPartials_fst E hlhs hrhs (htape.1 ha)]
  · rw [hg.2.1 ha, binaryPartials_snd E hlhs hrhs (htape.2.1 ha)]

omit [LinearOrder K] in
theorem dotContributions_zero {tape : Reg → K} {terms : List (Reg × Reg)} :
    ∀ c ∈ dotContributions tape 0 terms, c.2 = 0 := by
  simp only [dotContributions, zero_mul, List.mem_flatMap, List.mem_cons, List.not_mem_nil, or_false]
  rintro c ⟨term, -, rfl | rfl⟩ <;> rfl

theorem passOn_spec (s : Adjoints K) (dst : Reg) {g : K} (operands : List Reg) {contributions : List (Reg × K)}
    (hzero : g = 0 → ∀ c ∈ contributions, c.2 = 0) :
    (passOn s dst g operands contributions).adj = scatter s.adj contributions ∧
      (passOn s dst g operands contributions).cot = s.cot := by
  unfold passOn skipsUntaken
  by_cases hg : g = 0
  · rw [if_pos hg]
    cases s.untaken dst with
    | true => exact ⟨(scatter_zero (hzero hg)).symm, rfl⟩
    | false => exact ⟨rfl, rfl⟩
  · rw [if_neg hg]
    exact ⟨rfl, rfl⟩

theorem foldl_passOn {α : Type} (xs : List α) (dst : α → Reg) (g : α → K) (operands : α → List Reg)
    (contributions : α → List (Reg × K)) (hzero : ∀ x ∈ xs, g x = 0 → ∀ c ∈ contributions x, c.2 = 0)
    (s : Adjoints K) :
    (xs.foldl (fun s x => passOn s (dst x) (g x) (operands x) (contributions x)) s).adj =
        scatter s.adj (xs.flatMap contributions) ∧
      (xs.foldl (fun s x => passOn s (dst x) (g x) (operands x) (contributions x)) s).cot = s.cot := by
  induction xs generalizing s with
  | nil => exact ⟨rfl, rfl⟩
  | cons x xs ih =>
    obtain ⟨hadj, hcot⟩ := passOn_spec s (dst x) (operands x) (hzero x (by simp))
    obtain ⟨hadj', hcot'⟩ := ih (fun y hy => hzero y (by simp [hy])) (passOn s (dst x) (g x) (operands x) (contributions x))
    rw [List.foldl_cons, List.flatMap_cons, scatter_append]
    exact ⟨hadj'.trans (by rw [hadj]), hcot'.trans hcot⟩

theorem foldl_copies {xs : List Nat} {target : Nat → Reg} (source : Nat → Reg) (hnodup : (xs.map target).Nodup)
    (hclear : ∀ x ∈ xs, ∀ y ∈ xs, source x ≠ target y) (s : Adjoints K) :
    (xs.foldl (fun (s : Adjoints K) x => passOn { s with adj := Function.update s.adj (target x) 0 } (target x) (s.adj (target x))
        [source x] [(source x, s.adj (target x))]) s).adj =
        scatter (consume s.adj (xs.map target)) (xs.flatMap fun x => [(source x, s.adj (target x))]) ∧
      (xs.foldl (fun (s : Adjoints K) x => passOn { s with adj := Function.update s.adj (target x) 0 } (target x) (s.adj (target x))
        [source x] [(source x, s.adj (target x))]) s).cot = s.cot := by
  have hpass : ∀ (s : Adjoints K) (x : Nat), _ := fun s x =>
    passOn_spec { s with adj := Function.update s.adj (target x) 0 } (target x) [source x]
      (show s.adj (target x) = 0 → ∀ c ∈ [(source x, s.adj (target x))], c.2 = 0 by simp)
  rw [← foldl_take_scatter (fun x k => [(source x, k)]) hnodup (by simpa using hclear)]
  clear hnodup hclear
  induction xs generalizing s with
  | nil => exact ⟨rfl, rfl⟩
  | cons x xs ih =>
    obtain ⟨hadj, hcot⟩ := ih (passOn { s with adj := Function.update s.adj (target x) 0 } (target x)
      (s.adj (target x)) [source x] [(source x, s.adj (target x))])
    rw [List.foldl_cons, List.foldl_cons]
    exact ⟨hadj.trans (by rw [(hpass s x).1]), hcot.trans (hpass s x).2⟩

omit [LinearOrder K] in
/-- Loads: every target gives its adjoint to the cotangents. -/
theorem foldl_loads {xs : List Nat} {target : Nat → Reg} (mark : (Reg → Bool) → Nat → Reg → Bool)
    (add : ReverseCotangents K → Nat → K → ReverseCotangents K) (hnodup : (xs.map target).Nodup) (s : Adjoints K) :
    (xs.foldl (fun s x => (⟨Function.update s.adj (target x) 0, mark s.untaken x, add s.cot x (s.adj (target x))⟩ :
        Adjoints K)) s).adj = consume s.adj (xs.map target) ∧
      (xs.foldl (fun s x => (⟨Function.update s.adj (target x) 0, mark s.untaken x, add s.cot x (s.adj (target x))⟩ :
        Adjoints K)) s).cot = xs.foldl (fun cot x => add cot x (s.adj (target x))) s.cot := by
  induction xs generalizing s with
  | nil => exact ⟨(consume_nil _).symm, rfl⟩
  | cons x xs ih =>
    obtain ⟨hx, hnodup⟩ := List.nodup_cons.mp hnodup
    obtain ⟨hadj, hcot⟩ := ih hnodup ⟨Function.update s.adj (target x) 0, mark s.untaken x, add s.cot x (s.adj (target x))⟩
    rw [List.foldl_cons, List.map_cons, consume_cons, List.foldl_cons]
    refine ⟨hadj, hcot.trans ?_⟩
    apply List.foldl_ext
    intro cot y hy
    have hyx : target y ≠ target x := fun he => hx (he ▸ List.mem_map_of_mem hy)
    show add cot y (Function.update s.adj (target x) 0 (target y)) = add cot y (s.adj (target y))
    rw [Function.update_of_ne hyx]

omit [LinearOrder K] in
theorem takeRange_eq (adj : Reg → K) (start count : Nat) :
    takeRange adj start count = ((registerRange start count).map adj, consume adj (registerRange start count)) := by
  unfold takeRange registerRange
  induction count with
  | zero => simp
  | succ count ih =>
    have hfresh : registerAt start count ∉ (List.range count).map (registerAt start) := by
      simp [registerAt]
    rw [List.range_succ, List.foldl_append, ih]
    simp only [List.foldl_cons, List.foldl_nil, takeAdj, List.map_append, List.map_cons, List.map_nil]
    congr 1
    · rw [consume, if_neg hfresh]
    · funext r
      by_cases hr : r = registerAt start count
      · subst hr
        simp [consume]
      · simp [consume, hr]

section
variable {active : Reg → Bool} {s s' : Adjoints K} {dst dst' : Reg}

omit [LinearOrder K] in
theorem passed_none (hcot : s.cot = s'.cot) : Passed ρ active [] [] s s' s s' :=
  ⟨[], [], .nil, (consume_nil _).symm, (consume_nil _).symm, hcot⟩

omit [LinearOrder K] in
/-- A destination whose adjoint goes to the cotangents, or nowhere. -/
theorem passed_end {untaken untaken' : Reg → Bool} {cot cot' : ReverseCotangents K} (hcot : cot = cot') :
    Passed ρ active [dst] [dst'] s s' ⟨Function.update s.adj dst 0, untaken, cot⟩
      ⟨Function.update s'.adj dst' 0, untaken', cot'⟩ :=
  ⟨[], [], .nil, (consume_singleton _ _).symm, (consume_singleton _ _).symm, hcot⟩

theorem passed_one (hcot : s.cot = s'.cot) {operands operands' : List Reg} {l l' : List (Reg × K)}
    (hmoved : Moved ρ (active ·) l l') (hzero : s.adj dst = 0 → ∀ c ∈ l, c.2 = 0)
    (hzero' : s'.adj dst' = 0 → ∀ c ∈ l', c.2 = 0) :
    Passed ρ active [dst] [dst'] s s'
      (passOn { s with adj := Function.update s.adj dst 0 } dst (s.adj dst) operands l)
      (passOn { s' with adj := Function.update s'.adj dst' 0 } dst' (s'.adj dst') operands' l') := by
  obtain ⟨hadj, hcot₁⟩ := passOn_spec { s with adj := Function.update s.adj dst 0 } dst operands hzero
  obtain ⟨hadj', hcot₁'⟩ := passOn_spec { s' with adj := Function.update s'.adj dst' 0 } dst' operands' hzero'
  exact ⟨l, l', hmoved, by rw [hadj, consume_singleton], by rw [hadj', consume_singleton],
    hcot₁.trans (hcot.trans hcot₁'.symm)⟩

omit [Field K] [LinearOrder K] in
theorem zipIdx_registerRange (adj : Reg → K) (start count : Nat) :
    ((registerRange start count).map adj).zipIdx = (List.range count).map fun k => (adj (registerAt start k), k) := by
  apply List.ext_getElem (by simp)
  intro k hk hk'
  simp [registerRange]

theorem passed_range {count : Nat} (hcot : s.cot = s'.cot) {operands operands' : K × Nat → List Reg}
    {l l' : K × Nat → List (Reg × K)}
    (hmoved : ∀ k < count, Moved ρ (active ·) (l (s.adj (registerAt dst k), k)) (l' (s'.adj (registerAt dst' k), k)))
    (hzero : ∀ k : Nat, ∀ c ∈ l (0, k), c.2 = 0) (hzero' : ∀ k : Nat, ∀ c ∈ l' (0, k), c.2 = 0) :
    Passed ρ active (registerRange dst count) (registerRange dst' count) s s'
      ((takeRange s.adj dst count).1.zipIdx.foldl (fun s x => passOn s (registerAt dst x.2) x.1 (operands x) (l x))
        { s with adj := (takeRange s.adj dst count).2 })
      ((takeRange s'.adj dst' count).1.zipIdx.foldl (fun s x => passOn s (registerAt dst' x.2) x.1 (operands' x) (l' x))
        { s' with adj := (takeRange s'.adj dst' count).2 }) := by
  rw [takeRange_eq, takeRange_eq, zipIdx_registerRange, zipIdx_registerRange]
  have hdone : ∀ (s : Adjoints K) (start : Reg) (operands : K × Nat → List Reg) (l : K × Nat → List (Reg × K))
      (_ : ∀ k : Nat, ∀ c ∈ l (0, k), c.2 = 0), _ := fun s start operands l hzero =>
    foldl_passOn ((List.range count).map fun k => (s.adj (registerAt start k), k)) (fun x => registerAt start x.2) Prod.fst
      operands l (fun x _ hx => by obtain ⟨g, k⟩ := x; subst hx; exact hzero k)
      { s with adj := consume s.adj (registerRange start count) }
  obtain ⟨hadj, hcot₁⟩ := hdone s dst operands l hzero
  obtain ⟨hadj', hcot₁'⟩ := hdone s' dst' operands' l' hzero'
  refine ⟨_, _, ?_, hadj, hadj', hcot₁.trans (hcot.trans hcot₁'.symm)⟩
  rw [List.flatMap_map, List.flatMap_map]
  exact moved_flatMap fun k hk => hmoved k (List.mem_range.1 hk)

theorem passed_copies {count : Nat} {source source' : Nat → Reg} (hcot : s.cot = s'.cot)
    (hg : ∀ k < count, active (source k) = true → s.adj (registerAt dst k) = s'.adj (registerAt dst' k))
    (hsource : ∀ k < count, ρ (source k) = some (source' k))
    (hclear : ∀ k < count, ∀ j < count, source k ≠ registerAt dst j)
    (hclear' : ∀ k < count, ∀ j < count, source' k ≠ registerAt dst' j) :
    Passed ρ active (registerRange dst count) (registerRange dst' count) s s'
      ((List.range count).foldl (fun (s : Adjoints K) k =>
        passOn { s with adj := Function.update s.adj (registerAt dst k) 0 } (registerAt dst k)
          (s.adj (registerAt dst k)) [source k] [(source k, s.adj (registerAt dst k))]) s)
      ((List.range count).foldl (fun (s : Adjoints K) k =>
        passOn { s with adj := Function.update s.adj (registerAt dst' k) 0 } (registerAt dst' k)
          (s.adj (registerAt dst' k)) [source' k] [(source' k, s.adj (registerAt dst' k))]) s') := by
  obtain ⟨hadj, hcot₁⟩ := foldl_copies source (nodup_registerRange dst count)
    (fun k hk j hj => hclear k (List.mem_range.1 hk) j (List.mem_range.1 hj)) s
  obtain ⟨hadj', hcot₁'⟩ := foldl_copies source' (nodup_registerRange dst' count)
    (fun k hk j hj => hclear' k (List.mem_range.1 hk) j (List.mem_range.1 hj)) s'
  exact ⟨_, _, moved_flatMap fun k hk => .cons ⟨hsource k (List.mem_range.1 hk), hg k (List.mem_range.1 hk)⟩ .nil,
    hadj, hadj', hcot₁.trans (hcot.trans hcot₁'.symm)⟩

omit [LinearOrder K] in
/-- A range of destinations whose adjoints go to the cotangents. -/
theorem passed_loads {count : Nat} (mark mark' : (Reg → Bool) → Nat → Reg → Bool)
    (add : ReverseCotangents K → Nat → K → ReverseCotangents K) (hcot : s.cot = s'.cot)
    (hg : ∀ k < count, ∀ cot, add cot k (s.adj (registerAt dst k)) = add cot k (s'.adj (registerAt dst' k))) :
    Passed ρ active (registerRange dst count) (registerRange dst' count) s s'
      ((List.range count).foldl (fun s k => (⟨Function.update s.adj (registerAt dst k) 0, mark s.untaken k,
        add s.cot k (s.adj (registerAt dst k))⟩ : Adjoints K)) s)
      ((List.range count).foldl (fun s k => (⟨Function.update s.adj (registerAt dst' k) 0, mark' s.untaken k,
        add s.cot k (s.adj (registerAt dst' k))⟩ : Adjoints K)) s') := by
  obtain ⟨hadj, hcot₁⟩ := foldl_loads mark add (nodup_registerRange dst count) s
  obtain ⟨hadj', hcot₁'⟩ := foldl_loads mark' add (nodup_registerRange dst' count) s'
  refine ⟨[], [], .nil, hadj, hadj', hcot₁.trans (Eq.trans ?_ hcot₁'.symm)⟩
  rw [hcot]
  exact List.foldl_ext _ _ _ fun cot k hk => hg k (List.mem_range.1 hk) cot

end

/-- The tape still holds what the partials of an operation read, where an active operand is passed an adjoint. -/
structure TapeKeeps (ρ : Reg → Option Reg) (active : Reg → Bool) (tape tape' : Reg → K) (op : LinearOp K) : Prop where
  reads : ∀ read ∈ partialReads op, active read.1 = true → ∀ r ∈ read.2, ∀ v, ρ r = some v → tape' v = tape r
  slots : ∀ r ∈ slotReads op, ∀ v, ρ r = some v → tape' v = tape r

/-- What a selection passes to its two arms: the adjoint to the one taken, nothing to the other. -/
def armContributions (cond g : K) (ifTrue ifFalse : Reg) : List (Reg × K) :=
  [(ifTrue, if cond ≠ 0 then g else 0), (ifFalse, if cond ≠ 0 then 0 else g)]

theorem scatter_armContributions (adj : Reg → K) (cond g : K) (ifTrue ifFalse : Reg) :
    scatter adj (armContributions cond g ifTrue ifFalse) = addAdj adj (if cond ≠ 0 then ifTrue else ifFalse) g := by
  unfold armContributions addAdj
  by_cases hc : cond ≠ 0
  · simp only [if_pos hc, scatter_cons, scatter_nil, add_zero, Function.update_eq_self]
  · simp only [if_neg hc, scatter_cons, scatter_nil, add_zero, Function.update_eq_self]

theorem reverseOp_select (tape : Reg → K) (s : Adjoints K) (dst cond ifTrue ifFalse : Reg) :
    reverseOp E tape s (.select dst cond ifTrue ifFalse) =
      .ok ⟨addAdj (Function.update s.adj dst 0) (if tape cond ≠ 0 then ifTrue else ifFalse) (s.adj dst),
        Function.update s.untaken (if tape cond ≠ 0 then ifFalse else ifTrue) true, s.cot⟩ := by
  simp only [reverseOp, takeAdj]
  split <;> rfl

theorem length_of_solveLinearSystem {matrix rhs : Nat → K} {n : Nat} {x : List K}
    (h : solveLinearSystem matrix rhs n = .ok x) : x.length = n := by
  unfold solveLinearSystem at h
  split at h
  · next hn =>
    cases h
    exact hn.symm
  · split at h
    · cases h
    · cases h
      simp

theorem linearSolveContributions_renamed {tape tape' : Reg → K} {matrix matrix' rhs rhs' dst : Reg} {n component : Nat}
    (hmatrix : RangeRenamed ρ matrix matrix' (n * n) 1) (hrhs : RangeRenamed ρ rhs rhs' n 1)
    (htape : ∀ r ∈ slotReads (.linearSolveComponent dst matrix rhs n component : LinearOp K), ∀ v, ρ r = some v →
      tape' v = tape r) (active : Reg → Bool) (g : K) :
    Outcomes (Moved ρ (active ·)) (linearSolveContributions tape matrix rhs n component g)
      (linearSolveContributions tape' matrix' rhs' n component g) := by
  unfold linearSolveContributions
  split
  · exact .nil
  · next hlive =>
    rw [not_or, not_or, not_le] at hlive
    obtain ⟨-, hcomponent, -⟩ := hlive
    have hm : ∀ k < n * n, tape (registerAt matrix k) = tape' (registerAt matrix' k) := fun k hk =>
      (htape _ (by simp [slotReads, not_le.2 hcomponent, mem_registerRange, registerAt, hk]) _ (hmatrix.one hk)).symm
    have hr : ∀ k < n, tape (registerAt rhs k) = tape' (registerAt rhs' k) := fun k hk =>
      (htape _ (by simp [slotReads, not_le.2 hcomponent, mem_registerRange, registerAt, hk]) _ (hrhs.one hk)).symm
    refine Outcomes.bind (Outcomes.of_eq (solveLinearSystem_congr hm hr)) ?_
    rintro x _ hx - rfl
    have hmu : ∀ i < n, ∀ j ≤ n,
        (if j = n then if i = component then g else 0 else tape (matrix + (j * n + i))) =
          if j = n then if i = component then g else 0 else tape' (matrix' + (j * n + i)) := by
      intro i hi j hj
      split
      · rfl
      · next hne => exact hm _ (entry_lt (lt_of_le_of_ne hj hne) hi)
    rw [AugmentedMatrix.ofEntries_congr hmu]
    cases gaussianEliminate (AugmentedMatrix.ofEntries n fun i j =>
        if j = n then if i = component then g else 0 else tape' (matrix' + (j * n + i))) with
    | none => rfl
    | some transposed =>
      refine (moved_flatMap fun i hi => ?_ : Moved ρ (active ·) _ _)
      refine .cons ⟨hrhs.one (List.mem_range.1 hi), fun _ => rfl⟩ ?_
      refine List.forall₂_map_left_iff.2 (List.forall₂_map_right_iff.2 (List.forall₂_same.2 fun xj hxj => ⟨?_, fun _ => rfl⟩))
      have hlt := (List.mem_zipIdx hxj).2.1
      rw [Nat.zero_add, length_of_solveLinearSystem hx] at hlt
      exact hmatrix.one (entry_lt (List.mem_range.1 hi) hlt)

theorem reverseOp_renamed {active : Reg → Bool} (h : OpRenamed ρ op op') {tape tape' : Reg → K}
    (htape : TapeKeeps ρ active tape tape' op) (hover : overlapping op = false) (hover' : overlapping op' = false)
    {s s' : Adjoints K}
    (hadj : opActive active op = true → (destinations op').map s'.adj = (destinations op).map s.adj)
    (hcot : s.cot = s'.cot) :
    Outcomes (Passed ρ active (destinations op) (destinations op') s s') (reverseOp E tape s op)
      (reverseOp E tape' s' op') := by
  have hone : ∀ {dst dst' : Reg}, [s'.adj dst'] = [s.adj dst] → s.adj dst = s'.adj dst' := fun h =>
    (List.cons.inj h).1.symm
  have hany : ∀ {reads : List (Reg × List Reg)}, ∀ read ∈ reads, active read.1 = true →
      (reads.any fun read => active read.1) = true := fun read hmem ha => List.any_eq_true.2 ⟨read, hmem, ha⟩
  have hrange : ∀ {dst dst' count : Nat},
      (registerRange dst' count).map s'.adj = (registerRange dst count).map s.adj → ∀ k < count,
      s.adj (registerAt dst k) = s'.adj (registerAt dst' k) := by
    intro dst dst' count h k hk
    rw [registerRange, registerRange, List.map_map, List.map_map] at h
    exact (List.map_inj_left.1 h k (List.mem_range.2 hk)).symm
  cases h with
  | const dst dst' value => exact passed_end hcot
  | loadTime dst dst' => exact passed_end hcot
  | loadY dst dst' index => exact passed_end (by rw [hcot, hone (hadj rfl)])
  | loadP dst dst' index => exact passed_end (by rw [hcot, hone (hadj rfl)])
  | @loadIndexedP dst dst' base count index index' hindex =>
    have hslot : tape' index' = tape index := htape.slots index (by simp [slotReads]) index' hindex
    refine passed_end ?_
    rw [hcot, hone (hadj rfl), hslot]
  | loadSeed dst dst' index => exact passed_end (by rw [hcot, hone (hadj rfl)])
  | @move dst dst' src src' hsrc =>
    refine passed_one hcot (.cons ⟨hsrc, fun ha => ?_⟩ .nil) (by simp) (by simp)
    exact hone (hadj (hany (src, []) (List.mem_singleton_self _) ha))
  | @unary dst dst' op arg arg' harg =>
    refine passed_one hcot (.cons ⟨harg, fun ha => ?_⟩ .nil) (by simp +contextual) (by simp +contextual)
    have hmem := List.mem_singleton_self (arg, if partialIsConstant op then [] else [arg])
    rw [hone (hadj (hany _ hmem ha)), unaryDerivative_congr E fun hc =>
      (htape.reads _ hmem ha arg (by simp [hc]) arg' harg).symm]
  | @binary dst dst' op lhs lhs' rhs rhs' hlhs hrhs =>
    exact passed_one hcot (moved_binary E hlhs hrhs (fun read hmem ha => hone (hadj (hany read hmem ha))) htape.reads)
      (by simp +contextual) (by simp +contextual)
  | compare dst dst' op hlhs hrhs => exact passed_end hcot
  | @select dst dst' cond cond' ifTrue ifTrue' ifFalse ifFalse' hcond htrue hfalse =>
    have hreads : ∀ read ∈ [(ifTrue, [cond]), (ifFalse, [cond])], active read.1 = true →
        tape' cond' = tape cond ∧ s.adj dst = s'.adj dst' := by
      intro read hmem ha
      have hcondMem : cond ∈ read.2 := by
        simp only [List.mem_cons, List.not_mem_nil, or_false] at hmem
        rcases hmem with rfl | rfl <;> simp
      exact ⟨htape.reads read hmem ha cond hcondMem cond' hcond, hone (hadj (hany read hmem ha))⟩
    rw [reverseOp_select, reverseOp_select]
    refine ⟨armContributions (tape cond) (s.adj dst) ifTrue ifFalse,
      armContributions (tape' cond') (s'.adj dst') ifTrue' ifFalse',
      .cons ⟨htrue, fun ha => ?_⟩ (.cons ⟨hfalse, fun ha => ?_⟩ .nil), ?_, ?_, hcot⟩
    · obtain ⟨hc, hg⟩ := hreads (ifTrue, [cond]) (by simp) ha
      rw [hc, hg]
    · obtain ⟨hc, hg⟩ := hreads (ifFalse, [cond]) (by simp) ha
      rw [hc, hg]
    · rw [destinations, consume_singleton, scatter_armContributions]
    · rw [destinations, consume_singleton, scatter_armContributions]
  | @linearSolveComponent dst dst' matrix matrix' rhs rhs' n component hmatrix hrhs =>
    simp only [reverseOp, takeAdj, ← hone (hadj rfl)]
    refine (linearSolveContributions_renamed hmatrix hrhs htape.slots active (s.adj dst)).bind fun l l' _ _ hmoved => ?_
    exact ⟨l, l', hmoved, by rw [destinations, consume_singleton]; rfl, by rw [destinations, consume_singleton]; rfl, hcot⟩
  | @dotProduct dst dst' lhs lhs' rhs rhs' count lhsStride rhsStride hlhs hrhs =>
    refine passed_one hcot (moved_dot ?_ (fun read hmem ha => hone (hadj (hany read hmem ha))) htape.reads)
      (fun h0 => by rw [h0]; exact dotContributions_zero) fun h0 => by rw [h0]; exact dotContributions_zero
    exact List.forall₂_map_left_iff.2 (List.forall₂_map_right_iff.2 (List.forall₂_same.2 fun k hk =>
      ⟨hlhs k (List.mem_range.1 hk), hrhs k (List.mem_range.1 hk)⟩))
  | @matrixMultiply dst dst' lhs lhs' rhs rhs' rows inner columns hlhs hrhs =>
    refine passed_range hcot (fun k hk => ?_) (fun _ => dotContributions_zero) fun _ => dotContributions_zero
    have hcolumns : 0 < columns := Nat.pos_of_ne_zero fun h0 => by simp [h0] at hk
    have hrow : k / columns < rows := Nat.div_lt_of_lt_mul (by rwa [Nat.mul_comm])
    have hcol : k % columns < columns := Nat.mod_lt _ hcolumns
    have hreads : ∀ read ∈ dotReads (productTerms lhs rhs inner columns (k / columns) (k % columns)),
        read ∈ partialReads (.matrixMultiply dst lhs rhs rows inner columns 1 : LinearOp K) := fun read hmem =>
      List.mem_flatMap.2 ⟨(k / columns, k % columns), mem_cells.2 ⟨hrow, hcol⟩, hmem⟩
    refine moved_dot ?_ (fun read hmem ha => hrange (hadj (hany read (hreads read hmem) ha)) k hk)
      fun read hmem => htape.reads read (hreads read hmem)
    exact List.forall₂_map_left_iff.2 (List.forall₂_map_right_iff.2 (List.forall₂_same.2 fun term hterm =>
      ⟨hlhs.one (entry_lt hrow (List.mem_range.1 hterm)), hrhs.one (entry_lt (List.mem_range.1 hterm) hcol)⟩))
  | @tensorBinary dst dst' op lhs lhs' rhs rhs' count lhsStride rhsStride hlhs hrhs =>
    refine passed_range hcot (fun k hk => ?_) (by simp) (by simp)
    have hreads : ∀ read ∈ binaryReads op (registerAt lhs (k * lhsStride)) (registerAt rhs (k * rhsStride)),
        read ∈ partialReads (.tensorBinary dst op lhs rhs count lhsStride rhsStride 1 : LinearOp K) := fun read hmem =>
      List.mem_flatMap.2 ⟨_, List.mem_map_of_mem (List.mem_range.2 hk), hmem⟩
    exact moved_binary E (hlhs k hk) (hrhs k hk)
      (fun read hmem ha => hrange (hadj (hany read (hreads read hmem) ha)) k hk)
      fun read hmem => htape.reads read (hreads read hmem)
  | @tensorTranspose dst dst' src src' rows columns elementWidth hsrc =>
    simp only [reverseOp, tensorSupported, if_true, reverseTensor, transposePairs, List.foldl_map]
    refine passed_copies hcot (fun k hk ha => hrange (hadj (hany (_, []) ?_ ha)) k hk)
      (fun k hk => hsrc.one (transposeSource_lt hk))
      (fun k hk j hj => (not_overlap hover hj (transposeSource_lt hk)).symm)
      fun k hk j hj => (not_overlap hover' hj (transposeSource_lt hk)).symm
    exact List.mem_map_of_mem (mem_registerRange.2 ⟨_, transposeSource_lt hk, rfl⟩)
  | @tensorFill dst dst' value value' count hvalue =>
    refine passed_copies hcot (fun k hk ha => hrange (hadj (hany (value, []) (List.mem_singleton_self _) ha)) k hk)
      (fun _ _ => hvalue) (fun _ _ k hk => ?_) fun _ _ k hk => ?_
    · exact (not_overlap (b := 0) hover hk Nat.one_pos).symm
    · exact (not_overlap (b := 0) hover' hk Nat.one_pos).symm
  | tensorIdentity dst dst' size =>
    exact passed_loads (fun untaken k => Function.update untaken (registerAt dst k) false)
      (fun untaken k => Function.update untaken (registerAt dst' k) false) (fun cot _ _ => cot) hcot fun _ _ _ => rfl
  | tensorLoad dst dst' input inputStart count =>
    cases input with
    | y =>
      exact passed_loads (fun untaken k => Function.update untaken (registerAt dst k) false)
        (fun untaken k => Function.update untaken (registerAt dst' k) false)
        (fun cot k g => { cot with y := accumulate cot.y (inputStart + k) g }) hcot
        fun k hk cot => by rw [hrange (hadj rfl) k hk]
    | p =>
      exact passed_loads (fun untaken k => Function.update untaken (registerAt dst k) false)
        (fun untaken k => Function.update untaken (registerAt dst' k) false)
        (fun cot k g => { cot with p := accumulate cot.p (inputStart + k) g }) hcot
        fun k hk cot => by rw [hrange (hadj rfl) k hk]
  | storeOutput hsrc => exact passed_none hcot
  | storeOutputRange count stride hrange => exact passed_none hcot

end

end

end Rumoca.Eval
