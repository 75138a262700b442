import Rumoca.Lib.AffineOn
import Rumoca.Lib.RangeMap
import Rumoca.Solve.Affinity
import Rumoca.Solve.AffinityValues
/-!
# Degrees of the values an operation writes

Execution over points: each point gives the inputs of one run. A register map
bounds the registers when the value of every register, as a function of the
point, has the degree the map gives it. What an admitted operation writes then
has the degree of its bound.
-/

namespace Rumoca.Solve.Affinity

open Lib

variable {P F K : Type} [Field K]

/-! ## Degrees of functions -/

def HasDegree (S : Set P) (coordinate : Nat → P → K) (targets : Finset Nat) : Degree → (P → K) → Prop
  | .independent, f => ConstantOn S f
  | .affine, f => AffineOn S coordinate targets f
  | .nonlinear, _ => True

section
variable {S : Set P} {coordinate : Nat → P → K} {targets : Finset Nat} {d e : Degree} {f g : P → K}

theorem hasDegree_of_constantOn (h : ConstantOn S f) : HasDegree S coordinate targets d f :=
  match d with
  | .independent => h
  | .affine => h.affineOn
  | .nonlinear => trivial

theorem HasDegree.max_left (h : HasDegree S coordinate targets d f) : HasDegree S coordinate targets (d.max e) f := by
  cases d with
  | independent => exact hasDegree_of_constantOn h
  | affine =>
    cases e with
    | independent => exact h
    | affine => exact h
    | nonlinear => trivial
  | nonlinear => cases e <;> trivial

theorem HasDegree.max_right (h : HasDegree S coordinate targets e f) : HasDegree S coordinate targets (d.max e) f := by
  cases e with
  | independent => exact hasDegree_of_constantOn h
  | affine =>
    cases d with
    | independent => exact h
    | affine => exact h
    | nonlinear => trivial
  | nonlinear => cases d <;> trivial

theorem HasDegree.congr (h : HasDegree S coordinate targets d f) (hfg : ∀ p ∈ S, f p = g p) :
    HasDegree S coordinate targets d g :=
  match d, h with
  | .independent, ⟨c, hc⟩ => ⟨c, fun p hp => (hfg p hp).symm.trans (hc p hp)⟩
  | .affine, ⟨c, a, hc⟩ => ⟨c, a, fun p hp => (hfg p hp).symm.trans (hc p hp)⟩
  | .nonlinear, _ => trivial

theorem HasDegree.affineOn (h : HasDegree S coordinate targets d f) (hd : d ≠ .nonlinear) :
    AffineOn S coordinate targets f :=
  match d, h with
  | .independent, h => ConstantOn.affineOn h
  | .affine, h => h
  | .nonlinear, _ => absurd rfl hd

theorem HasDegree.add (hf : HasDegree S coordinate targets d f) (hg : HasDegree S coordinate targets e g) :
    HasDegree S coordinate targets (d.max e) fun p => f p + g p := by
  cases d with
  | independent =>
    cases e with
    | independent => exact ConstantOn.comp₂ (· + ·) hf hg
    | affine => exact (ConstantOn.affineOn hf).add hg
    | nonlinear => trivial
  | affine =>
    cases e with
    | independent => exact AffineOn.add hf (ConstantOn.affineOn hg)
    | affine => exact AffineOn.add hf hg
    | nonlinear => trivial
  | nonlinear => cases e <;> trivial

theorem HasDegree.neg (hf : HasDegree S coordinate targets d f) : HasDegree S coordinate targets d fun p => -f p :=
  match d, hf with
  | .independent, hf => ConstantOn.comp (-·) hf
  | .affine, hf => AffineOn.neg hf
  | .nonlinear, _ => trivial

theorem HasDegree.sub (hf : HasDegree S coordinate targets d f) (hg : HasDegree S coordinate targets e g) :
    HasDegree S coordinate targets (d.max e) fun p => f p - g p := by
  simpa only [sub_eq_add_neg] using hf.add hg.neg

theorem HasDegree.mul (hf : HasDegree S coordinate targets d f) (hg : HasDegree S coordinate targets e g) :
    HasDegree S coordinate targets (d.product e) fun p => f p * g p := by
  cases d with
  | independent =>
    cases e with
    | independent => exact ConstantOn.comp₂ (· * ·) hf hg
    | affine => exact AffineOn.const_mul hf hg
    | nonlinear => trivial
  | affine =>
    cases e with
    | independent => exact AffineOn.mul_const hf hg
    | affine => trivial
    | nonlinear => trivial
  | nonlinear => cases e <;> trivial

theorem HasDegree.div (hf : HasDegree S coordinate targets d f) (hg : ConstantOn S g) :
    HasDegree S coordinate targets d fun p => f p / g p :=
  match d, hf with
  | .independent, hf => ConstantOn.comp₂ (· / ·) hf hg
  | .affine, hf => AffineOn.div_const hf hg
  | .nonlinear, _ => trivial

theorem hasDegree_sum {κ : Type} {terms : κ → P → K} {s : Finset κ}
    (h : ∀ k ∈ s, HasDegree S coordinate targets d (terms k)) :
    HasDegree S coordinate targets d fun p => ∑ k ∈ s, terms k p :=
  match d, h with
  | .independent, h => ConstantOn.sum h
  | .affine, h => AffineOn.sum h
  | .nonlinear, _ => trivial

theorem hasDegree_foldl_max {α : Type} {degree : α → Degree} {l : List α}
    (h : HasDegree S coordinate targets d f ∨ ∃ a ∈ l, HasDegree S coordinate targets (degree a) f) :
    HasDegree S coordinate targets (l.foldl (fun d a => d.max (degree a)) d) f := by
  induction l generalizing d with
  | nil => exact h.resolve_right (by simp)
  | cons a l ih =>
    refine ih ?_
    rcases h with h | ⟨b, hb, h⟩
    · exact .inl h.max_left
    · rcases List.mem_cons.1 hb with rfl | hb
      · exact .inl h.max_right
      · exact .inr ⟨b, hb, h⟩

theorem HasDegree.evalBinary (arithmetic : Arithmetic F K) (op : BinaryOp) (hf : HasDegree S coordinate targets d f)
    (hg : HasDegree S coordinate targets e g) :
    HasDegree S coordinate targets (d.binary op e) fun p => evalBinary arithmetic op (f p) (g p) := by
  have hrest : HasDegree S coordinate targets
      (if op = .div ∧ e = .independent then d
        else if d = .independent ∧ e = .independent then .independent else .nonlinear)
      fun p => Affinity.evalBinary arithmetic op (f p) (g p) := by
    split_ifs with hdiv hind
    · obtain ⟨rfl, rfl⟩ := hdiv
      exact hf.div hg
    · obtain ⟨rfl, rfl⟩ := hind
      exact ConstantOn.comp₂ (Affinity.evalBinary arithmetic op) hf hg
    · trivial
  cases op with
  | add => exact hf.add hg
  | sub => exact hf.sub hg
  | mul => exact hf.mul hg
  | _ => exact hrest

end

/-! ## Registers -/

/-- The map bounds the value of every register, as a function of the point. -/
structure Bounded (S : Set P) (coordinate : Nat → P → K) (targets : Finset Nat) (registers : Registers)
    (values : P → Values K) : Prop where
  ascending : Ascending registers
  degree : ∀ r, HasDegree S coordinate targets (registers.atRegister r) fun p => values p r

theorem Registers.atRegister_eq (registers : Registers) (r : Nat) :
    registers.atRegister r = valueAt .nonlinear registers r := by
  unfold Registers.atRegister valueAt
  cases lastUpTo r registers <;> rfl

theorem Registers.write_eq {registers registers' : Registers} {start : Nat} {count : Nat} {degree : Degree}
    (h : registers.write start count degree = some registers') :
    (count = 0 ∧ registers' = registers) ∨
      (0 < count ∧ start + count < u32Limit ∧
        registers' = assignRange .nonlinear registers start (start + count) degree) := by
  unfold Registers.write at h
  by_cases hzero : count = 0
  · rw [if_pos hzero] at h
    exact .inl ⟨hzero, (Option.some.inj h).symm⟩
  · rw [if_neg hzero] at h
    simp only [Option.bind_eq_bind, Option.bind_eq_some_iff, checkedU32_eq_some, Registers.atRegister_eq] at h
    obtain ⟨_, ⟨rfl, -⟩, _, ⟨rfl, hstop⟩, hregisters⟩ := h
    exact .inr ⟨Nat.pos_of_ne_zero hzero, hstop, (Option.some.inj hregisters).symm⟩

section
variable {S : Set P} {coordinate : Nat → P → K} {targets : Finset Nat} {registers registers' : Registers}
  {values : P → Values K} {start : Nat} {count : Nat} {d : Degree}

theorem Bounded.read_at (h : Bounded S coordinate targets registers values)
    (hread : registers.read start count = some d) {offset : Nat} (hoffset : offset < count) :
    start + offset < u32Limit ∧ HasDegree S coordinate targets d fun p => values p (start + offset) := by
  unfold Registers.read at hread
  rw [if_neg (by omega)] at hread
  simp only [Option.bind_eq_bind, Option.bind_eq_some_iff, checkedU32_eq_some] at hread
  obtain ⟨_, ⟨rfl, -⟩, _, ⟨rfl, hstop⟩, hd⟩ := hread
  refine ⟨by omega, ?_⟩
  rw [← Option.some.inj hd]
  apply hasDegree_foldl_max
  have hdegree := h.degree (start + offset)
  rw [Registers.atRegister_eq] at hdegree ⊢
  rcases exists_last_or_before h.ascending (start + offset) with ⟨e, he, hle, hlast⟩ | hbefore
  · by_cases hstart : start ≤ e.1
    · rw [valueAt_of_mem h.ascending he hle hlast] at hdegree
      refine .inr ⟨e, List.mem_filter.2 ⟨he, ?_⟩, hdegree⟩
      simp only [decide_eq_true_eq]
      omega
    · rw [valueAt_eq_of_gap h.ascending (Nat.le_add_right start offset) fun f hf hle => by
        have := hlast f hf hle
        omega] at hdegree
      exact .inl hdegree
  · rw [valueAt_of_before hbefore] at hdegree
    rw [valueAt_of_before fun e he => Nat.lt_of_le_of_lt (Nat.le_add_right start offset) (hbefore e he)]
    exact .inl hdegree

theorem Bounded.read (h : Bounded S coordinate targets registers values)
    (hread : registers.read start count = some d) {offset : Nat} (hoffset : offset < count) :
    HasDegree S coordinate targets d fun p => values p (Reg.offset start offset) := by
  obtain ⟨hlimit, hdegree⟩ := h.read_at hread hoffset
  rw [Reg.offset_eq hlimit]
  exact hdegree

theorem Bounded.read_one (h : Bounded S coordinate targets registers values)
    (hread : registers.read start 1 = some d) : HasDegree S coordinate targets d fun p => values p start :=
  (h.read_at hread Nat.one_pos).2

theorem Bounded.readStrided (h : Bounded S coordinate targets registers values) {stride : Nat}
    (hread : registers.readStrided start count stride = some d) {element : Nat} (helement : element < count) :
    HasDegree S coordinate targets d fun p => values p (Reg.offset start (element * stride)) := by
  unfold Registers.readStrided at hread
  rw [if_neg (by omega)] at hread
  simp only [Option.bind_eq_bind, Option.bind_eq_some_iff, checkedUsize_eq_some] at hread
  obtain ⟨_, ⟨rfl, -⟩, _, ⟨rfl, -⟩, hread⟩ := hread
  have hle : element * stride ≤ (count - 1) * stride := Nat.mul_le_mul_right stride (by omega)
  exact h.read hread (Nat.lt_succ_of_le hle)

theorem Bounded.write (h : Bounded S coordinate targets registers values)
    (hwrite : registers.write start count d = some registers') {element : P → Nat → K}
    (helement : ∀ offset < count, HasDegree S coordinate targets d fun p => element p offset) :
    Bounded S coordinate targets registers' fun p => writeRange (values p) start count (element p) := by
  rcases Registers.write_eq hwrite with ⟨rfl, rfl⟩ | ⟨hpos, -, rfl⟩
  · have hsame : (fun p => writeRange (values p) start 0 (element p)) = values := by
      funext p r
      unfold writeRange
      rw [if_neg (by omega)]
    rw [hsame]
    exact h
  · refine ⟨h.ascending.assignRange, fun r => ?_⟩
    rw [Registers.atRegister_eq, valueAt_assignRange h.ascending (by omega)]
    unfold writeRange
    split_ifs with hr
    · exact helement (r - start) (by omega)
    · rw [← Registers.atRegister_eq]
      exact h.degree r

end

/-! ## Extents -/

theorem radix_lt {x y a b : Nat} (hx : x < a) (hy : y < b) : x * b + y < a * b := by
  calc x * b + y < x * b + b := Nat.add_lt_add_left hy _
    _ = (x + 1) * b := (Nat.succ_mul x b).symm
    _ ≤ a * b := Nat.mul_le_mul_right b hx

theorem saturatingMul_le (a b : Nat) : saturatingMul a b ≤ a * b := Nat.min_le_left _ _

theorem saturatingMul_eq {a b : Nat} (h : a * b < usizeLimit) : saturatingMul a b = a * b :=
  Nat.min_eq_left (Nat.le_sub_one_of_lt h)

theorem foldl_saturatingMul_le (dimensions : List Nat) (lanes : Nat) :
    dimensions.foldl saturatingMul lanes ≤ lanes * dimensions.prod := by
  induction dimensions generalizing lanes with
  | nil => simp
  | cons extent rest ih =>
    rw [List.foldl_cons, List.prod_cons, ← Nat.mul_assoc]
    exact (ih _).trans (Nat.mul_le_mul_right _ (saturatingMul_le lanes extent))

theorem extent_eq {dimensions : List Nat} {size : Nat} (h : extent dimensions = some size) :
    size = dimensions.prod ∧ saturatingExtent dimensions = size := by
  have hfold : ∀ (dimensions : List Nat) (first : Nat),
      dimensions.foldlM (fun size extent => checkedUsize (size * extent)) first = some size →
      size = first * dimensions.prod ∧ dimensions.foldl saturatingMul first = size := by
    intro dimensions
    induction dimensions with
    | nil =>
      intro first h
      obtain rfl : first = size := Option.some.inj h
      exact ⟨(Nat.mul_one _).symm, rfl⟩
    | cons extent rest ih =>
      intro first h
      rw [List.foldlM_cons] at h
      obtain ⟨next, hnext, h⟩ := Option.bind_eq_some_iff.1 h
      obtain ⟨rfl, hlimit⟩ := checkedUsize_eq_some.1 hnext
      obtain ⟨hsize, hsaturating⟩ := ih _ h
      rw [List.prod_cons, List.foldl_cons, saturatingMul_eq hlimit, ← Nat.mul_assoc]
      exact ⟨hsize, hsaturating⟩
  have h := hfold dimensions 1 h
  rwa [Nat.one_mul] at h

/-! ## Tensor elements -/

section
variable {S : Set P} {coordinate : Nat → P → K} {targets : Finset Nat} {registers : Registers}
  {values : P → Values K} {d e : Degree}

theorem Bounded.matrixValue (h : Bounded S coordinate targets registers values) {lhsStart rhsStart : Reg}
    {rows inner columns : Nat} (hlhs : registers.read lhsStart (rows * inner) = some d)
    (hrhs : registers.read rhsStart (inner * columns) = some e) {offset : Nat} (hoffset : offset < rows * columns) :
    HasDegree S coordinate targets (d.product e)
      fun p => matrixValue (values p) lhsStart rhsStart inner columns offset := by
  have hcolumns : 0 < columns := Nat.pos_of_ne_zero fun hzero => by simp [hzero] at hoffset
  have hrow : offset / columns < rows := Nat.div_lt_of_lt_mul (by rwa [Nat.mul_comm])
  refine hasDegree_sum fun term hterm => ?_
  have hterm : term < inner := Finset.mem_range.1 hterm
  exact (h.read hlhs (radix_lt hrow hterm)).mul (h.read hrhs (radix_lt hterm (Nat.mod_lt _ hcolumns)))

theorem crossFactors_lt (component : Nat) : (crossFactors component).1 < 3 ∧ (crossFactors component).2 < 3 := by
  unfold crossFactors
  split <;> decide

theorem Degree.max_self (d : Degree) : d.max d = d := by cases d <;> rfl

theorem Bounded.crossValue (h : Bounded S coordinate targets registers values) {lhsStart rhsStart : Reg}
    (hlhs : registers.read lhsStart 3 = some d) (hrhs : registers.read rhsStart 3 = some e) (component : Nat) :
    HasDegree S coordinate targets (d.product e) fun p => crossValue (values p) lhsStart rhsStart component := by
  obtain ⟨hfirst, hsecond⟩ := crossFactors_lt component
  have hdifference :=
    ((h.read hlhs hfirst).mul (h.read hrhs hsecond)).sub ((h.read hlhs hsecond).mul (h.read hrhs hfirst))
  rw [Degree.max_self] at hdifference
  exact hdifference

theorem Bounded.transpose (h : Bounded S coordinate targets registers values) {srcStart : Reg}
    {rows columns elementWidth : Nat} (hsrc : registers.read srcStart (rows * columns * elementWidth) = some d)
    {offset : Nat} (hoffset : offset < rows * columns * elementWidth) :
    HasDegree S coordinate targets d
      fun p => values p (transposeSource srcStart rows columns elementWidth offset) := by
  have hwidth : 0 < elementWidth := Nat.pos_of_ne_zero fun hzero => by simp [hzero] at hoffset
  have helement : offset / elementWidth < rows * columns := Nat.div_lt_of_lt_mul (by rwa [Nat.mul_comm])
  have hcolumns : 0 < columns := Nat.pos_of_ne_zero fun hzero => by simp [hzero] at helement
  have hrow : offset / elementWidth / columns < rows := Nat.div_lt_of_lt_mul (by rwa [Nat.mul_comm])
  have hplace := radix_lt (Nat.mod_lt (offset / elementWidth) hcolumns) hrow
  refine h.read hsrc ?_
  rw [Nat.mul_comm rows columns]
  exact radix_lt hplace (Nat.mod_lt offset hwidth)

theorem mem_concatenateVisits {dimensions : List Nat} {axis axisOffset : Nat} {sources : List TensorConcatenateSource}
    {visit : Reg × Nat} (h : visit ∈ concatenateVisits dimensions axis sources axisOffset) :
    ∃ source ∈ sources, ∃ element < source.dimensions.prod, visit.1 = source.start.offset element := by
  induction sources generalizing axisOffset with
  | nil => cases h
  | cons source rest ih =>
    rcases List.mem_append.1 h with h | h
    · obtain ⟨element, helement, rfl⟩ := List.mem_map.1 h
      exact ⟨source, List.mem_cons_self, element, List.mem_range.1 helement, rfl⟩
    · obtain ⟨found, hfound, rest⟩ := ih h
      exact ⟨found, List.mem_cons_of_mem _ hfound, rest⟩

theorem concatenateSource_spec {dimensions : List Nat} {axis offset : Nat} {sources : List TensorConcatenateSource}
    {register : Reg} (h : concatenateSource dimensions axis sources offset = some register) :
    ∃ source ∈ sources, ∃ element < source.dimensions.prod, register = source.start.offset element := by
  obtain ⟨visit, hvisit, rfl⟩ := Option.map_eq_some_iff.1 h
  exact mem_concatenateVisits (List.mem_reverse.1 (List.mem_of_find?_eq_some hvisit))

theorem HasDegree.concatenate {sources : List TensorConcatenateSource} {f : P → K} {first : Degree}
    (hd : sources.foldlM (fun degree source => do
      pure (degree.max (← registers.read source.start (← extent source.dimensions)))) first = some d)
    (h : HasDegree S coordinate targets first f ∨ ∃ source ∈ sources, ∀ size e, extent source.dimensions = some size →
      registers.read source.start size = some e → HasDegree S coordinate targets e f) :
    HasDegree S coordinate targets d f := by
  induction sources generalizing first with
  | nil =>
    obtain rfl : first = d := Option.some.inj hd
    exact h.resolve_right (by simp)
  | cons source rest ih =>
    rw [List.foldlM_cons] at hd
    simp only [Option.bind_eq_bind, Option.bind_eq_some_iff] at hd
    obtain ⟨next, ⟨size, hsize, e, he, hnext⟩, hd⟩ := hd
    obtain rfl : first.max e = next := Option.some.inj hnext
    refine ih hd ?_
    rcases h with h | ⟨found, hfound, h⟩
    · exact .inl h.max_left
    · rcases List.mem_cons.1 hfound with rfl | hfound
      · exact .inl (h size e hsize he).max_right
      · exact .inr ⟨found, hfound, h⟩

theorem Bounded.concatenate (h : Bounded S coordinate targets registers values) {sources : List TensorConcatenateSource}
    (hd : sources.foldlM (fun degree source => do
      pure (degree.max (← registers.read source.start (← extent source.dimensions)))) .independent = some d)
    {dimensions : List Nat} {axis offset : Nat} {register : Reg}
    (hsource : concatenateSource dimensions axis sources offset = some register) :
    HasDegree S coordinate targets d fun p => values p register := by
  obtain ⟨source, hmem, element, helement, rfl⟩ := concatenateSource_spec hsource
  refine HasDegree.concatenate hd (.inr ⟨source, hmem, fun size e hsize he => ?_⟩)
  rw [← (extent_eq hsize).1] at helement
  exact h.read he helement

/-! ### Patches -/

/-- One axis of `patch`. -/
def patchAxis (registers : Registers) (s : Nat × Degree) (axis : Nat × TensorUpdateSubscript) : Option (Nat × Degree) :=
  match axis.2 with
  | .whole => do pure (← checkedUsize (s.1 * axis.1), s.2)
  | .index (.constant _) => some s
  | .index (.runtime register) => do pure (s.1, s.2.max (← registers.read register 1))
  | .slice start dimensions => do
    let size ← extent dimensions
    let count ← checkedUsize (s.1 * size)
    pure (count, s.2.max (← registers.read start size))

theorem patch_eq {dimensions : List Nat} {subscripts : List TensorUpdateSubscript} {result : Nat × Degree}
    (h : patch registers dimensions subscripts = some result) :
    (dimensions.zip subscripts).foldlM (patchAxis registers) (1, .independent) = some result := by
  unfold patch at h
  split_ifs at h
  rw [← h]
  congr 1

theorem Degree.max_eq_independent (h : d.max e = .independent) : d = .independent ∧ e = .independent := by
  cases d <;> cases e <;> simp_all [Degree.max]

theorem patchAxis_selector {s s' : Nat × Degree} {axis : Nat × TensorUpdateSubscript}
    (h : patchAxis registers s axis = some s') (hs' : s'.2 = .independent) : s.2 = .independent := by
  unfold patchAxis at h
  cases hsubscript : axis.2 with
  | whole =>
    simp only [hsubscript, Option.bind_eq_bind, Option.bind_eq_some_iff] at h
    obtain ⟨count, -, h⟩ := h
    rw [← Option.some.inj h] at hs'
    exact hs'
  | index index =>
    cases index with
    | constant coordinate =>
      simp only [hsubscript] at h
      rw [← Option.some.inj h] at hs'
      exact hs'
    | runtime register =>
      simp only [hsubscript, Option.bind_eq_bind, Option.bind_eq_some_iff] at h
      obtain ⟨e, -, h⟩ := h
      rw [← Option.some.inj h] at hs'
      exact (Degree.max_eq_independent hs').1
  | slice start dimensions =>
    simp only [hsubscript, Option.bind_eq_bind, Option.bind_eq_some_iff] at h
    obtain ⟨size, -, count, -, e, -, h⟩ := h
    rw [← Option.some.inj h] at hs'
    exact (Degree.max_eq_independent hs').1

theorem patch_selector {axes : List (Nat × TensorUpdateSubscript)} {s s' : Nat × Degree}
    (h : axes.foldlM (patchAxis registers) s = some s') (hs' : s'.2 = .independent) : s.2 = .independent := by
  induction axes generalizing s with
  | nil =>
    obtain rfl : s = s' := Option.some.inj h
    exact hs'
  | cons axis rest ih =>
    rw [List.foldlM_cons] at h
    obtain ⟨next, haxis, h⟩ := Option.bind_eq_some_iff.1 h
    exact patchAxis_selector haxis (ih h)

variable [DecidableEq K]

theorem tensorIndexCoordinate_constant {index : TensorIndex} (extent : Nat)
    (h : ∀ register, index = .runtime register → ConstantOn S fun p => values p register) :
    ConstantOn S fun p => tensorIndexCoordinate (values p) index extent := by
  cases index with
  | constant coordinate => exact constantOn_const _
  | runtime register =>
    obtain ⟨c, hc⟩ := h register rfl
    refine ⟨(List.range extent).find? fun coordinate => c = ((coordinate + 1 : Nat) : K), fun p hp => ?_⟩
    simp only [tensorIndexCoordinate, hc p hp]

theorem tensorSliceCoordinateOffset_constant {start : Reg} {count : Nat} (coordinate : Nat)
    (h : ∀ offset < count, ConstantOn S fun p => values p (start.offset offset)) :
    ConstantOn S fun p => tensorSliceCoordinateOffset (values p) start count coordinate := by
  choose! c hc using h
  refine ⟨(List.range count).find? fun offset => c offset = ((coordinate + 1 : Nat) : K), fun p hp => ?_⟩
  unfold tensorSliceCoordinateOffset
  refine List.find?_congr fun offset hoffset => ?_
  have hvalue : values p (start.offset offset) = c offset := hc offset (List.mem_range.1 hoffset) p hp
  rw [hvalue]

theorem tensorSliceCoordinateOffset_lt {start : Reg} {count coordinate selected : Nat} {values : Values K}
    (h : tensorSliceCoordinateOffset values start count coordinate = some selected) : selected < count :=
  List.mem_range.1 (List.mem_of_find?_eq_some h)

theorem Bounded.indexCoordinate (h : Bounded S coordinate targets registers values) {s s' : Nat × Degree} {extent : Nat}
    {index : TensorIndex} (haxis : patchAxis registers s (extent, .index index) = some s')
    (hs' : s'.2 = .independent) :
    s'.1 = s.1 ∧ ConstantOn S fun p => tensorIndexCoordinate (values p) index extent := by
  cases index with
  | constant coordinate =>
    obtain rfl : s = s' := Option.some.inj haxis
    exact ⟨rfl, constantOn_const _⟩
  | runtime register =>
    simp only [patchAxis, Option.bind_eq_bind, Option.bind_eq_some_iff] at haxis
    obtain ⟨e, hread, haxis⟩ := haxis
    obtain rfl := Option.some.inj haxis
    obtain ⟨-, rfl⟩ := Degree.max_eq_independent hs'
    refine ⟨rfl, tensorIndexCoordinate_constant extent fun found hfound => ?_⟩
    obtain rfl : register = found := TensorIndex.runtime.inj hfound
    exact h.read_one hread

theorem Bounded.updateValueOffset (h : Bounded S coordinate targets registers values) (element : Nat)
    {axes : List (Nat × TensorUpdateSubscript)} {s : Nat × Degree} {total : Nat}
    (hpatch : axes.foldlM (patchAxis registers) s = some (total, .independent)) (hextents : ∀ axis ∈ axes, 0 < axis.1)
    (stride : Nat) {valueOffset : Nat} (hoffset : valueOffset < s.1) :
    ∃ place : Option Nat, (∀ p ∈ S, updateValueOffset (values p) element axes stride valueOffset = place) ∧
      ∀ offset, place = some offset → offset < total := by
  induction axes generalizing s stride valueOffset with
  | nil =>
    obtain rfl : s = (total, .independent) := Option.some.inj hpatch
    exact ⟨some valueOffset, fun _ _ => rfl, fun offset hsome => Option.some.inj hsome ▸ hoffset⟩
  | cons axis rest ih =>
    obtain ⟨extent, subscript⟩ := axis
    rw [List.foldlM_cons] at hpatch
    obtain ⟨s', haxis, hrun⟩ := Option.bind_eq_some_iff.1 hpatch
    have hs' : s'.2 = .independent := patch_selector hrun rfl
    have hextent : 0 < extent := hextents (extent, subscript) List.mem_cons_self
    have hrest : ∀ axis ∈ rest, 0 < axis.1 := fun axis haxis => hextents axis (List.mem_cons_of_mem _ haxis)
    have hcoordinate : element / (stride / extent) % extent < extent := Nat.mod_lt _ hextent
    cases subscript with
    | whole =>
      simp only [patchAxis, Option.bind_eq_bind, Option.bind_eq_some_iff, checkedUsize_eq_some] at haxis
      obtain ⟨_, ⟨rfl, -⟩, haxis⟩ := haxis
      obtain rfl := Option.some.inj haxis
      exact ih hrun hrest (stride / extent) (radix_lt hoffset hcoordinate)
    | index index =>
      obtain ⟨hcount, selected, hselected⟩ := h.indexCoordinate haxis hs'
      obtain ⟨place, hplace, hlt⟩ := ih hrun hrest (stride / extent) (hcount ▸ hoffset)
      cases selected with
      | none =>
        refine ⟨none, fun p hp => ?_, fun offset hsome => by cases hsome⟩
        simp only [Affinity.updateValueOffset, hselected p hp]
      | some selected =>
        by_cases hne : selected ≠ element / (stride / extent) % extent
        · refine ⟨none, fun p hp => ?_, fun offset hsome => by cases hsome⟩
          simp only [Affinity.updateValueOffset, hselected p hp, if_pos hne]
        · refine ⟨place, fun p hp => ?_, hlt⟩
          simp only [Affinity.updateValueOffset, hselected p hp, if_neg hne]
          exact hplace p hp
    | slice start dimensions =>
      simp only [patchAxis, Option.bind_eq_bind, Option.bind_eq_some_iff, checkedUsize_eq_some] at haxis
      obtain ⟨size, hsize, _, ⟨rfl, -⟩, e, hread, haxis⟩ := haxis
      obtain rfl := Option.some.inj haxis
      obtain ⟨-, rfl⟩ := Degree.max_eq_independent hs'
      have hcount : saturatingExtent dimensions = size := (extent_eq hsize).2
      obtain ⟨selected, hselected⟩ := tensorSliceCoordinateOffset_constant
        (element / (stride / extent) % extent) fun offset hlt => h.read hread hlt
      cases selected with
      | none =>
        refine ⟨none, fun p hp => ?_, fun offset hsome => by cases hsome⟩
        simp only [Affinity.updateValueOffset, hcount, hselected p hp]
      | some selected =>
        by_cases hS : S.Nonempty
        · obtain ⟨p, hp⟩ := hS
          have hlt := tensorSliceCoordinateOffset_lt (hselected p hp)
          obtain ⟨place, hplace, hlt⟩ := ih hrun hrest (stride / extent) (radix_lt hoffset hlt)
          refine ⟨place, fun p hp => ?_, hlt⟩
          simp only [Affinity.updateValueOffset, hcount, hselected p hp]
          exact hplace p hp
        · exact ⟨none, fun p hp => absurd ⟨p, hp⟩ hS, fun offset hsome => by cases hsome⟩

theorem Bounded.update (h : Bounded S coordinate targets registers values) {baseStart valueStart : Reg}
    {dimensions : List Nat} {subscripts : List TensorUpdateSubscript} {size count : Nat}
    (hpatch : patch registers dimensions subscripts = some (count, .independent))
    (hsize : extent dimensions = some size)
    (hbase : registers.read baseStart size = some d) (hvalue : registers.read valueStart count = some e)
    {element : Nat} (helement : element < dimensions.prod) :
    HasDegree S coordinate targets (d.max e)
      fun p => values p (updateSource (values p) baseStart valueStart dimensions subscripts element) := by
  have hextents : ∀ axis ∈ dimensions.zip subscripts, 0 < axis.1 := fun axis haxis =>
    Nat.pos_of_ne_zero fun hzero => by
      rw [List.prod_eq_zero (hzero ▸ (List.of_mem_zip haxis).1)] at helement
      exact Nat.not_lt_zero _ helement
  obtain ⟨place, hplace, hlt⟩ := h.updateValueOffset element (patch_eq hpatch) hextents (saturatingExtent dimensions)
    Nat.one_pos
  cases place with
  | none =>
    have hsame : ∀ p ∈ S, values p (baseStart.offset element) =
        values p (updateSource (values p) baseStart valueStart dimensions subscripts element) := fun p hp => by
      unfold updateSource
      rw [hplace p hp]
    rw [← (extent_eq hsize).1] at helement
    exact (h.read hbase helement).max_left.congr hsame
  | some offset =>
    have hsame : ∀ p ∈ S, values p (valueStart.offset offset) =
        values p (updateSource (values p) baseStart valueStart dimensions subscripts element) := fun p hp => by
      unfold updateSource
      rw [hplace p hp]
    exact (h.read hvalue (hlt offset rfl)).max_right.congr hsame

end

/-! ## Operations -/

/-- Only the targets of the inputs vary, and as the coordinates of the point. -/
structure Varies (S : Set P) (coordinate : Nat → P → K) (targets : Finset Nat) (inputs : P → Inputs K) : Prop where
  target : ∀ i ∈ targets, ∀ p ∈ S, (inputs p).y i = coordinate i p
  other : ∀ i ∉ targets, ConstantOn S fun p => (inputs p).y i
  p : ∀ i, ConstantOn S fun p => (inputs p).p i
  time : ConstantOn S fun p => (inputs p).time

def Arithmetic.isFinite (arithmetic : Arithmetic F K) (value : F) : Bool := (arithmetic.literal value).isSome

section
variable {S : Set P} {coordinate : Nat → P → K} {targets : Finset Nat} {inputs : P → Inputs K}

theorem Varies.load (h : Varies S coordinate targets inputs) (i : Nat) :
    HasDegree S coordinate targets (if i ∈ targets then .affine else .independent) fun p => (inputs p).y i := by
  split_ifs with hi
  · exact HasDegree.congr (affineOn_coordinate hi : HasDegree S coordinate targets .affine (coordinate i))
      fun p hp => (h.target i hi p hp).symm
  · exact h.other i hi

theorem Varies.loadRange (h : Varies S coordinate targets inputs) {start stop i : Nat} (hstart : start ≤ i)
    (hstop : i < stop) :
    HasDegree S coordinate targets
      (if ∃ target ∈ targets, start ≤ target ∧ target < stop then .affine else .independent)
      fun p => (inputs p).y i := by
  split_ifs with hmeets
  · have hload := h.load i
    by_cases hi : i ∈ targets
    · rwa [if_pos hi] at hload
    · rw [if_neg hi] at hload
      exact hasDegree_of_constantOn hload
  · exact h.other i fun hi => hmeets ⟨i, hi, hstart, hstop⟩

end

section
variable [DecidableEq K]

/-- An operation whose written elements have the degree `d`. -/
def Computes (S : Set P) (coordinate : Nat → P → K) (targets : Finset Nat) (arithmetic : Arithmetic F K)
    (inputs : P → Inputs K) (values : P → Values K) (op : LinearOp F) (d : Degree) : Prop :=
  ∃ element : P → Nat → K, (∀ p, elementValue arithmetic (inputs p) (values p) op = some (element p)) ∧
    ∀ offset < op.dstRegisterCount, HasDegree S coordinate targets d fun p => element p offset

variable {S : Set P} {coordinate : Nat → P → K} {targets : Finset Nat} {registers : Registers}
  {inputs : P → Inputs K} {values : P → Values K} {d : Degree} {arithmetic : Arithmetic F K}

theorem computes_const {dst : Reg} {value : F}
    (hd : operationDegree arithmetic.isFinite registers targets (.const dst value) = some d) :
    Computes S coordinate targets arithmetic inputs values (.const dst value) d := by
  unfold operationDegree at hd
  dsimp only at hd
  split_ifs at hd with hfinite
  · obtain ⟨c, hc⟩ := Option.isSome_iff_exists.1 hfinite
    exact ⟨fun _ _ => c, fun _ => by simp only [elementValue, hc, Option.map_some],
      fun _ _ => hasDegree_of_constantOn (constantOn_const c)⟩
  · cases hd

theorem Bounded.computes_unary (h : Bounded S coordinate targets registers values) {dst arg : Reg} {op : UnaryOp}
    (hd : operationDegree arithmetic.isFinite registers targets (.unary dst op arg) = some d) :
    Computes S coordinate targets arithmetic inputs values (.unary dst op arg) d := by
  obtain ⟨e, he, hd⟩ := Option.bind_eq_some_iff.1 hd
  obtain rfl := Option.some.inj hd
  refine ⟨fun p _ => evalUnary arithmetic op (values p arg), fun _ => rfl, fun _ _ => ?_⟩
  split_ifs with hcase
  · rcases hcase with rfl | rfl
    · exact (h.read_one he).neg
    · exact ConstantOn.comp (evalUnary arithmetic op) (h.read_one he)
  · trivial

theorem Bounded.computes_binary (h : Bounded S coordinate targets registers values) {dst lhs rhs : Reg} {op : BinaryOp}
    (hd : operationDegree arithmetic.isFinite registers targets (.binary dst op lhs rhs) = some d) :
    Computes S coordinate targets arithmetic inputs values (.binary dst op lhs rhs) d := by
  obtain ⟨e, he, hd⟩ := Option.bind_eq_some_iff.1 hd
  obtain ⟨e', he', hd⟩ := Option.bind_eq_some_iff.1 hd
  obtain rfl := Option.some.inj hd
  exact ⟨fun p _ => evalBinary arithmetic op (values p lhs) (values p rhs), fun _ => rfl,
    fun _ _ => (h.read_one he).evalBinary arithmetic op (h.read_one he')⟩

theorem Bounded.computes_compare (h : Bounded S coordinate targets registers values) {dst lhs rhs : Reg}
    {op : CompareOp} (hd : operationDegree arithmetic.isFinite registers targets (.compare dst op lhs rhs) = some d) :
    Computes S coordinate targets arithmetic inputs values (.compare dst op lhs rhs) d := by
  refine ⟨fun p _ => arithmetic.compare op (values p lhs) (values p rhs), fun _ => rfl, fun _ _ => ?_⟩
  obtain ⟨e, he, hd⟩ := Option.bind_eq_some_iff.1 hd
  by_cases hlhs : e = .independent
  · rw [if_pos hlhs] at hd
    obtain ⟨e', he', hd⟩ := Option.bind_eq_some_iff.1 hd
    by_cases hrhs : e' = .independent
    · rw [if_pos hrhs] at hd
      obtain rfl := Option.some.inj hd
      subst hlhs hrhs
      exact ConstantOn.comp₂ (arithmetic.compare op) (h.read_one he) (h.read_one he')
    · rw [if_neg hrhs] at hd
      obtain rfl := Option.some.inj hd
      trivial
  · rw [if_neg hlhs] at hd
    obtain rfl := Option.some.inj hd
    trivial

theorem Bounded.computes_select (h : Bounded S coordinate targets registers values) {dst cond ifTrue ifFalse : Reg}
    (hd : operationDegree arithmetic.isFinite registers targets (.select dst cond ifTrue ifFalse) = some d) :
    Computes S coordinate targets arithmetic inputs values (.select dst cond ifTrue ifFalse) d := by
  refine ⟨fun p _ => if arithmetic.truth (values p cond) then values p ifTrue else values p ifFalse, fun _ => rfl,
    fun _ _ => ?_⟩
  obtain ⟨e, he, hd⟩ := Option.bind_eq_some_iff.1 hd
  by_cases hcond : e = .independent
  · rw [if_pos hcond] at hd
    obtain ⟨t, ht, hd⟩ := Option.bind_eq_some_iff.1 hd
    obtain ⟨f, hf, hd⟩ := Option.bind_eq_some_iff.1 hd
    obtain rfl := Option.some.inj hd
    subst hcond
    obtain ⟨c, hc⟩ : ConstantOn S fun p => values p cond := h.read_one he
    cases htruth : arithmetic.truth c with
    | true => exact (h.read_one ht).max_left.congr fun p hp => by simp [hc p hp, htruth]
    | false => exact (h.read_one hf).max_right.congr fun p hp => by simp [hc p hp, htruth]
  · rw [if_neg hcond] at hd
    obtain rfl := Option.some.inj hd
    trivial

/-! ### Tensor operations -/

theorem saturatingMul_one_le (count : Nat) : saturatingMul count 1 ≤ count := by
  simpa using saturatingMul_le count 1

theorem computes_tensorIdentity {dst : Reg} {size : Nat} :
    Computes S coordinate targets arithmetic inputs values (.tensorIdentity dst size 1) d :=
  ⟨fun _ offset => if offset / size = offset % size then 1 else 0, fun _ => rfl,
    fun _ _ => hasDegree_of_constantOn (constantOn_const _)⟩

theorem Varies.computes_tensorLoad (h : Varies S coordinate targets inputs) {dst : Reg} {input : TensorInputKind}
    {inputStart count : Nat} {seedStart : Option Nat}
    (hd : operationDegree arithmetic.isFinite registers targets (.tensorLoad dst input inputStart count seedStart 1) =
      some d) :
    Computes S coordinate targets arithmetic inputs values (.tensorLoad dst input inputStart count seedStart 1) d := by
  cases input with
  | p =>
    exact ⟨fun p offset => (inputs p).p (inputStart + offset), fun _ => rfl,
      fun offset _ => hasDegree_of_constantOn (h.p (inputStart + offset))⟩
  | y =>
    refine ⟨fun p offset => (inputs p).y (inputStart + offset), fun _ => rfl, fun offset hoffset => ?_⟩
    have hoffset : offset < count := Nat.lt_of_lt_of_le hoffset (saturatingMul_one_le count)
    obtain ⟨stop, hstop, hd⟩ := Option.bind_eq_some_iff.1 hd
    obtain ⟨rfl, -⟩ := checkedUsize_eq_some.1 hstop
    obtain rfl := Option.some.inj hd
    exact h.loadRange (Nat.le_add_right inputStart offset) (Nat.add_lt_add_left hoffset inputStart)

theorem Bounded.computes_tensorFill (h : Bounded S coordinate targets registers values) {dst valueStart : Reg}
    {count : Nat} (hd : registers.read valueStart 1 = some d) :
    Computes S coordinate targets arithmetic inputs values (.tensorFill dst valueStart count 1) d :=
  ⟨fun p _ => values p valueStart, fun _ => rfl, fun _ _ => h.read_one hd⟩

theorem Bounded.computes_tensorBinary (h : Bounded S coordinate targets registers values) {dst lhsStart rhsStart : Reg}
    {op : BinaryOp} {count lhsStride rhsStride : Nat}
    (hd : operationDegree arithmetic.isFinite registers targets
      (.tensorBinary dst op lhsStart rhsStart count lhsStride rhsStride 1) = some d) :
    Computes S coordinate targets arithmetic inputs values
      (.tensorBinary dst op lhsStart rhsStart count lhsStride rhsStride 1) d := by
  obtain ⟨e, he, hd⟩ := Option.bind_eq_some_iff.1 hd
  obtain ⟨e', he', hd⟩ := Option.bind_eq_some_iff.1 hd
  obtain rfl := Option.some.inj hd
  refine ⟨_, fun _ => rfl, fun offset hoffset => ?_⟩
  have hoffset : offset < count := Nat.lt_of_lt_of_le hoffset (saturatingMul_one_le count)
  exact (h.readStrided he hoffset).evalBinary arithmetic op (h.readStrided he' hoffset)

theorem Bounded.computes_tensorCross (h : Bounded S coordinate targets registers values) {dst lhsStart rhsStart : Reg}
    (hd : operationDegree arithmetic.isFinite registers targets (.tensorCross dst lhsStart rhsStart 1) = some d) :
    Computes S coordinate targets arithmetic inputs values (.tensorCross dst lhsStart rhsStart 1) d := by
  obtain ⟨e, he, hd⟩ := Option.bind_eq_some_iff.1 hd
  obtain ⟨e', he', hd⟩ := Option.bind_eq_some_iff.1 hd
  obtain rfl := Option.some.inj hd
  exact ⟨_, fun _ => rfl, fun component _ => h.crossValue he he' component⟩

theorem Bounded.computes_matrixMultiply (h : Bounded S coordinate targets registers values)
    {dst lhsStart rhsStart : Reg} {rows inner columns : Nat}
    (hd : operationDegree arithmetic.isFinite registers targets
      (.matrixMultiply dst lhsStart rhsStart rows inner columns 1) = some d) :
    Computes S coordinate targets arithmetic inputs values
      (.matrixMultiply dst lhsStart rhsStart rows inner columns 1) d := by
  obtain ⟨lhsCount, hlhs, hd⟩ := Option.bind_eq_some_iff.1 hd
  obtain ⟨rfl, -⟩ := checkedUsize_eq_some.1 hlhs
  obtain ⟨e, he, hd⟩ := Option.bind_eq_some_iff.1 hd
  obtain ⟨rhsCount, hrhs, hd⟩ := Option.bind_eq_some_iff.1 hd
  obtain ⟨rfl, -⟩ := checkedUsize_eq_some.1 hrhs
  obtain ⟨e', he', hd⟩ := Option.bind_eq_some_iff.1 hd
  obtain rfl := Option.some.inj hd
  refine ⟨_, fun _ => rfl, fun offset hoffset => h.matrixValue he he' ?_⟩
  exact Nat.lt_of_lt_of_le hoffset ((saturatingMul_one_le _).trans (saturatingMul_le rows columns))

theorem Bounded.computes_tensorTranspose (h : Bounded S coordinate targets registers values) {dst srcStart : Reg}
    {rows columns elementWidth : Nat}
    (hd : tensorDegree registers (.tensorTranspose dst srcStart rows columns elementWidth 1 : LinearOp F) = some d) :
    Computes S coordinate targets arithmetic inputs values
      (.tensorTranspose dst srcStart rows columns elementWidth 1) d := by
  obtain ⟨elements, helements, hd⟩ := Option.bind_eq_some_iff.1 hd
  obtain ⟨rfl, -⟩ := checkedUsize_eq_some.1 helements
  obtain ⟨count, hcount, hd⟩ := Option.bind_eq_some_iff.1 hd
  obtain ⟨rfl, -⟩ := checkedUsize_eq_some.1 hcount
  refine ⟨_, fun _ => rfl, fun offset hoffset => h.transpose hd ?_⟩
  calc offset < _ := hoffset
    _ ≤ saturatingMul (saturatingMul rows columns) elementWidth := saturatingMul_one_le _
    _ ≤ saturatingMul rows columns * elementWidth := saturatingMul_le _ _
    _ ≤ rows * columns * elementWidth := Nat.mul_le_mul_right _ (saturatingMul_le _ _)

theorem dstRegisterCount_dimensions {dimensions : List Nat} {offset : Nat}
    (h : offset < dimensions.foldl saturatingMul 1) : offset < dimensions.prod :=
  Nat.lt_of_lt_of_le h (by simpa using foldl_saturatingMul_le dimensions 1)

theorem Bounded.computes_tensorConcatenate (h : Bounded S coordinate targets registers values) {dst : Reg}
    {sources : List TensorConcatenateSource} {dimensions : List Nat} {axis : Nat}
    (hcovers : CoversResult (.tensorConcatenate dst sources dimensions axis 1 : LinearOp F))
    (hd : tensorDegree registers (.tensorConcatenate dst sources dimensions axis 1 : LinearOp F) = some d) :
    Computes S coordinate targets arithmetic inputs values (.tensorConcatenate dst sources dimensions axis 1) d := by
  refine ⟨_, fun _ => rfl, fun offset hoffset => ?_⟩
  obtain ⟨register, hregister⟩ := Option.isSome_iff_exists.1 (hcovers offset (dstRegisterCount_dimensions hoffset))
  simp only [hregister, Option.getD_some]
  exact h.concatenate hd hregister

theorem Bounded.computes_tensorUpdate (h : Bounded S coordinate targets registers values)
    {dst baseStart valueStart : Reg} {dimensions : List Nat} {subscripts : List TensorUpdateSubscript}
    (hd : tensorDegree registers (.tensorUpdate dst baseStart valueStart dimensions subscripts 1 : LinearOp F) =
      some d) :
    Computes S coordinate targets arithmetic inputs values
      (.tensorUpdate dst baseStart valueStart dimensions subscripts 1) d := by
  refine ⟨_, fun _ => rfl, fun offset hoffset => ?_⟩
  obtain ⟨⟨count, selector⟩, hpatch, hd⟩ := Option.bind_eq_some_iff.1 hd
  obtain ⟨size, hsize, hd⟩ := Option.bind_eq_some_iff.1 hd
  obtain ⟨base, hbase, hd⟩ := Option.bind_eq_some_iff.1 hd
  obtain ⟨value, hvalue, hd⟩ := Option.bind_eq_some_iff.1 hd
  obtain rfl := Option.some.inj hd
  split_ifs with hselector
  · subst hselector
    exact h.update hpatch hsize hbase hvalue (dstRegisterCount_dimensions hoffset)
  · trivial

theorem Bounded.computes (h : Bounded S coordinate targets registers values) {op : LinearOp F}
    (hinputs : Varies S coordinate targets inputs) (hcovers : CoversResult op)
    (hd : operationDegree arithmetic.isFinite registers targets op = some d) :
    Computes S coordinate targets arithmetic inputs values op d := by
  unfold operationDegree at hd
  split at hd
  · exact computes_const hd
  · exact ⟨fun p _ => (inputs p).p _, fun _ => rfl, fun _ _ => hasDegree_of_constantOn (hinputs.p _)⟩
  · exact ⟨fun p _ => (inputs p).time, fun _ => rfl, fun _ _ => hasDegree_of_constantOn hinputs.time⟩
  · exact computes_tensorIdentity
  · obtain rfl := Option.some.inj hd
    exact ⟨fun p _ => (inputs p).y _, fun _ => rfl, fun _ _ => hinputs.load _⟩
  · exact ⟨fun p _ => values p _, fun _ => rfl, fun _ _ => h.read_one hd⟩
  · exact h.computes_unary hd
  · exact h.computes_binary hd
  · exact h.computes_compare hd
  · exact h.computes_select hd
  · exact hinputs.computes_tensorLoad (show operationDegree arithmetic.isFinite registers targets _ = some d from hd)
  · exact h.computes_tensorFill hd
  · exact h.computes_tensorBinary hd
  · exact h.computes_tensorCross hd
  · exact h.computes_matrixMultiply hd
  · unfold tensorDegree at hd
    split at hd
    · exact h.computes_tensorConcatenate hcovers hd
    · exact h.computes_tensorTranspose hd
    · exact h.computes_tensorUpdate hd
    · cases hd

end

end Rumoca.Solve.Affinity
