import Mathlib.Data.Rat.Floor
import Rumoca.Eval.Renaming
/-!
# The sweep and single assignment

A row that overwrites registers beside its single-assignment renaming, in
which every write has registers of its own. The forward passes agree along the
versions. The backward pass reads one tape, recorded at the end, so it agrees
as long as what a partial reads, and what is stored, is not overwritten.
-/

namespace Rumoca.Eval

open Solve Lib

section
variable {K : Type}

/-! ## Renamed rows -/

/-- `ops'` is `ops` with a fresh destination for every operation; `ρ` are the versions so far, `used` what was written. -/
inductive Renamed : (Reg → Option Reg) → List Reg → List (LinearOp K) → List (LinearOp K) → Prop
  | nil (ρ : Reg → Option Reg) (used : List Reg) : Renamed ρ used [] []
  | cons {ρ : Reg → Option Reg} {used : List Reg} {op op' : LinearOp K} {ops ops' : List (LinearOp K)}
      (hop : OpRenamed ρ op op') (hfresh : ∀ r ∈ destinations op', r ∉ used) (hclear : overlapping op' = false)
      (hrest : Renamed (rebind ρ (destinations op) (destinations op')) (destinations op' ++ used) ops ops') :
      Renamed ρ used (op :: ops) (op' :: ops')

/-- The single-assignment renaming of a row: every write gets fresh registers, every read the last version. -/
def SingleAssignment (ops ops' : List (LinearOp K)) : Prop := Renamed (fun _ => none) [] ops ops'

def Unwritten (r : Reg) (ops : List (LinearOp K)) : Prop := ∀ op ∈ ops, r ∉ destinations op

instance (r : Reg) (ops : List (LinearOp K)) : Decidable (Unwritten r ops) :=
  inferInstanceAs (Decidable (∀ op ∈ ops, r ∉ destinations op))

def activeAfter (active : Reg → Bool) (op : LinearOp K) (r : Reg) : Bool :=
  if r ∈ destinations op then opActive active op else active r

/-- No tensor destination meets its source, and what decides where an adjoint goes lasts to the end of the row: the
registers that the partials in active operands read, and the registers that are stored. -/
def KeepsOperands : (active : Reg → Bool) → List (LinearOp K) → Prop
  | _, [] => True
  | active, op :: ops =>
    overlapping op = false ∧
    (∀ read ∈ partialReads op, active read.1 = true → ∀ r ∈ read.2, Unwritten r (op :: ops)) ∧
    (∀ r ∈ slotReads op, Unwritten r (op :: ops)) ∧
    (∀ r ∈ storedOutputRegisters op, Unwritten r ops) ∧ KeepsOperands (activeAfter active op) ops

instance decidableKeepsOperands : (active : Reg → Bool) → (ops : List (LinearOp K)) → Decidable (KeepsOperands active ops)
  | _, [] => .isTrue trivial
  | active, op :: ops =>
    have := decidableKeepsOperands (activeAfter active op) ops
    inferInstanceAs (Decidable (_ ∧ _ ∧ _ ∧ _ ∧ _))

def versionsAfter : (Reg → Option Reg) → List (LinearOp K) → List (LinearOp K) → Reg → Option Reg
  | ρ, op :: ops, op' :: ops' => versionsAfter (rebind ρ (destinations op) (destinations op')) ops ops'
  | ρ, _, _ => ρ

def TapesAgree (tape tape' : Reg → K) : (Reg → Option Reg) → (Reg → Bool) → List (LinearOp K) → List (LinearOp K) → Prop
  | ρ, active, op :: ops, op' :: ops' =>
    TapeKeeps ρ active tape tape' op ∧
      TapesAgree tape tape' (rebind ρ (destinations op) (destinations op')) (activeAfter active op) ops ops'
  | _, _, _, _ => True

def HeldBy (ρ : Reg → Option Reg) (used : List Reg) : Prop := ∀ r v, ρ r = some v → v ∈ used

section
variable {ρ : Reg → Option Reg} {used : List Reg} {op op' : LinearOp K} {ops ops' : List (LinearOp K)}

theorem HeldBy.unheld (h : HeldBy ρ used) (hfresh : ∀ r ∈ destinations op', r ∉ used) : Unheld ρ (destinations op') :=
  fun r v hv hmem => hfresh v hmem (h r v hv)

theorem HeldBy.rebind (h : HeldBy ρ used) (hop : OpRenamed ρ op op') :
    HeldBy (rebind ρ (destinations op) (destinations op')) (destinations op' ++ used) := by
  intro r v hv
  rcases rebind_cases (nodup_destinations op) hop.length_eq hv with ⟨-, hv⟩ | ⟨i, -, hi⟩
  · exact List.mem_append_right _ (h r v hv)
  · exact List.mem_append_left _ (List.mem_of_getElem? hi)

theorem injective_step (h : Injective ρ) (hheld : HeldBy ρ used) (hop : OpRenamed ρ op op')
    (hfresh : ∀ r ∈ destinations op', r ∉ used) : Injective (rebind ρ (destinations op) (destinations op')) :=
  h.rebind (nodup_destinations op) hop.length_eq (hheld.unheld hfresh) (nodup_destinations op')

theorem versionsAfter_of_unwritten (h : Renamed ρ used ops ops') {r : Reg} (hr : Unwritten r ops) :
    versionsAfter ρ ops ops' r = ρ r := by
  induction h with
  | nil => rfl
  | cons hop _ _ _ ih =>
    rw [versionsAfter, ih fun op hmem => hr op (by simp [hmem]), rebind_of_notMem (hr _ (by simp))]

theorem injective_versionsAfter (h : Renamed ρ used ops ops') (hinj : Injective ρ) (hheld : HeldBy ρ used) :
    Injective (versionsAfter ρ ops ops') := by
  induction h with
  | nil => exact hinj
  | cons hop hfresh _ _ ih => exact ih (injective_step hinj hheld hop hfresh) (hheld.rebind hop)

theorem OpRenamed.stored (h : OpRenamed ρ op op') :
    List.Forall₂ (fun r r' => ρ r = some r') (storedOutputRegisters op) (storedOutputRegisters op') ∧
      (storedOutputRegisters op ≠ [] → destinations op = []) := by
  cases h with
  | storeOutput hsrc => exact ⟨.cons hsrc .nil, fun _ => rfl⟩
  | storeOutputRange count stride hrange =>
    refine ⟨?_, fun _ => rfl⟩
    exact List.forall₂_map_left_iff.2 (List.forall₂_map_right_iff.2 (List.forall₂_same.2 fun k hk =>
      hrange k (List.mem_range.1 hk)))
  | _ => exact ⟨.nil, fun h => absurd rfl h⟩

theorem stored_versions {active : Reg → Bool} (h : Renamed ρ used ops ops') (hkeep : KeepsOperands active ops) :
    List.Forall₂ (fun r r' => versionsAfter ρ ops ops' r = some r') (ops.flatMap storedOutputRegisters)
      (ops'.flatMap storedOutputRegisters) := by
  induction h generalizing active with
  | nil => exact .nil
  | @cons ρ used op op' ops ops' hop _ _ hrest ih =>
    obtain ⟨-, -, -, hstored, hkeep⟩ := hkeep
    obtain ⟨hversions, hnone⟩ := hop.stored
    rw [List.flatMap_cons, List.flatMap_cons]
    refine List.rel_append ?_ (ih hkeep)
    refine List.Forall₂.imp (fun r r' h => ?_) ((List.forall₂_and_left _ _).2 ⟨fun r hr => hr, hversions⟩)
    obtain ⟨hmem, hr⟩ := h
    rw [versionsAfter, versionsAfter_of_unwritten hrest (hstored r hmem), hnone (List.ne_nil_of_mem hmem),
      rebind_of_notMem (by simp), hr]

/-! ## Runs -/

variable [Field K] [LinearOrder K] (E : Elementary K)

theorem forwardRowTape_renamed (h : Renamed ρ used ops ops') (hheld : HeldBy ρ used) {active : Reg → Bool}
    (hkeep : KeepsOperands active ops) {regs regs' : Reg → K} (hagree : AgreesAlong ρ regs regs')
    (inputs : ReverseInputs K) :
    Outcomes (fun tape tape' => TapesAgree tape tape' ρ active ops ops' ∧ (∀ v ∈ used, tape' v = regs' v) ∧
        ∀ r, Unwritten r ops → tape r = regs r)
      (forwardRowTape E inputs ops regs) (forwardRowTape E inputs ops' regs') := by
  induction h generalizing active regs regs' with
  | nil => exact ⟨trivial, fun _ _ => rfl, fun _ _ => rfl⟩
  | @cons ρ used op op' ops ops' hop hfresh hclear hrest ih =>
    obtain ⟨hover, hreads, hslots, -, hkeep⟩ := hkeep
    simp only [forwardRowTape, List.foldlM_cons]
    refine (forwardOp_renamed E hop hagree hover hclear inputs).bind ?_
    rintro _ _ - - ⟨values, hlen, rfl, rfl⟩
    have hagree' := hagree.writes (nodup_destinations op) hop.length_eq (hheld.unheld hfresh) (nodup_destinations op')
      hlen.symm
    refine (ih (hheld.rebind hop) hkeep hagree').mono ?_
    rintro tape tape' ⟨htapes, hused, hlast⟩
    have hold : ∀ v ∈ used, tape' v = regs' v := fun v hv => by
      rw [hused v (List.mem_append_right _ hv), writes_of_notMem fun hmem => hfresh v hmem hv]
    have hunwritten : ∀ r, Unwritten r (op :: ops) → tape r = regs r := fun r hr => by
      rw [hlast r fun next hnext => hr next (by simp [hnext]), writes_of_notMem (hr op (by simp))]
    have hkept : ∀ r v, Unwritten r (op :: ops) → ρ r = some v → tape' v = tape r := fun r v hr hv => by
      rw [hold v (hheld r v hv), hagree r v hv, hunwritten r hr]
    exact ⟨⟨⟨fun read hmem ha r hr v hv => hkept r v (hreads read hmem ha r hr) hv,
      fun r hr v hv => hkept r v (hslots r hr) hv⟩, htapes⟩, hold, hunwritten⟩

/-- The backward passes leave the same cotangents, and carry the adjoints from the versions after the row to those before. -/
theorem reverseRowAdjoints_renamed (h : Renamed ρ used ops ops') (hinj : Injective ρ) (hheld : HeldBy ρ used)
    {active : Reg → Bool} (hkeep : KeepsOperands active ops) {tape tape' : Reg → K}
    (htapes : TapesAgree tape tape' ρ active ops ops') (s s' : Adjoints K) {after : Reg → Bool}
    (hafter : after = ops.foldl activeAfter active)
    (hcarries : Carries (versionsAfter ρ ops ops') (after ·) s.adj s'.adj) (hcot : s.cot = s'.cot) :
    Outcomes (fun t t' => Carries ρ (active ·) t.adj t'.adj ∧ t.cot = t'.cot) (reverseRowAdjoints E tape ops s)
      (reverseRowAdjoints E tape' ops' s') := by
  induction h generalizing active with
  | nil =>
    subst hafter
    exact ⟨hcarries, hcot⟩
  | @cons ρ used op op' ops ops' hop hfresh hclear hrest ih =>
    obtain ⟨hover, -, -, -, hkeep⟩ := hkeep
    obtain ⟨htape, htapes⟩ := htapes
    have hlater := ih (injective_step hinj hheld hop hfresh) (hheld.rebind hop) hkeep htapes hafter hcarries
    simp only [reverseRowAdjoints, List.reverse_cons, List.foldlM_append, List.foldlM_cons, List.foldlM_nil, bind_pure]
    refine hlater.bind fun t t' _ _ ht => ?_
    obtain ⟨hcarries, hcot⟩ := ht
    have hadj : opActive active op = true → (destinations op').map t'.adj = (destinations op).map t.adj := fun ha =>
      hcarries.map_eq (nodup_destinations op) hop.length_eq fun r hr => by rw [activeAfter, if_pos hr, ha]
    refine (reverseOp_renamed E hop htape hover hclear hadj hcot).mono ?_
    rintro u u' ⟨l, l', hmoved, hu, hu', hcot'⟩
    rw [hu, hu']
    refine ⟨(hcarries.consume hinj (nodup_destinations op) hop.length_eq (hheld.unheld hfresh) ?_).scatter hinj hmoved, hcot'⟩
    intro r hr ha
    rw [activeAfter, if_neg hr]
    exact ha

omit [LinearOrder K] in
/-- Seeding carries adjoints along the versions of what is stored. -/
theorem seedRowOutputAdjoints_renamed (hinj : Injective ρ) (active : Reg → Bool)
    (hstored : List.Forall₂ (fun r r' => ρ r = some r') (ops.flatMap storedOutputRegisters)
      (ops'.flatMap storedOutputRegisters)) (outputIndices : List Nat) (ordinal : Nat) (outputCotangents : List K)
    {adj adj' : Reg → K} (hcarries : Carries ρ (active ·) adj adj') :
    (seedRowOutputAdjoints ops outputIndices ordinal outputCotangents adj).1 =
        (seedRowOutputAdjoints ops' outputIndices ordinal outputCotangents adj').1 ∧
      Carries ρ (active ·) (seedRowOutputAdjoints ops outputIndices ordinal outputCotangents adj).2
        (seedRowOutputAdjoints ops' outputIndices ordinal outputCotangents adj').2 := by
  unfold seedRowOutputAdjoints
  generalize ops.flatMap storedOutputRegisters = rs, ops'.flatMap storedOutputRegisters = rs' at hstored ⊢
  induction hstored generalizing ordinal adj adj' with
  | nil => exact ⟨rfl, hcarries⟩
  | @cons r r' rs rs' hr _ ih =>
    rw [List.foldl_cons, List.foldl_cons]
    exact ih _ (hcarries.scatter hinj (.cons ⟨hr, fun _ => rfl⟩ .nil : Moved ρ (active ·) [(r, _)] [(r', _)]))

/-- What the rows of a block have in common with their renamings: the next ordinal, the cotangents, no adjoint left. -/
def Level (s s' : Nat × ReverseScratch K × ReverseCotangents K) : Prop :=
  s.1 = s'.1 ∧ s.2.1.adj = 0 ∧ s'.2.1.adj = 0 ∧ s.2.2 = s'.2.2

theorem reverseRow_renamed {row row' : ReverseRow K} (h : SingleAssignment row.ops row'.ops)
    (hkeep : KeepsOperands (fun _ => false) row.ops) (inputs : ReverseInputs K) (outputIndices : List Nat)
    (outputCotangents : List K) {s s' : Nat × ReverseScratch K × ReverseCotangents K} (hlevel : Level s s') :
    Outcomes Level (reverseRow E inputs outputIndices outputCotangents s row)
      (reverseRow E inputs outputIndices outputCotangents s' row') := by
  obtain ⟨hordinal, hadj, hadj', hcot⟩ := hlevel
  have hinj : Injective (fun _ => none : Reg → Option Reg) := fun _ _ _ h => (nomatch h)
  have hheld : HeldBy (fun _ => none) [] := fun _ _ h => (nomatch h)
  have hzero : ∀ {scratch : ReverseScratch K} {count : Nat}, scratch.adj = 0 → (scratch.prepare count).adj = 0 := by
    intro scratch count h
    funext r
    simp [ReverseScratch.prepare, h]
  unfold reverseRow
  refine (forwardRowTape_renamed E h hheld hkeep (fun _ _ h => (nomatch h)) inputs).bind ?_
  rintro tape tape' - - ⟨htapes, -, -⟩
  have hseed := seedRowOutputAdjoints_renamed (injective_versionsAfter h hinj hheld)
    (row.ops.foldl activeAfter fun _ => false) (stored_versions h hkeep) outputIndices s.1 outputCotangents
    (carries_zero _ _)
  rw [hzero hadj, hzero hadj', ← hordinal]
  obtain ⟨hnext, hcarries⟩ := hseed
  refine (reverseRowAdjoints_renamed E h hinj hheld hkeep htapes ⟨_, _, s.2.2⟩ ⟨_, _, s'.2.2⟩ rfl hcarries
    hcot).bind ?_
  rintro t t' - - ⟨hdone, hcot⟩
  exact ⟨hnext, funext fun r => hdone.empty r rfl, funext fun v => hdone.unused v fun _ h => (nomatch h), hcot⟩

end

end

/-! ## Two rows -/

/-- The rationals; a row of sums and products calls none of the other functions. -/
def rationals : Elementary ℚ where
  sqrt _ := 0
  floor x := ⌊x⌋
  ceil x := ⌈x⌉
  trunc x := if 0 ≤ x then ⌊x⌋ else ⌈x⌉
  round x := if 0 ≤ x then ⌊x + 1 / 2⌋ else ⌈x - 1 / 2⌉
  sin _ := 0
  cos _ := 0
  tan _ := 0
  asin _ := 0
  acos _ := 0
  atan _ := 0
  sinh _ := 0
  cosh _ := 0
  tanh _ := 0
  exp _ := 0
  ln _ := 0
  log10 _ := 0
  powf _ _ := 0
  atan2 _ _ := 0
  ln10 := 0
  toUsize x := ⌊x⌋.toNat

/-- A block of one row with one output, at `y`, for the output cotangent `1`, from a clear scratch. -/
def sweepRow (ops : List (LinearOp ℚ)) (registers : Nat) (y : ℚ) : Except EvalSolveError (ReverseCotangents ℚ) :=
  reverseScalarBlockVjp rationals [⟨ops, registers⟩] [0] 1 ⟨1, 0, 0⟩ ⟨[y], [], 0, none⟩ [1] ⟨[0], [], []⟩
    ⟨0, 0, fun _ => false⟩

/-- `r0 = y0; r1 = 3; r0 = r0 * r1; output = r0`. -/
def tripledRow : List (LinearOp ℚ) := [.loadY 0 0, .const 1 3, .binary 0 .mul 0 1, .storeOutput 0]

/-- `tripledRow` with a register for every write. -/
def tripledOnce : List (LinearOp ℚ) := [.loadY 0 0, .const 1 3, .binary 2 .mul 0 1, .storeOutput 2]

theorem tripled_singleAssignment : SingleAssignment tripledRow tripledOnce :=
  .cons (.loadY 0 0 0) (by decide) rfl (.cons (.const 1 1 3) (by decide) rfl
    (.cons (.binary 0 2 .mul rfl rfl) (by decide) rfl (.cons (.storeOutput rfl) (by decide) rfl (.nil _ _))))

/-- `r0 = y0; r0 = r0 * r0; output = r0`. -/
def squaredRow : List (LinearOp ℚ) := [.loadY 0 0, .binary 0 .mul 0 0, .storeOutput 0]

/-- `squaredRow` with a register for every write. -/
def squaredOnce : List (LinearOp ℚ) := [.loadY 0 0, .binary 1 .mul 0 0, .storeOutput 1]

end Rumoca.Eval
