import Rumoca.Lib.Hoisting
import Rumoca.Solve.DeadConstants
/-!
# Splitting a residual program

For the unknowns of one block a residual program is divided into operations
that no unknown reaches, evaluated once, and the others, evaluated at each
point over the registers that the first ones leave. An operation is invariant
when each register version that it reads is, when neither it nor a body that it
nests reads an unknown, and when nothing else writes its registers.
-/

namespace Rumoca.Solve

open Rumoca.Lib

variable {F : Type}

/-! ## Operations and their bodies -/

namespace LinearOp

mutual

/-- Whether `q` holds of an operation in the bodies of a fold or a conditional. -/
def anyNested (q : LinearOp F → Bool) : LinearOp F → Bool
  | .functionFold _ _ _ program | .guardedFunctionFold _ _ _ _ program | .storeOutputFunctionFold _ _ program .. =>
    anyInFold q program
  | .functionConditional _ _ program => anyInConditional q program
  | _ => false

def anyInOps (q : LinearOp F → Bool) : List (LinearOp F) → Bool
  | [] => false
  | op :: ops => q op || anyNested q op || anyInOps q ops

/-- The operations of `regions`. -/
def anyInFold (q : LinearOp F → Bool) : FunctionFoldProgram F → Bool
  | ⟨_, _, _, _, update, none⟩ => anyInOps q update
  | ⟨_, _, _, _, update, some ⟨_, ops⟩⟩ => anyInOps q update || anyInOps q ops

def anyInArms (q : LinearOp F → Bool) : List (FunctionConditionalArmProgram F) → Bool
  | [] => false
  | ⟨_, _, condition, result⟩ :: arms => anyInOps q condition || anyInOps q result || anyInArms q arms

def anyInConditional (q : LinearOp F → Bool) : FunctionConditionalProgram F → Bool
  | ⟨_, _, _, _, arms, _, fallback⟩ => anyInArms q arms || anyInOps q fallback

end

def readsUnknownHere (unknowns : List Nat) : LinearOp F → Bool
  | .loadY _ index => unknowns.contains index
  | .tensorLoad _ .y inputStart count _ _ =>
    unknowns.any fun unknown => inputStart ≤ unknown && unknown < min (inputStart + count) usizeMax
  | _ => false

def readsUnknown (unknowns : List Nat) (op : LinearOp F) : Bool :=
  readsUnknownHere unknowns op || anyNested (readsUnknownHere unknowns) op

def drawsRandom : LinearOp F → Bool
  | .randomInitialState .. | .randomResult .. | .randomState .. | .impureRandomInit .. | .impureRandom ..
  | .impureRandomInteger .. => true
  | _ => false

def repeatable (op : LinearOp F) : Bool :=
  !(op.drawsRandom || match op with
    | .loadSeed .. | .loadIndexedSeed .. | .storeOutput .. | .storeOutputRange .. | .storeOutputFunctionFold ..
    | .storeOutputFoldTensorUpdate .. => true
    | _ => false)

def readsSeed : LinearOp F → Bool
  | .loadSeed .. | .loadIndexedSeed .. | .tensorLoad _ _ _ _ (some _) _ => true
  | _ => false

/-- Takes nothing from the seed vector and, in its bodies, nothing from a random stream. -/
def Seedless (op : LinearOp F) : Prop :=
  op.readsSeed = false ∧ op.anyNested readsSeed = false ∧ op.anyNested drawsRandom = false

instance (op : LinearOp F) : Decidable op.Seedless := inferInstanceAs (Decidable (_ ∧ _ ∧ _))

end LinearOp

/-! ## The split -/

def countWrites (registerCount : Nat) (writes : Reg → Nat) (op : LinearOp F) : Option (Reg → Nat) :=
  match op.dstRegister with
  | none => some writes
  | some start =>
    if start + op.dstRegisterCount ≤ registerCount then
      some fun r => if start ≤ r ∧ r < start + op.dstRegisterCount then writes r + 1 else writes r
    else none

/-- `DefinedRegisters::set` on the destination of an operation. -/
def setDestination (hoisted : Reg → Bool) (op : LinearOp F) (invariant : Bool) (r : Reg) : Bool :=
  match op.dstRegister with
  | none => hoisted r
  | some start => if start ≤ r ∧ r < start + op.dstRegisterCount then invariant else hoisted r

def isInvariant (unknowns : List Nat) (writes : Reg → Nat) (hoisted : Reg → Bool) (index : Nat) (op : LinearOp F) : Bool :=
  (op.dstRegister.any fun start => (List.range' start op.dstRegisterCount).all fun r => writes r == 1) &&
    op.repeatable && !op.readsUnknown unknowns &&
    (firstFailure hoisted op.kindName index (opSources 2 none index op)).isNone

def invariantFrom (unknowns : List Nat) (writes : Reg → Nat) : List (LinearOp F) → (index : Nat) → (hoisted : Reg → Bool) →
    List Bool
  | [], _, _ => []
  | op :: rest, index, hoisted =>
    let invariant := isInvariant unknowns writes hoisted index op
    invariant :: invariantFrom unknowns writes rest (index + 1) (setDestination hoisted op invariant)

def invariantPositions (program : List (LinearOp F)) (unknowns : List Nat) (registerCount : Nat) : Option (List Bool) := do
  let writes ← program.foldlM (countWrites registerCount) fun _ => 0
  return invariantFrom unknowns writes program 0 fun _ => false

/-- The registers defined in a part, and those that it must be given. -/
structure LiveOutScan where
  defined : Reg → Bool
  liveOut : List Reg

def supplySources (supplied : Reg → Bool) (operation : String) (index : Nat) (checks : List SourceCheck) :
    (fuel : Nat) → LiveOutScan → Option LiveOutScan
  | 0, _ => none
  | fuel + 1, s =>
    match firstFailure s.defined operation index checks with
    | none => some s
    | some (.undefinedRegister _ _ register) =>
      if supplied register && !s.liveOut.contains register then
        supplySources supplied operation index checks fuel ⟨defineRange s.defined register 1, register :: s.liveOut⟩
      else none
    | some _ => none

def liveOutFrom (supplied : Reg → Bool) : List (LinearOp F) → (index : Nat) → LiveOutScan → Option LiveOutScan
  | [], _, s => some s
  | op :: rest, index, s => do
    let checks := opSources 2 none index op
    let s ← supplySources supplied op.kindName index checks (checks.length + 1) s
    liveOutFrom supplied rest (index + 1) { s with defined := setDestination s.defined op true }

def liveOutRegisters (dependent invariant : List (LinearOp F)) : Option (List Reg) :=
  let supplied := invariant.foldl (fun supplied op => setDestination supplied op true) fun _ => false
  (liveOutFrom supplied dependent 0 ⟨fun _ => false, []⟩).map fun s => sortDedup s.liveOut

structure BlockResidualSplit (F : Type) where
  invariant : List (LinearOp F)
  liveOut : List Reg
  dependent : List (LinearOp F)
  registerCount : Nat

namespace BlockResidualSplit

/-- The split of `program` for the block unknowns `unknowns`. -/
def derive (program : List (LinearOp F)) (unknowns : List Nat) : Option (BlockResidualSplit F) := do
  let registerCount ← (deriveRegisterFlow program).toOption
  let hoisted ← invariantPositions program unknowns registerCount
  if !hoisted.any id then none
  else
    let invariant := kept (program.zip hoisted)
    let dependent := remaining (program.zip hoisted)
    let liveOut ← liveOutRegisters dependent invariant
    return { invariant, liveOut, dependent, registerCount }

def invariantProgram (split : BlockResidualSplit F) : List (LinearOp F) :=
  split.invariant ++ split.liveOut.map .storeOutput

/-- The dependent part with the live-out values in the seed vector from `offset` on. -/
def dependentProgram (split : BlockResidualSplit F) (offset : Nat) : List (LinearOp F) :=
  (split.liveOut.zipIdx.map fun live => .loadSeed live.1 (offset + live.2)) ++ split.dependent

end BlockResidualSplit

/-! ## The flags -/

theorem setDestination_eq (hoisted : Reg → Bool) (op : LinearOp F) (invariant : Bool) (r : Reg) :
    setDestination hoisted op invariant r = if r ∈ op.destination then invariant else hoisted r := by
  cases hdst : op.dstRegister with
  | none => simp [setDestination, hdst, LinearOp.destination_none hdst]
  | some start => simp only [setDestination, hdst, LinearOp.mem_destination hdst]

theorem countWrites_spec {registerCount : Nat} {writes writes' : Reg → Nat} {op : LinearOp F}
    (h : countWrites registerCount writes op = some writes') :
    (∀ start, op.dstRegister = some start → start + op.dstRegisterCount ≤ registerCount) ∧
      ∀ r, writes' r = writes r + if r ∈ op.destination then 1 else 0 := by
  cases hdst : op.dstRegister with
  | none =>
    simp only [countWrites, hdst, Option.some.injEq] at h
    subst h
    exact ⟨by simp, by simp [LinearOp.destination_none hdst]⟩
  | some start =>
    simp only [countWrites, hdst] at h
    split at h
    · next hle =>
      cases h
      refine ⟨fun start' hstart' => by cases hstart'; exact hle, fun r => ?_⟩
      simp only [LinearOp.mem_destination hdst]
      split <;> rfl
    · cases h

theorem foldlM_countWrites {registerCount : Nat} {p : List (LinearOp F)} {writes writes' : Reg → Nat}
    (h : p.foldlM (countWrites registerCount) writes = some writes') :
    (∀ op ∈ p, ∀ start, op.dstRegister = some start → start + op.dstRegisterCount ≤ registerCount) ∧
      ∀ r, writes' r = writes r + p.countP (r ∈ ·.destination) := by
  induction p generalizing writes with
  | nil =>
    cases h
    simp
  | cons op rest ih =>
    rw [List.foldlM_cons] at h
    obtain ⟨w, hw, h⟩ := Option.bind_eq_some_iff.1 h
    obtain ⟨hop, hcount⟩ := countWrites_spec hw
    obtain ⟨hrest, hcounts⟩ := ih h
    refine ⟨List.forall_mem_cons.2 ⟨hop, hrest⟩, fun r => ?_⟩
    rw [hcounts, hcount, List.countP_cons]
    simp only [decide_eq_true_eq]
    omega

/-- What an invariant operation satisfies. -/
structure Invariant (unknowns : List Nat) (writes : Reg → Nat) (op : LinearOp F) : Prop where
  once : ∀ r ∈ op.destination, writes r = 1
  repeatable : op.repeatable = true
  known : op.readsUnknown unknowns = false

theorem isInvariant_spec {unknowns : List Nat} {writes : Reg → Nat} {hoisted : Reg → Bool} {index : Nat} {op : LinearOp F}
    (h : isInvariant unknowns writes hoisted index op = true) :
    Invariant unknowns writes op ∧ ∀ r ∈ op.sources, hoisted r = true := by
  simp only [isInvariant, Bool.and_eq_true, Bool.not_eq_true', Option.isNone_iff_eq_none] at h
  obtain ⟨⟨⟨honce, hrepeatable⟩, hknown⟩, hsources⟩ := h
  refine ⟨⟨fun r hr => ?_, hrepeatable, hknown⟩, fun r hr => ?_⟩
  · cases hdst : op.dstRegister with
    | none => simp [LinearOp.destination_none hdst] at hr
    | some start =>
      rw [LinearOp.destination, hdst] at hr
      rw [hdst, Option.any_some, List.all_eq_true] at honce
      exact beq_iff_eq.1 (honce r hr)
  · obtain ⟨registers, hcollected, hregisters⟩ := firstFailure_eq_none_iff.1 hsources
    rw [LinearOp.sources, collected_opSources 2 none 0 index, hcollected] at hr
    exact hregisters r hr

theorem invariantFrom_length (unknowns : List Nat) (writes : Reg → Nat) (p : List (LinearOp F)) (index : Nat)
    (hoisted : Reg → Bool) : (invariantFrom unknowns writes p index hoisted).length = p.length := by
  induction p generalizing index hoisted with
  | nil => rfl
  | cons op rest ih => simp [invariantFrom, ih]

theorem invariantFrom_spec {unknowns : List Nat} {writes : Reg → Nat} {p : List (LinearOp F)} {index : Nat}
    {hoisted : Reg → Bool} {a : LinearOp F × Bool} (ha : a ∈ p.zip (invariantFrom unknowns writes p index hoisted))
    (h : a.2 = true) : Invariant unknowns writes a.1 := by
  induction p generalizing index hoisted with
  | nil => cases ha
  | cons op rest ih =>
    rw [invariantFrom, List.zip_cons_cons] at ha
    rcases List.mem_cons.1 ha with rfl | ha
    · exact (isInvariant_spec h).1
    · exact ih ha

/-- The flags divide the program as `Hoists` asks. A held register has the version of an invariant
operation now, or it will have it. -/
theorem hoists_invariantFrom {unknowns : List Nat} {writes : Reg → Nat} {held defined : Nat → Prop}
    {p : List (LinearOp F)} {index : Nat} {hoisted : Reg → Bool}
    (hheld : ∀ r, held r ↔ hoisted r = true ∨
      ∃ a ∈ p.zip (invariantFrom unknowns writes p index hoisted), a.2 = true ∧ r ∈ a.1.destination)
    (hhoisted : ∀ r, hoisted r = true → defined r ∧ writes r = 1) (hcount : ∀ r, p.countP (r ∈ ·.destination) ≤ writes r)
    (hdefined : ∀ r, defined r → p.countP (r ∈ ·.destination) + 1 ≤ writes r) :
    (accesses F).Hoists held defined (p.zip (invariantFrom unknowns writes p index hoisted)) := by
  induction p generalizing index hoisted defined with
  | nil => trivial
  | cons op rest ih =>
    simp only [List.countP_cons, decide_eq_true_eq] at hcount hdefined
    rw [invariantFrom, List.zip_cons_cons] at hheld ⊢
    have hlast : ∀ r ∈ op.destination, ∀ a ∈ rest.zip (invariantFrom unknowns writes rest (index + 1)
        (setDestination hoisted op (isInvariant unknowns writes hoisted index op))), a.2 = true →
        r ∈ a.1.destination → False := by
      intro r hr a ha hinvariant hmem
      have hone := (invariantFrom_spec ha hinvariant).once r hmem
      have hpos : 0 < rest.countP (r ∈ ·.destination) :=
        List.countP_pos_iff.2 ⟨a.1, (List.of_mem_zip ha).1, by simpa using hmem⟩
      have := hcount r
      rw [if_pos hr] at this
      omega
    have hcount' : ∀ r, rest.countP (r ∈ ·.destination) ≤ writes r := fun r => (Nat.le_add_right _ _).trans (hcount r)
    have hdefined' : ∀ r, defined r ∨ r ∈ op.destination → rest.countP (r ∈ ·.destination) + 1 ≤ writes r := by
      rintro r (hr | hr)
      · have := hdefined r hr
        omega
      · have := hcount r
        rw [if_pos hr] at this
        omega
    cases hinvariant : isInvariant unknowns writes hoisted index op with
    | true =>
      obtain ⟨hop, hsources⟩ := isInvariant_spec hinvariant
      rw [hinvariant] at hheld hlast
      refine ⟨fun r hr => ⟨(hheld r).2 (.inl (hsources r hr)), (hhoisted r (hsources r hr)).1⟩, fun r hr => ⟨?_, ?_⟩,
        ih (fun r => ?_) (fun r hr => ?_) hcount' hdefined'⟩
      · exact (hheld r).2 (.inr ⟨_, List.mem_cons_self, rfl, hr⟩)
      · intro hd
        have hone := hop.once r hr
        have := hdefined r hd
        rw [if_pos (show r ∈ op.destination from hr)] at this
        omega
      · rw [hheld, setDestination_eq, List.exists_mem_cons_iff]
        by_cases hr : r ∈ op.destination <;> simp [hr]
      · rw [setDestination_eq] at hr
        split at hr
        · next hmem => exact ⟨.inr hmem, hop.once r hmem⟩
        · exact (hhoisted r hr).imp_left .inl
    | false =>
      rw [hinvariant] at hheld hlast
      have hkeep : ∀ r ∈ op.destination, ¬ held r := by
        intro r hr h
        rcases (hheld r).1 h with hr' | ⟨a, ha, hflag, hmem⟩
        · obtain ⟨hd, hone⟩ := hhoisted r hr'
          have := hdefined r hd
          rw [if_pos hr] at this
          omega
        · rcases List.mem_cons.1 ha with rfl | ha
          · cases hflag
          · exact hlast r hr a ha hflag hmem
      refine ⟨hkeep, ih (fun r => ?_) (fun r hr => ?_) hcount' hdefined'⟩
      · by_cases hr : r ∈ op.destination
        · refine iff_of_false (hkeep r hr) ?_
          rw [setDestination_eq, if_pos hr]
          rintro (h | ⟨a, ha, hflag, hmem⟩)
          · cases h
          · exact hlast r hr a ha hflag hmem
        · rw [hheld, setDestination_eq, if_neg hr, List.exists_mem_cons_iff]
          simp
      · rw [setDestination_eq] at hr
        split at hr
        · cases hr
        · exact (hhoisted r hr).imp_left .inl

/-! ## The live-out registers -/

theorem supplySources_spec {supplied : Reg → Bool} (operation : String) (index : Nat) {checks : List SourceCheck}
    {sources : List Reg} (hcollected : collected checks = some sources) {fuel : Nat} {s : LiveOutScan}
    (hsupplied : ∀ r ∈ sources, s.defined r = false → supplied r = true) (hlive : ∀ r ∈ s.liveOut, s.defined r = true)
    (hfuel : (sources.filter (!s.defined ·)).length < fuel) :
    ∃ s', supplySources supplied operation index checks fuel s = some s' ∧
      (∀ r, s'.defined r = true ↔ s.defined r = true ∨ r ∈ sources) ∧
      ∀ r, r ∈ s'.liveOut ↔ r ∈ s.liveOut ∨ (r ∈ sources ∧ s.defined r = false) := by
  induction fuel generalizing s with
  | zero => omega
  | succ fuel ih =>
    cases hfail : firstFailure s.defined operation index checks with
    | none =>
      obtain ⟨registers, hregisters, hdefined⟩ := firstFailure_eq_none_iff.1 hfail
      cases hcollected.symm.trans hregisters
      refine ⟨s, by simp only [supplySources, hfail], fun r => ?_, fun r => ?_⟩
      · exact ⟨.inl, fun h => h.elim id (hdefined r)⟩
      · refine ⟨.inl, fun h => h.elim id ?_⟩
        rintro ⟨hmem, hr⟩
        exact absurd (hdefined r hmem) (by simp [hr])
    | some error =>
      obtain ⟨register, hmem, hundefined, rfl⟩ := firstFailure_undefined hcollected hfail
      have hone : ∀ r, defineRange s.defined register 1 r = true ↔ s.defined r = true ∨ r = register :=
        defineRange_one s.defined register
      have hother : ∀ r, defineRange s.defined register 1 r = false ↔ s.defined r = false ∧ r ≠ register := by
        intro r
        rw [← Bool.not_eq_true, hone, not_or, Bool.not_eq_true]
      have hnew : register ∉ s.liveOut := fun h => by simp [hlive register h] at hundefined
      have hsub : sources.filter (!defineRange s.defined register 1 ·) =
          (sources.filter (!s.defined ·)).filter (· ≠ register) := by
        rw [List.filter_filter]
        refine List.filter_congr fun r _ => ?_
        rw [Bool.eq_iff_iff]
        simp only [Bool.not_eq_true', hother, Bool.and_eq_true, decide_eq_true_eq]
        tauto
      have hless : (sources.filter (!defineRange s.defined register 1 ·)).length < fuel := by
        refine lt_of_lt_of_le ?_ (Nat.le_of_lt_succ hfuel)
        rw [hsub]
        refine List.length_filter_lt_length_iff_exists.2 ⟨register, ?_, by simp⟩
        exact List.mem_filter.2 ⟨hmem, by simp [hundefined]⟩
      obtain ⟨s', hs', hdefined, hliveOut⟩ := ih (s := ⟨defineRange s.defined register 1, register :: s.liveOut⟩)
        (fun r hr h => hsupplied r hr ((hother r).1 h).1)
        (List.forall_mem_cons.2 ⟨(hone register).2 (.inr rfl), fun r hr => (hone r).2 (.inl (hlive r hr))⟩) hless
      refine ⟨s', ?_, fun r => ?_, fun r => ?_⟩
      · simp only [supplySources, hfail]
        rw [if_pos (by simpa [hsupplied register hmem hundefined] using hnew)]
        exact hs'
      · rw [hdefined, hone]
        constructor
        · rintro ((hr | rfl) | hr)
          · exact .inl hr
          · exact .inr hmem
          · exact .inr hr
        · exact fun h => h.imp_left .inl
      · rw [hliveOut, hother, List.mem_cons]
        by_cases hr : r = register
        · subst hr
          simp [hmem, hundefined]
        · simp [hr]

theorem liveOutFrom_spec {supplied : Reg → Bool} {p : List (LinearOp F)} (hshape : ∀ op ∈ p, op.WellShaped) (index : Nat)
    {s : LiveOutScan} (hsupplied : ∀ r, (accesses F).ReadNext p r → s.defined r = false → supplied r = true)
    (hlive : ∀ r ∈ s.liveOut, s.defined r = true) :
    ∃ s', liveOutFrom supplied p index s = some s' ∧
      ∀ r, r ∈ s'.liveOut ↔ r ∈ s.liveOut ∨ (s.defined r = false ∧ (accesses F).ReadNext p r) := by
  induction p generalizing index s with
  | nil => exact ⟨s, rfl, fun r => by simp [Accesses.ReadNext]⟩
  | cons op rest ih =>
    have hcollected := (hshape op List.mem_cons_self).collected index
    obtain ⟨t, ht, hdefined, hliveOut⟩ := supplySources_spec op.kindName index hcollected
      (fun r hr => hsupplied r (.inl hr)) hlive
      (Nat.lt_succ_of_le ((List.length_filter_le _ op.sources).trans (collected_length hcollected).le))
    have hafter : ∀ r, setDestination t.defined op true r = false ↔
        s.defined r = false ∧ r ∉ op.sources ∧ r ∉ op.destination := by
      intro r
      rw [← Bool.not_eq_true, setDestination_eq]
      split
      · next h => simp [h]
      · next h => simp [h, hdefined]
    obtain ⟨s', hs', hmem⟩ := ih (fun o ho => hshape o (List.mem_cons_of_mem op ho)) (index + 1)
      (s := { t with defined := setDestination t.defined op true })
      (fun r hr h => hsupplied r (.inr ⟨((hafter r).1 h).2.2, hr⟩) ((hafter r).1 h).1) fun r hr => by
        rw [← Bool.not_eq_false, hafter]
        rintro ⟨hundefined, hsource, -⟩
        rcases (hliveOut r).1 hr with hr | ⟨hr, -⟩
        · simp [hlive r hr] at hundefined
        · exact hsource hr
    refine ⟨s', ?_, fun r => ?_⟩
    · simp only [liveOutFrom, ht]
      exact hs'
    · rw [hmem, hliveOut, hafter]
      have hsources : r ∈ (accesses F).reads op ↔ r ∈ op.sources := Iff.rfl
      have hdestination : r ∈ (accesses F).writes op ↔ r ∈ op.destination := Iff.rfl
      rw [Accesses.ReadNext, hsources, hdestination]
      tauto

theorem foldl_setDestination (p : List (LinearOp F)) (supplied : Reg → Bool) (r : Reg) :
    p.foldl (fun supplied op => setDestination supplied op true) supplied r = true ↔
      supplied r = true ∨ ∃ op ∈ p, r ∈ op.destination := by
  induction p generalizing supplied with
  | nil => simp
  | cons op rest ih =>
    rw [List.foldl_cons, ih, setDestination_eq, List.exists_mem_cons_iff]
    split
    · next h => simp [h]
    · next h => simp [h]

theorem liveOutRegisters_spec {dependent invariant : List (LinearOp F)} (hshape : ∀ op ∈ dependent, op.WellShaped)
    (hsupplied : ∀ r, (accesses F).ReadNext dependent r → ∃ op ∈ invariant, r ∈ op.destination) :
    ∃ liveOut, liveOutRegisters dependent invariant = some liveOut ∧ liveOut.Nodup ∧
      ∀ r, r ∈ liveOut ↔ (accesses F).ReadNext dependent r := by
  obtain ⟨s, hs, hmem⟩ := liveOutFrom_spec hshape 0 (s := ⟨fun _ => false, []⟩)
    (fun r hr _ => (foldl_setDestination invariant (fun _ => false) r).2 (.inr (hsupplied r hr))) (by simp)
  refine ⟨sortDedup s.liveOut, by simp only [liveOutRegisters, hs, Option.map_some], ?_, fun r => ?_⟩
  · exact (sortDedup_sorted s.liveOut).imp fun h => Nat.ne_of_lt h
  · rw [mem_sortDedup, hmem]
    simp

/-! ## What a derived split is -/

/-- A derived split, by the flags that divide the program. -/
structure Divides (unknowns : List Nat) (p : List (LinearOp F)) (split : BlockResidualSplit F) (held : Nat → Prop)
    (q : Flagged (LinearOp F)) : Prop where
  operations : q.map (·.1) = p
  invariant : split.invariant = kept q
  dependent : split.dependent = remaining q
  hoists : (accesses F).Hoists held (fun _ => False) q
  written : ∀ r, held r ↔ ∃ op ∈ kept q, r ∈ op.destination
  constant : ∀ a ∈ q, a.2 = true → a.1.repeatable = true ∧ a.1.readsUnknown unknowns = false
  live : ∀ r, r ∈ split.liveOut ↔ (accesses F).ReadNext (remaining q) r
  supplied : ∀ r ∈ split.liveOut, held r
  nodup : split.liveOut.Nodup

theorem exists_kept_iff {q : Flagged (LinearOp F)} {r : Reg} :
    (∃ op ∈ kept q, r ∈ op.destination) ↔ ∃ a ∈ q, a.2 = true ∧ r ∈ a.1.destination := by
  simp only [kept, List.mem_map, List.mem_filter]
  constructor
  · rintro ⟨_, ⟨a, ⟨ha, hflag⟩, rfl⟩, hr⟩
    exact ⟨a, ha, hflag, hr⟩
  · rintro ⟨a, ha, hflag, hr⟩
    exact ⟨a.1, ⟨a, ⟨ha, hflag⟩, rfl⟩, hr⟩

theorem derive_divides {p : List (LinearOp F)} {unknowns : List Nat} {split : BlockResidualSplit F}
    (h : BlockResidualSplit.derive p unknowns = some split) :
    FlowValid p ∧ ∃ held q, Divides unknowns p split held q := by
  simp only [BlockResidualSplit.derive, invariantPositions, Option.bind_eq_bind, Option.bind_eq_some_iff,
    Option.pure_def, Option.some.injEq] at h
  obtain ⟨registerCount, hcount, flags, ⟨writes, hwrites, rfl⟩, h⟩ := h
  have hvalid : FlowValid p := by
    rw [FlowValid]
    cases hp : deriveRegisterFlow p with
    | ok => rfl
    | error => simp [hp, Except.toOption] at hcount
  obtain ⟨hshape, hflow⟩ := (flowValid_iff p).1 hvalid
  refine ⟨hvalid, ?_⟩
  split at h
  · cases h
  · obtain ⟨-, hwrites⟩ := foldlM_countWrites hwrites
    obtain ⟨q, hq⟩ : ∃ q, q = p.zip (invariantFrom unknowns writes p 0 fun _ => false) := ⟨_, rfl⟩
    rw [← hq] at h
    have hoperations : q.map (·.1) = p := by
      rw [hq, List.map_fst_zip]
      exact (invariantFrom_length unknowns writes p 0 _).ge
    have hwritten : ∀ op ∈ kept q, ∀ r ∈ (accesses F).writes op, ∃ op ∈ kept q, r ∈ op.destination :=
      fun op hop r hr => ⟨op, hop, hr⟩
    have hsupplied : ∀ r, (accesses F).ReadNext (remaining q) r → ∃ op ∈ kept q, r ∈ op.destination := by
      intro r hr
      rw [← hoperations] at hflow
      exact Accesses.held_of_readNext hflow (fun r (h : False) => (h.elim : _ ∨ False)) hwritten hr id
    have hremaining : ∀ op ∈ remaining q, op.WellShaped := by
      intro op hop
      obtain ⟨a, ha, rfl⟩ := List.mem_map.1 hop
      exact hshape a.1 (hoperations ▸ List.mem_map_of_mem (List.mem_filter.1 ha).1)
    obtain ⟨liveOut, hliveOut, hnodup, hlive⟩ := liveOutRegisters_spec hremaining hsupplied
    rw [hliveOut] at h
    cases h
    refine ⟨_, q, hoperations, rfl, rfl, ?_, fun r => Iff.rfl, fun a ha hflag => ?_, hlive,
      fun r hr => hsupplied r ((hlive r).1 hr), hnodup⟩
    · rw [hq]
      refine hoists_invariantFrom (fun r => ?_) (by simp) (fun r => by rw [hwrites, Nat.zero_add]) (fun _ h => h.elim)
      rw [← hq, exists_kept_iff]
      simp
    · obtain ⟨-, hrepeatable, hknown⟩ := invariantFrom_spec (hq ▸ ha) hflag
      exact ⟨hrepeatable, hknown⟩

/-! ## Evaluation in two stages -/

/-- What operations read besides registers: the solver's Y, the seed vector, and the rest (time, parameters, tables). -/
structure ProgramInputs (V E : Type) where
  y : Nat → V
  seed : Nat → V
  rest : E

/-- What the operations compute from the inputs. The world is what they change besides registers. -/
structure InputSemantics (F V E W : Type) where
  run : LinearOp F → ProgramInputs V E → W → List V → Option (Outcome V W)
  run_length : ∀ op x w vs r, run op x w vs = some r → r.written.length = op.destination.length
  run_loadSeed : ∀ dst index x w, run (.loadSeed dst index) x w [] = some ⟨[x.seed index], [], w⟩
  run_storeOutput : ∀ src x w v, run (.storeOutput src) x w [v] = some ⟨[], [v], w⟩
  /-- Only the operations that name the seed vector, or have a body that does, read it. -/
  run_seed : ∀ op x seed, op.readsSeed = false → op.anyNested LinearOp.readsSeed = false →
    run op { x with seed } = run op x
  /-- Only the operations that name an unknown, or have a body that does, read it. -/
  run_y : ∀ op unknowns x y, op.readsUnknown unknowns = false → (∀ i, i ∉ unknowns → y i = x.y i) →
    run op { x with y } = run op x
  /-- A repeatable operation leaves the world and computes the same in any. -/
  run_repeatable : ∀ op x, op.repeatable = true → op.anyNested LinearOp.drawsRandom = false →
    ∃ f : List V → Option (List V), ∀ w vs, run op x w vs = (f vs).map fun written => ⟨written, [], w⟩

namespace InputSemantics

variable {V E W : Type} (S : InputSemantics F V E W)

def instructions (x : ProgramInputs V E) : Instructions (LinearOp F) V (List V × W) where
  toAccesses := accesses F
  run op s vs := (S.run op x s.2 vs).map fun r => (r.written, (s.1 ++ r.stored, r.world))
  run_length op s vs r hr := by
    obtain ⟨outcome, houtcome, rfl⟩ := Option.map_eq_some_iff.1 hr
    exact S.run_length op x s.2 vs outcome houtcome

/-- The outputs that a program stores, in order, and the world that it leaves. -/
def execute (p : List (LinearOp F)) (x : ProgramInputs V E) (w : W) : Option (List V × W) :=
  ((S.instructions x).execute p (fun _ => none, ([], w))).map (·.2)

theorem execute_inputs {x x' : ProgramInputs V E} {p : List (LinearOp F)} (h : ∀ op ∈ p, S.run op x = S.run op x') :
    (S.instructions x).execute p = (S.instructions x').execute p := by
  refine Instructions.execute_congr (S.instructions x) (S.instructions x') rfl fun op hop => ?_
  simp only [instructions, h op hop]

theorem steady {x : ProgramInputs V E} {op : LinearOp F} (hrepeatable : op.repeatable = true) (hseed : op.Seedless) :
    (S.instructions x).Steady op := by
  obtain ⟨f, hf⟩ := S.run_repeatable op x hrepeatable hseed.2.2
  refine ⟨f, fun s vs => ?_⟩
  simp only [instructions, hf]
  cases f vs <;> simp

theorem step_storeOutput (x : ProgramInputs V E) {s : (Nat → Option V) × List V × W} {register : Reg} {v : V}
    (h : s.1 register = some v) :
    (S.instructions x).step s (.storeOutput register) = some (s.1, (s.2.1 ++ [v], s.2.2)) := by
  have hreads : ((S.instructions x).reads (.storeOutput register)).mapM s.1 = some [v] := by
    change [register].mapM s.1 = some [v]
    simp [h]
  have hrun : (S.instructions x).run (.storeOutput register) s.2 [v] = some ([], (s.2.1 ++ [v], s.2.2)) := by
    simp [instructions, S.run_storeOutput]
  have hwrites : (S.instructions x).writes (.storeOutput register) = [] := rfl
  rw [Instructions.step_eq_bind, hreads, Option.bind_some, hrun, hwrites]
  have hnone : Instructions.writeAll s.1 [] [] = s.1 := by
    funext r
    simp [Instructions.writeAll]
  rw [Option.map_some, hnone]

theorem step_loadSeed (x : ProgramInputs V E) (s : (Nat → Option V) × List V × W) (register : Reg) (index : Nat) :
    (S.instructions x).step s (.loadSeed register index) =
      some (Instructions.writeAll s.1 [register] [x.seed index], s.2) := by
  have hreads : ((S.instructions x).reads (.loadSeed register index)).mapM s.1 = some [] := rfl
  have hrun : (S.instructions x).run (.loadSeed register index) s.2 [] = some ([x.seed index], s.2) := by
    simp [instructions, S.run_loadSeed]
  have hwrites : (S.instructions x).writes (.loadSeed register index) = [register] := rfl
  rw [Instructions.step_eq_bind, hreads, Option.bind_some, hrun, hwrites]
  rfl

theorem execute_stores (x : ProgramInputs V E) {registers : List Reg} {s : (Nat → Option V) × List V × W} {values : List V}
    (h : registers.mapM s.1 = some values) :
    (S.instructions x).execute (registers.map .storeOutput) s = some (s.1, (s.2.1 ++ values, s.2.2)) := by
  induction registers generalizing s values with
  | nil =>
    cases h
    simp [Instructions.execute]
  | cons register rest ih =>
    rw [List.mapM_cons] at h
    obtain ⟨v, hv, h⟩ := Option.bind_eq_some_iff.1 h
    obtain ⟨vs, hvs, h⟩ := Option.bind_eq_some_iff.1 h
    cases h
    rw [List.map_cons, Instructions.execute_cons, S.step_storeOutput x hv, Option.bind_some,
      ih (s := (s.1, (s.2.1 ++ [v], s.2.2))) hvs]
    simp

omit S in
theorem getElem?_mapM {registers : Nat → Option V} {rs : List Nat} {vs : List V} (h : rs.mapM registers = some vs)
    {i : Nat} {r : Nat} (hr : rs[i]? = some r) : ∃ v, vs[i]? = some v ∧ registers r = some v := by
  induction rs generalizing vs i with
  | nil => simp at hr
  | cons first rest ih =>
    rw [List.mapM_cons] at h
    obtain ⟨v, hv, h⟩ := Option.bind_eq_some_iff.1 h
    obtain ⟨vs', hvs, h⟩ := Option.bind_eq_some_iff.1 h
    cases h
    cases i with
    | zero =>
      obtain rfl : first = r := by simpa using hr
      exact ⟨v, rfl, hv⟩
    | succ i => exact ih hvs hr

theorem execute_loads (x : ProgramInputs V E) (offset : Nat) {registers : List Reg} (hnodup : registers.Nodup) (start : Nat)
    (s : (Nat → Option V) × List V × W) :
    ∃ t, (S.instructions x).execute ((registers.zipIdx start).map fun live => .loadSeed live.1 (offset + live.2)) s =
        some (t, s.2) ∧
      (∀ r, r ∉ registers → t r = s.1 r) ∧
      ∀ (i : Nat) r, registers[i]? = some r → t r = some (x.seed (offset + (start + i))) := by
  induction registers generalizing start s with
  | nil => exact ⟨s.1, rfl, fun _ _ => rfl, by simp⟩
  | cons register rest ih =>
    obtain ⟨hregister, hnodup⟩ := List.nodup_cons.1 hnodup
    obtain ⟨t, ht, hkeep, hload⟩ := ih hnodup (start + 1) (Instructions.writeAll s.1 [register] [x.seed (offset + start)], s.2)
    refine ⟨t, ?_, fun r hr => ?_, fun i r hr => ?_⟩
    · rw [List.zipIdx_cons, List.map_cons, Instructions.execute_cons, S.step_loadSeed, Option.bind_some, ht]
    · rw [List.mem_cons, not_or] at hr
      rw [hkeep r hr.2]
      exact if_neg (by simpa using hr.1)
    · cases i with
      | zero =>
        cases hr
        rw [hkeep _ hregister]
        simp [Instructions.writeAll]
      | succ i =>
        rw [hload i r hr]
        congr 3
        omega

theorem map_execute_append (p q : List (LinearOp F)) (x : ProgramInputs V E) (s : (Nat → Option V) × List V × W) :
    ((S.instructions x).execute (p ++ q) s).map (·.2) =
      ((S.instructions x).execute p s).bind fun t => ((S.instructions x).execute q t).map (·.2) := by
  rw [Instructions.execute_append]
  cases (S.instructions x).execute p s <;> rfl

end InputSemantics

/-- Loads, sums and products over natural numbers; the parameters are the rest of the inputs. -/
def residualRun (op : LinearOp Nat) (x : ProgramInputs Nat (Nat → Nat)) (vs : List Nat) : Option (Outcome Nat Unit) :=
  match op with
  | .loadY _ index => some ⟨[x.y index], [], ()⟩
  | .loadP _ index => some ⟨[x.rest index], [], ()⟩
  | .loadSeed _ index => some ⟨[x.seed index], [], ()⟩
  | .binary _ operator _ _ => some ⟨[if operator = .mul then vs.prod else vs.sum], [], ()⟩
  | .storeOutput _ => some ⟨[], vs, ()⟩
  | _ => none

def residualSemantics : InputSemantics Nat Nat (Nat → Nat) Unit where
  run op x _ vs := residualRun op x vs
  run_length op x _ vs r h := by
    unfold residualRun at h
    split at h <;> cases h <;> rfl
  run_loadSeed _ _ _ _ := rfl
  run_storeOutput _ _ _ _ := rfl
  run_seed op x seed hown _ := by
    cases op <;> first | rfl | cases hown
  run_y op unknowns x y hknown hy := by
    cases op with
    | loadY dst index =>
      have hindex : index ∉ unknowns := by
        simpa [LinearOp.readsUnknown, LinearOp.readsUnknownHere, LinearOp.anyNested] using hknown
      simp only [residualRun, hy index hindex]
    | _ => rfl
  run_repeatable op x hrepeatable _ := by
    refine ⟨fun vs => (residualRun op x vs).map (·.written), fun _ vs => ?_⟩
    cases op with
    | storeOutput => cases hrepeatable
    | _ => rfl

/-- `p₀² + y₀`, with `y₀` unknown. -/
def squarePlus : List (LinearOp Nat) :=
  [.loadP 0 0, .binary 1 .mul 0 0, .loadY 2 0, .binary 3 .add 1 2, .storeOutput 3]

end Rumoca.Solve
