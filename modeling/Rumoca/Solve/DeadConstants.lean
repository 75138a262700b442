import Rumoca.Solve.RegisterReads
/-!
# Removal of unread literals and scalar arithmetic

`pruneDeadConstants` drops the constants, unary and binary operations whose
register no later operation reads before it is redefined, until nothing
changes. It finds the reads by letting the source checks fail: a prunable
operation leaves its register pending, and a check that fails on a pending
register marks the operation live and makes the register initialised. The
register is never taken out of the initialised ones again, so no check fails on
its next definition: `livePureOps_iff` says exactly which operations are marked.
`RedefinesUsed` are the programs where this drops a definition that is read.
-/

namespace Rumoca.Solve

open Rumoca.Lib

variable {F : Type}

def prunable (op : LinearOp F) : Bool :=
  (match op with
  | .const .. | .unary .. | .binary .. => true
  | _ => false) && op.faultClass.isPrunable

/-- Which operations are live so far, which registers are initialised, and the
prunable operation that defines each pending register. -/
structure LiveScan where
  live : List Bool
  initialized : Reg → Bool
  pending : Reg → Option Nat

def LiveScan.mark (s : LiveScan) (register : Reg) (defining : Nat) : LiveScan where
  live := s.live.set defining true
  initialized := defineRange s.initialized register 1
  pending := Function.update s.pending register none

def markSources (operation : String) (opIndex : Nat) (checks : List SourceCheck) : (fuel : Nat) → LiveScan → Option LiveScan
  | 0, _ => none
  | fuel + 1, s =>
    match firstFailure s.initialized operation opIndex checks with
    | none => some s
    | some (.undefinedRegister _ _ register) =>
      match s.pending register with
      | none => none
      | some defining => markSources operation opIndex checks fuel (s.mark register defining)
    | some _ => none

/-- The registers that the operation writes are no longer pending but for its own definition. -/
def define (opIndex : Nat) (op : LinearOp F) (s : LiveScan) : LiveScan :=
  match op.dstRegister with
  | none => s
  | some dst =>
    let pending := fun r => if dst ≤ r ∧ r < dst + op.dstRegisterCount then none else s.pending r
    if prunable op then { s with pending := Function.update pending dst (some opIndex) }
    else { s with pending, initialized := defineRange s.initialized dst op.dstRegisterCount }

def liveFrom : List (LinearOp F) → (opIndex : Nat) → LiveScan → Option LiveScan
  | [], _, s => some s
  | op :: rest, opIndex, s => do
    let checks := opSources 2 none opIndex op
    let s ← markSources op.kindName opIndex checks (checks.length + 1) s
    liveFrom rest (opIndex + 1) (define opIndex op s)

def livePureOps (p : List (LinearOp F)) : Option (List Bool) :=
  (liveFrom p 0 ⟨p.map fun op => !prunable op, fun _ => false, fun _ => none⟩).map (·.live)

/-- The rounds of `prune_dead_constants`, at most `fuel` many. -/
def pruneRounds : (fuel : Nat) → List (LinearOp F) → Option (List (LinearOp F))
  | 0, _ => none
  | fuel + 1, p =>
    match livePureOps p with
    | none => some p
    | some live => if live.all id then some p else pruneRounds fuel (kept (p.zip live))

/-- Each round but the last drops an operation, so one round more than there are operations is enough. -/
def pruneDeadConstants (p : List (LinearOp F)) : Option (List (LinearOp F)) := pruneRounds (p.length + 1) p

/-! ## Scanning one operation -/

theorem prunable_isPrunable {op : LinearOp F} (h : prunable op = true) : op.faultClass.isPrunable = true :=
  (Bool.and_eq_true_iff.1 h).2

theorem prunable_destination {op : LinearOp F} (h : prunable op = true) :
    ∃ dst, op.dstRegister = some dst ∧ op.dstRegisterCount = 1 ∧ op.destination = [dst] := by
  cases op <;> first | exact ⟨_, rfl, rfl, rfl⟩ | simp [prunable] at h

/-- The failing checks of one operation take each source that is not initialised from the pending ones. -/
structure Marked (sources : List Reg) (s s' : LiveScan) : Prop where
  initialized : ∀ r, s'.initialized r = true ↔ s.initialized r = true ∨ r ∈ sources
  pending : ∀ r, s'.pending r = if s.initialized r = false ∧ r ∈ sources then none else s.pending r
  live : ∀ i, s'.live[i]? = some true ↔
    s.live[i]? = some true ∨ (i < s.live.length ∧ ∃ r ∈ sources, s.initialized r = false ∧ s.pending r = some i)
  length : s'.live.length = s.live.length

theorem firstFailure_undefined {defined : Reg → Bool} {operation : String} {opIndex : Nat} {checks : List SourceCheck}
    {sources : List Reg} (hcollected : collected checks = some sources) {error : ScalarProgramRegisterError}
    (h : firstFailure defined operation opIndex checks = some error) :
    ∃ r ∈ sources, defined r = false ∧ error = .undefinedRegister opIndex operation r := by
  induction checks generalizing sources with
  | nil => cases h
  | cons check rest ih =>
    cases check with
    | reject e => cases hcollected
    | require register =>
      obtain ⟨others, hothers, rfl⟩ := Option.map_eq_some_iff.1 hcollected
      rw [firstFailure] at h
      by_cases hd : defined register = true
      · rw [if_pos hd] at h
        obtain ⟨r, hr, hfacts⟩ := ih hothers h
        exact ⟨r, List.mem_cons_of_mem _ hr, hfacts⟩
      · rw [if_neg hd] at h
        cases h
        exact ⟨register, List.mem_cons_self, Bool.eq_false_iff.2 hd, rfl⟩

theorem defineRange_one (defined : Reg → Bool) (start r : Reg) :
    defineRange defined start 1 r = true ↔ defined r = true ∨ r = start := by
  have hrange : start ≤ r ∧ r < start + 1 ↔ r = start := by unfold Reg at *; omega
  simp only [defineRange, Bool.or_eq_true, Bool.and_eq_true, decide_eq_true_eq, hrange]

theorem collected_length {checks : List SourceCheck} {sources : List Reg} (h : collected checks = some sources) :
    sources.length = checks.length := by
  induction checks generalizing sources with
  | nil =>
    cases h
    rfl
  | cons check rest ih =>
    cases check with
    | reject e => cases h
    | require register =>
      obtain ⟨others, hothers, rfl⟩ := Option.map_eq_some_iff.1 h
      exact congrArg Nat.succ (ih hothers)

theorem Marked.cons {sources : List Reg} {s s' : LiveScan} {register : Reg} {defining : Nat} (hr : register ∈ sources)
    (hinit : s.initialized register = false) (hpending : s.pending register = some defining)
    (h : Marked sources (s.mark register defining) s') : Marked sources s s' := by
  have hone := defineRange_one s.initialized register
  refine ⟨fun r => ?_, fun r => ?_, fun i => ?_, ?_⟩
  · rw [h.initialized, LiveScan.mark, hone]
    constructor
    · rintro ((hr' | rfl) | hr')
      · exact .inl hr'
      · exact .inr hr
      · exact .inr hr'
    · rintro (hr' | hr')
      · exact .inl (.inl hr')
      · exact .inr hr'
  · rw [h.pending, LiveScan.mark]
    by_cases heq : r = register
    · subst heq
      simp [hinit, hr]
    · have hsame : defineRange s.initialized register 1 r = s.initialized r := by
        rw [Bool.eq_iff_iff, hone]
        simp [heq]
      simp only [hsame, Function.update_of_ne heq]
  · rw [h.live]
    simp only [LiveScan.mark, List.length_set, List.getElem?_set]
    have hother : ∀ r, defineRange s.initialized register 1 r = false ↔ s.initialized r = false ∧ r ≠ register := by
      intro r
      rw [← Bool.not_eq_true, hone, not_or, Bool.not_eq_true]
    constructor
    · rintro (hlive | ⟨hi, r, hmem, hr', hp⟩)
      · by_cases hi : defining = i
        · subst hi
          rw [if_pos rfl] at hlive
          by_cases hlen : defining < s.live.length
          · exact .inr ⟨hlen, register, hr, hinit, hpending⟩
          · rw [if_neg hlen] at hlive
            cases hlive
        · rw [if_neg hi] at hlive
          exact .inl hlive
      · obtain ⟨hr', hne⟩ := (hother r).1 hr'
        rw [Function.update_of_ne hne] at hp
        exact .inr ⟨hi, r, hmem, hr', hp⟩
    · rintro (hlive | ⟨hi, r, hmem, hr', hp⟩)
      · left
        by_cases hi : defining = i
        · subst hi
          rw [if_pos rfl, if_pos (List.getElem?_eq_some_iff.1 hlive).1]
        · rw [if_neg hi]
          exact hlive
      · by_cases heq : r = register
        · subst heq
          cases hpending.symm.trans hp
          left
          rw [if_pos rfl, if_pos hi]
        · exact .inr ⟨hi, r, hmem, (hother r).2 ⟨hr', heq⟩, by rw [Function.update_of_ne heq]; exact hp⟩
  · rw [h.length, LiveScan.mark, List.length_set]

theorem Marked.of_initialized {sources : List Reg} {s : LiveScan} (h : ∀ r ∈ sources, s.initialized r = true) :
    Marked sources s s := by
  refine ⟨fun r => ?_, fun r => ?_, fun i => ?_, rfl⟩
  · exact ⟨.inl, fun hr => hr.elim id (h r)⟩
  · rw [if_neg]
    rintro ⟨hr, hmem⟩
    exact absurd (h r hmem) (by simp [hr])
  · refine ⟨.inl, fun hi => hi.elim id ?_⟩
    rintro ⟨-, r, hmem, hr, -⟩
    exact absurd (h r hmem) (by simp [hr])

/-- The loop over the failures ends: each round initialises another source. -/
theorem markSources_marked (operation : String) (opIndex : Nat) {checks : List SourceCheck} {sources : List Reg}
    (hcollected : collected checks = some sources) {fuel : Nat} {s : LiveScan}
    (hpending : ∀ r ∈ sources, s.initialized r = true ∨ (s.pending r).isSome)
    (hfuel : (sources.filter (!s.initialized ·)).length < fuel) :
    ∃ s', markSources operation opIndex checks fuel s = some s' ∧ Marked sources s s' := by
  induction fuel generalizing s with
  | zero => omega
  | succ fuel ih =>
    cases hfail : firstFailure s.initialized operation opIndex checks with
    | none =>
      obtain ⟨registers, hregisters, hinit⟩ := firstFailure_eq_none_iff.1 hfail
      cases hcollected.symm.trans hregisters
      exact ⟨s, by simp only [markSources, hfail], .of_initialized hinit⟩
    | some error =>
      obtain ⟨register, hmem, hinit, rfl⟩ := firstFailure_undefined hcollected hfail
      obtain ⟨defining, hdefining⟩ := Option.isSome_iff_exists.1
        ((hpending register hmem).resolve_left (by simp [hinit]))
      have hone : ∀ r, (s.mark register defining).initialized r = true ↔ s.initialized r = true ∨ r = register :=
        defineRange_one s.initialized register
      have hpending' : ∀ r ∈ sources, (s.mark register defining).initialized r = true ∨
          ((s.mark register defining).pending r).isSome := by
        intro r hr
        by_cases heq : r = register
        · exact .inl ((hone r).2 (.inr heq))
        · have hother : (s.mark register defining).pending r = s.pending r := by
            simp only [LiveScan.mark]
            exact Function.update_of_ne heq none s.pending
          rw [hone, hother]
          exact (hpending r hr).imp_left .inl
      have hsub : sources.filter (!(s.mark register defining).initialized ·) =
          (sources.filter (!s.initialized ·)).filter (· ≠ register) := by
        rw [List.filter_filter]
        refine List.filter_congr fun r _ => ?_
        rw [Bool.eq_iff_iff]
        simp only [Bool.not_eq_true', ← Bool.not_eq_true, hone, not_or, Bool.and_eq_true, decide_eq_true_eq]
        tauto
      have hless : (sources.filter (!(s.mark register defining).initialized ·)).length < fuel := by
        refine lt_of_lt_of_le ?_ (Nat.le_of_lt_succ hfuel)
        rw [hsub]
        refine List.length_filter_lt_length_iff_exists.2 ⟨register, ?_, by simp⟩
        exact List.mem_filter.2 ⟨hmem, by simp [hinit]⟩
      obtain ⟨s', hs', hmarked⟩ := ih hpending' hless
      exact ⟨s', by simp only [markSources, hfail, hdefining]; exact hs', .cons hmem hinit hdefining hmarked⟩

/-! ## Scanning a program -/

/-- The operations read the register, or one that the pass keeps writes it. -/
def Used (p : List (LinearOp F)) (r : Reg) : Prop :=
  ∃ op ∈ p, r ∈ op.sources ∨ (prunable op = false ∧ r ∈ op.destination)

theorem used_cons {op : LinearOp F} {p : List (LinearOp F)} {r : Reg} :
    Used (op :: p) r ↔ (r ∈ op.sources ∨ (prunable op = false ∧ r ∈ op.destination)) ∨ Used p r := by
  simp [Used]

/-- Every defined register is initialised or pending, on an operation scanned before. -/
structure Scanned (opIndex : Nat) (defined : Nat → Prop) (s : LiveScan) : Prop where
  known : ∀ r, defined r → s.initialized r = true ∨ (s.pending r).isSome
  bound : ∀ r i, s.pending r = some i → i < opIndex

/-- What scanning one operation does. -/
structure ScannedOp (opIndex : Nat) (op : LinearOp F) (s s' : LiveScan) : Prop where
  initialized : ∀ r, s'.initialized r = true ↔
    s.initialized r = true ∨ r ∈ op.sources ∨ (prunable op = false ∧ r ∈ op.destination)
  pending : ∀ r, s'.pending r =
    if r ∈ op.destination then if prunable op then some opIndex else none
    else if s.initialized r = false ∧ r ∈ op.sources then none else s.pending r
  live : ∀ i, s'.live[i]? = some true ↔ s.live[i]? = some true ∨
    (i < s.live.length ∧ ∃ r ∈ op.sources, s.initialized r = false ∧ s.pending r = some i)
  length : s'.live.length = s.live.length

theorem Marked.define {op : LinearOp F} {s s' : LiveScan} (h : Marked op.sources s s') (opIndex : Nat) :
    ScannedOp opIndex op s (define opIndex op s') := by
  cases hdst : op.dstRegister with
  | none =>
    have hsame : Solve.define opIndex op s' = s' := by simp only [Solve.define, hdst]
    have hnone : ∀ r, r ∉ op.destination := by simp [LinearOp.destination_none hdst]
    rw [hsame]
    refine ⟨fun r => ?_, fun r => ?_, h.live, h.length⟩
    · rw [h.initialized]
      simp [hnone r]
    · rw [h.pending, if_neg (hnone r)]
  | some dst =>
    have hmem := LinearOp.mem_destination hdst
    by_cases hprunable : prunable op = true
    · obtain ⟨dst', hdst', hcount, hdest⟩ := prunable_destination hprunable
      cases hdst.symm.trans hdst'
      simp only [Solve.define, hdst, if_pos hprunable]
      refine ⟨fun r => ?_, fun r => ?_, h.live, h.length⟩
      · simp [h.initialized, hprunable]
      · rw [hdest]
        by_cases heq : r = dst
        · subst heq
          simp [hprunable]
        · have hout : ¬ (dst ≤ r ∧ r < dst + op.dstRegisterCount) := by
            rw [← hmem, hdest]
            simpa using heq
          have hother : r ∉ [dst] := by simpa using heq
          simp only [Function.update_of_ne heq, if_neg hout, h.pending, if_neg hother]
    · have hfalse : prunable op = false := Bool.eq_false_iff.2 hprunable
      simp only [Solve.define, hdst, hfalse]
      refine ⟨fun r => ?_, fun r => ?_, h.live, h.length⟩
      · simp [defineRange_iff hdst, h.initialized, hfalse, or_assoc]
      · simp [← hmem, h.pending, hfalse]

theorem ScannedOp.scanned {opIndex : Nat} {op : LinearOp F} {s s' : LiveScan} {defined : Nat → Prop}
    (h : ScannedOp opIndex op s s') (hs : Scanned opIndex defined s) :
    Scanned (opIndex + 1) (fun r => defined r ∨ r ∈ op.destination) s' := by
  refine ⟨fun r hr => ?_, fun r i hi => ?_⟩
  · rw [h.initialized, h.pending]
    by_cases hd : r ∈ op.destination
    · cases hp : prunable op <;> simp [hd]
    · rcases hs.known r (hr.resolve_right hd) with hinit | hpending
      · exact .inl (.inl hinit)
      · by_cases hmem : r ∈ op.sources
        · exact .inl (.inr (.inl hmem))
        · simp [hd, hmem, hpending]
  · rw [h.pending] at hi
    split_ifs at hi
    · cases hi
      omega
    · exact Nat.lt_succ_of_lt (hs.bound r i hi)

theorem liveFrom_cons {op : LinearOp F} (rest : List (LinearOp F)) {opIndex : Nat} {s : LiveScan} {defined : Nat → Prop}
    (hop : op.WellShaped) (hreads : ∀ r ∈ op.sources, defined r) (hs : Scanned opIndex defined s) :
    ∃ s', liveFrom (op :: rest) opIndex s = liveFrom rest (opIndex + 1) s' ∧ ScannedOp opIndex op s s' := by
  have hcollected := hop.collected opIndex
  have hlength : op.sources.length = (opSources 2 none opIndex op).length := collected_length hcollected
  obtain ⟨s', hs', hmarked⟩ := markSources_marked op.kindName opIndex hcollected
    (fun r hr => hs.known r (hreads r hr))
    (Nat.lt_succ_of_le ((List.length_filter_le _ op.sources).trans hlength.le))
  exact ⟨define opIndex op s', by simp only [liveFrom, hs']; rfl, hmarked.define opIndex⟩

theorem liveFrom_total {p : List (LinearOp F)} {opIndex : Nat} {s : LiveScan} {defined : Nat → Prop}
    (hshape : ∀ op ∈ p, op.WellShaped) (hflow : (accesses F).Flows defined p) (hs : Scanned opIndex defined s) :
    ∃ s', liveFrom p opIndex s = some s' ∧ s'.live.length = s.live.length := by
  induction p generalizing opIndex s defined with
  | nil => exact ⟨s, rfl, rfl⟩
  | cons op rest ih =>
    obtain ⟨s₁, hstep, hop⟩ := liveFrom_cons rest (hshape op List.mem_cons_self) hflow.1 hs
    obtain ⟨s', hs', hlength⟩ := ih (fun o ho => hshape o (List.mem_cons_of_mem op ho)) hflow.2 (hop.scanned hs)
    exact ⟨s', hstep.trans hs', hlength.trans hop.length⟩

theorem liveFrom_before {p : List (LinearOp F)} {opIndex : Nat} {s s' : LiveScan} {defined : Nat → Prop}
    (hshape : ∀ op ∈ p, op.WellShaped) (hflow : (accesses F).Flows defined p) (hs : Scanned opIndex defined s)
    (hrun : liveFrom p opIndex s = some s') {i : Nat} (hi : i < opIndex) (hlen : i < s.live.length) :
    s'.live[i]? = some true ↔ s.live[i]? = some true ∨
      ∃ r, s.initialized r = false ∧ s.pending r = some i ∧ (accesses F).ReadNext p r := by
  induction p generalizing opIndex s defined with
  | nil =>
    cases hrun
    refine ⟨.inl, fun h => h.elim id ?_⟩
    rintro ⟨r, -, -, hread⟩
    cases hread
  | cons op rest ih =>
    obtain ⟨s₁, hstep, hop⟩ := liveFrom_cons rest (hshape op List.mem_cons_self) hflow.1 hs
    have hrest := ih (fun o ho => hshape o (List.mem_cons_of_mem op ho)) hflow.2 (hop.scanned hs)
      (hstep.symm.trans hrun) (Nat.lt_succ_of_lt hi) (hop.length ▸ hlen)
    rw [hrest, hop.live, or_assoc]
    refine or_congr_right ?_
    constructor
    · rintro (⟨-, r, hmem, hinit, hpending⟩ | ⟨r, hinit, hpending, hread⟩)
      · exact ⟨r, hinit, hpending, .inl hmem⟩
      · rw [hop.pending] at hpending
        rw [← Bool.not_eq_true, hop.initialized, not_or, not_or] at hinit
        split_ifs at hpending with hd
        · cases hpending
          omega
        · exact ⟨r, Bool.eq_false_iff.2 hinit.1, hpending, .inr ⟨hd, hread⟩⟩
    · rintro ⟨r, hinit, hpending, hread⟩
      by_cases hmem : r ∈ op.sources
      · exact .inl ⟨hlen, r, hmem, hinit, hpending⟩
      · obtain ⟨hd, hread⟩ := hread.resolve_left hmem
        refine .inr ⟨r, ?_, ?_, hread⟩
        · rw [← Bool.not_eq_true, hop.initialized]
          have hd' : r ∉ op.destination := hd
          simp [hinit, hmem, hd']
        · have hd' : r ∉ op.destination := hd
          rw [hop.pending, if_neg hd', if_neg (fun h => hmem h.2)]
          exact hpending

theorem liveFrom_at {pre rest : List (LinearOp F)} {op : LinearOp F} {opIndex : Nat} {s s' : LiveScan}
    {defined : Nat → Prop} (hshape : ∀ o ∈ pre ++ op :: rest, o.WellShaped)
    (hflow : (accesses F).Flows defined (pre ++ op :: rest)) (hs : Scanned opIndex defined s)
    (hrun : liveFrom (pre ++ op :: rest) opIndex s = some s') (hlen : opIndex + pre.length < s.live.length) :
    s'.live[opIndex + pre.length]? = some true ↔ s.live[opIndex + pre.length]? = some true ∨
      (prunable op = true ∧ ∃ dst ∈ op.destination, s.initialized dst = false ∧ ¬ Used (pre ++ [op]) dst ∧
        (accesses F).ReadNext rest dst) := by
  induction pre generalizing opIndex s defined with
  | nil =>
    obtain ⟨s₁, hstep, hop⟩ := liveFrom_cons rest (hshape op List.mem_cons_self) hflow.1 hs
    have hrest := liveFrom_before (fun o ho => hshape o (List.mem_cons_of_mem op ho)) hflow.2 (hop.scanned hs)
      (hstep.symm.trans hrun) (Nat.lt_succ_self opIndex) (hop.length ▸ hlen)
    rw [List.length_nil, Nat.add_zero, hrest, hop.live, or_assoc]
    refine or_congr_right ?_
    constructor
    · rintro (⟨-, r, -, -, hpending⟩ | ⟨r, hinit, hpending, hread⟩)
      · exact absurd (hs.bound r _ hpending) (Nat.lt_irrefl _)
      · rw [hop.pending] at hpending
        rw [← Bool.not_eq_true, hop.initialized, not_or, Bool.not_eq_true] at hinit
        split_ifs at hpending with hd hp
        · exact ⟨hp, r, hd, hinit.1, by simpa [Used] using hinit.2, hread⟩
        · exact absurd (hs.bound r _ hpending) (Nat.lt_irrefl _)
    · rintro ⟨hp, r, hd, hinit, hused, hread⟩
      refine .inr ⟨r, ?_, by rw [hop.pending, if_pos hd, if_pos hp], hread⟩
      rw [← Bool.not_eq_true, hop.initialized]
      simpa [Used, hinit] using hused
  | cons first pre ih =>
    obtain ⟨s₁, hstep, hop⟩ := liveFrom_cons (pre ++ op :: rest) (hshape first List.mem_cons_self) hflow.1 hs
    have hindex : opIndex + (first :: pre).length = opIndex + 1 + pre.length := by
      rw [List.length_cons]
      omega
    rw [hindex] at hlen ⊢
    have hrest := ih (fun o ho => hshape o (List.mem_cons_of_mem first ho)) hflow.2 (hop.scanned hs)
      (hstep.symm.trans hrun) (hop.length ▸ hlen)
    have hlive : s₁.live[opIndex + 1 + pre.length]? = some true ↔ s.live[opIndex + 1 + pre.length]? = some true := by
      rw [hop.live]
      refine or_iff_left ?_
      rintro ⟨-, r, -, -, hpending⟩
      exact absurd (hs.bound r _ hpending) (by omega)
    rw [hrest, hlive]
    refine or_congr_right (and_congr_right fun _ => exists_congr fun dst => and_congr_right fun _ => ?_)
    rw [List.cons_append, used_cons, ← Bool.not_eq_true, ← Bool.not_eq_true, hop.initialized]
    tauto

/-- Exactly these operations are kept: those that the pass cannot drop, and each prunable operation
whose register is read next and was neither read nor defined for good before. -/
theorem livePureOps_iff {p : List (LinearOp F)} (hflow : FlowValid p) :
    ∃ live, livePureOps p = some live ∧ live.length = p.length ∧
      ∀ pre op rest, p = pre ++ op :: rest → (live[pre.length]? = some true ↔ (prunable op = true →
        ∃ dst ∈ op.destination, ¬ Used (pre ++ [op]) dst ∧ (accesses F).ReadNext rest dst)) := by
  obtain ⟨hshape, hflows⟩ := (flowValid_iff p).1 hflow
  have hs : Scanned 0 (fun _ => False) ⟨p.map fun op => !prunable op, fun _ => false, fun _ => none⟩ :=
    ⟨fun _ h => h.elim, fun _ _ h => (Option.some_ne_none _ h.symm).elim⟩
  obtain ⟨s', hs', hlength⟩ := liveFrom_total hshape hflows hs
  refine ⟨s'.live, by rw [livePureOps, hs']; rfl, by simpa using hlength, ?_⟩
  rintro pre op rest rfl
  have hat := liveFrom_at hshape hflows hs hs' (by simp)
  rw [Nat.zero_add] at hat
  rw [hat]
  cases hp : prunable op <;> simp [hp]

/-! ## The rounds -/

/-- Some prunable operation defines, with a later read, a register that was read or defined for good before. -/
def RedefinesUsed (p : List (LinearOp F)) : Prop :=
  ∃ pre op rest, p = pre ++ op :: rest ∧ prunable op = true ∧
    ∃ dst ∈ op.destination, Used (pre ++ [op]) dst ∧ (accesses F).ReadNext rest dst

/-- Nothing prunable defines a register that is not read before its next definition. -/
def NoUnread (p : List (LinearOp F)) : Prop :=
  ∀ pre op rest, p = pre ++ op :: rest → prunable op = true →
    ∃ dst ∈ op.destination, (accesses F).ReadNext rest dst

/-- The operations that one round drops. -/
structure Round (p : List (LinearOp F)) (live : List Bool) : Prop where
  flags : livePureOps p = some live
  length : live.length = p.length
  operations : (p.zip live).map (·.1) = p
  dropped : ∀ a ∈ p.zip live, a.2 = false → prunable a.1 = true
  read : ∀ pre op post, p.zip live = pre ++ (op, true) :: post → prunable op = true →
    ∃ dst ∈ op.destination, (accesses F).ReadNext (post.map (·.1)) dst
  unread : (accesses F).Unread (p.zip live) ↔ ¬ RedefinesUsed p

theorem getElem?_zip {α : Type} {p : List α} {live : List Bool} {pre post : List (α × Bool)} {op : α} {b : Bool}
    (h : p.zip live = pre ++ (op, b) :: post) : live[pre.length]? = some b := by
  have hget : (p.zip live)[pre.length]? = some (op, b) := by
    rw [h]
    simp
  exact (List.getElem?_zip_eq_some.1 hget).2

theorem exists_round {p : List (LinearOp F)} (hflow : FlowValid p) : ∃ live, Round p live := by
  obtain ⟨live, hlive, hlength, hiff⟩ := livePureOps_iff hflow
  have hoperations : (p.zip live).map (·.1) = p := List.map_fst_zip hlength.ge
  have hsplit : ∀ {pre post op b}, p.zip live = pre ++ (op, b) :: post →
      p = pre.map (·.1) ++ op :: post.map (·.1) := by
    intro pre post op b h
    rw [← hoperations, h]
    simp
  have hat : ∀ {pre post op b}, p.zip live = pre ++ (op, b) :: post → (b = true ↔ (prunable op = true →
      ∃ dst ∈ op.destination, ¬ Used (pre.map (·.1) ++ [op]) dst ∧ (accesses F).ReadNext (post.map (·.1)) dst)) := by
    intro pre post op b h
    rw [← hiff _ op _ (hsplit h), List.length_map, getElem?_zip h, Option.some_inj]
  refine ⟨live, hlive, hlength, hoperations, ?_, ?_, ?_⟩
  · rintro ⟨op, b⟩ ha rfl
    obtain ⟨pre, post, h⟩ := List.append_of_mem ha
    by_contra hp
    exact absurd ((hat h).2 fun hp' => absurd hp' hp) Bool.false_ne_true
  · intro pre op post h hp
    obtain ⟨dst, hdst, -, hread⟩ := (hat h).1 rfl hp
    exact ⟨dst, hdst, hread⟩
  · rw [Accesses.unread_iff]
    constructor
    · rintro hunread ⟨pre, op, rest, hp, hprunable, dst, hdst, hused, hread⟩
      -- the flag at that position is unset: the register of the operation is used before
      obtain ⟨pre', tail, hzip, hpre, htail⟩ := List.map_eq_append_iff.1 (hoperations.trans hp)
      obtain ⟨⟨o, b⟩, post', rfl, rfl, hpost⟩ := List.map_eq_cons_iff.1 htail
      have hiffb := hat hzip
      rw [hpre, hpost] at hiffb
      obtain ⟨dst', -, -, hdest⟩ := prunable_destination hprunable
      cases b with
      | false => exact hunread pre' o post' hzip dst hdst (hpost ▸ hread)
      | true =>
        obtain ⟨other, hother, hnot, -⟩ := hiffb.1 rfl hprunable
        rw [hdest, List.mem_singleton] at hdst hother
        exact hnot (hother.trans hdst.symm ▸ hused)
    · rintro hredefines pre op post h dst hdst hread
      have hprunable : prunable op = true := by
        by_contra hp
        exact absurd ((hat h).2 fun hp' => absurd hp' hp) Bool.false_ne_true
      refine hredefines ⟨_, op, _, hsplit h, hprunable, dst, hdst, ?_, hread⟩
      by_contra hused
      exact absurd ((hat h).2 fun _ => ⟨dst, hdst, hused, hread⟩) Bool.false_ne_true

theorem RedefinesUsed.of_kept {q : Flagged (LinearOp F)} (hunread : (accesses F).Unread q)
    (h : RedefinesUsed (kept q)) : RedefinesUsed (q.map (·.1)) := by
  obtain ⟨pre, op, rest, hsplit, hprunable, dst, hdst, ⟨o, ho, huse⟩, hread⟩ := h
  obtain ⟨pre', post', rfl, rfl, rfl⟩ := kept_eq_append hsplit
  refine ⟨pre'.map (·.1), op, post'.map (·.1), by simp, hprunable, dst, hdst, ⟨o, ?_, huse⟩, ?_⟩
  · rcases List.mem_append.1 ho with ho | ho
    · exact List.mem_append_left _ (mem_of_mem_kept ho)
    · exact List.mem_append_right _ ho
  · have hpost : (accesses F).Unread post' := hunread.of_append.2
    exact hpost.readNext hread

theorem Round.length_lt {p : List (LinearOp F)} {live : List Bool} (h : Round p live) (hall : live.all id = false) :
    (kept (p.zip live)).length < p.length := by
  obtain ⟨b, hb, hfalse⟩ : ∃ b ∈ live, id b = false := List.all_eq_false.1 hall |>.imp fun _ h => ⟨h.1, by simpa using h.2⟩
  rw [← List.map_snd_zip h.length.le] at hb
  obtain ⟨a, ha, rfl⟩ := List.mem_map.1 hb
  have hzip : (p.zip live).length = p.length := by rw [← List.length_map (·.1), h.operations]
  rw [kept, List.length_map, ← hzip]
  exact List.length_filter_lt_length_iff_exists.2 ⟨a, ha, by simpa using hfalse⟩

theorem Round.noUnread {p : List (LinearOp F)} {live : List Bool} (h : Round p live) (hall : live.all id = true) :
    NoUnread p := by
  rintro pre op rest rfl hprunable
  obtain ⟨pre', tail, hzip, rfl, htail⟩ := List.map_eq_append_iff.1 h.operations
  obtain ⟨⟨op, b⟩, post', rfl, rfl, rfl⟩ := List.map_eq_cons_iff.1 htail
  have hb : b = true := List.all_eq_true.1 hall b (List.mem_of_getElem? (getElem?_zip hzip))
  subst hb
  exact h.read pre' op post' hzip hprunable

/-- What a program that redefines nothing used becomes: a valid one that stores the same and keeps nothing unread. -/
theorem pruneRounds_correct {fuel : Nat} {p : List (LinearOp F)} (hfuel : p.length < fuel) (hflow : FlowValid p)
    (hused : ¬ RedefinesUsed p) : ∃ r, pruneRounds fuel p = some r ∧ FlowValid r ∧ NoUnread r ∧
      ∀ {V W : Type} (S : Semantics F V W) (world : W), S.execute r world = S.execute p world := by
  induction fuel generalizing p with
  | zero => omega
  | succ fuel ih =>
    obtain ⟨live, hround⟩ := exists_round hflow
    cases hall : live.all id with
    | true =>
      refine ⟨p, ?_, hflow, hround.noUnread hall, fun S world => rfl⟩
      simp only [pruneRounds, hround.flags, hall, if_true]
    | false =>
      have hunread := hround.unread.2 hused
      have hflow' : FlowValid ((p.zip live).map (·.1)) := by rwa [hround.operations]
      have hused' : ¬ RedefinesUsed (kept (p.zip live)) := fun h => by
        have hof := h.of_kept hunread
        rw [hround.operations] at hof
        exact hused hof
      have hlength := hround.length_lt hall
      obtain ⟨r, hr, hvalid, hread, hsame⟩ := ih (by omega) (hflow'.kept hunread.droppable) hused'
      refine ⟨r, ?_, hvalid, hread, fun S world => ?_⟩
      · simp only [pruneRounds, hround.flags, hall]
        exact hr
      · have hpure : ∀ a ∈ p.zip live, a.2 = false → a.1.faultClass.isPrunable = true := fun a ha hkeep =>
          prunable_isPrunable (hround.dropped a ha hkeep)
        rw [hsame, ← S.execute_kept hflow' hpure hunread.droppable world, hround.operations]

/-- A program with valid flow that redefines no used register with a later read is
pruned to one with valid flow that stores the same and keeps nothing unread; in any
other the first round drops a definition that is read. -/
theorem pruneDeadConstants_correct {p : List (LinearOp F)} (hflow : FlowValid p) :
    (¬ RedefinesUsed p → ∃ r, pruneDeadConstants p = some r ∧ FlowValid r ∧ NoUnread r ∧
      ∀ {V W : Type} (S : Semantics F V W) (world : W), S.execute r world = S.execute p world) ∧
    ((∃ live, livePureOps p = some live ∧ (accesses F).Unread (p.zip live)) ↔ ¬ RedefinesUsed p) := by
  refine ⟨pruneRounds_correct (Nat.lt_succ_self _) hflow, ?_⟩
  obtain ⟨live, hround⟩ := exists_round hflow
  rw [← hround.unread]
  refine ⟨?_, fun h => ⟨live, hround.flags, h⟩⟩
  rintro ⟨live', hlive', h⟩
  cases hround.flags.symm.trans hlive'
  exact h

/-- Each operation writes zeros but a literal, and a store stores what it reads. -/
def literalSemantics : Semantics Nat Nat Unit where
  run op _ vs := some
    { written := match op with
        | .const _ value => [value]
        | _ => List.replicate op.destination.length 0
      stored := match op with
        | .storeOutput _ => vs
        | _ => []
      world := () }
  run_length op _ vs r hr := by
    cases hr
    cases op <;> first | rfl | simp
  prunable op h _ vs _ := by
    cases op <;> first | exact ⟨_, rfl⟩ | simp [LinearOp.faultClass, FaultClass.isPrunable] at h

def storedTwice : List (LinearOp Nat) := [.const 0 1, .storeOutput 0, .const 0 2, .storeOutput 0]

/-- The second literal is dropped, so the first is stored twice. -/
theorem storedTwice_pruned : FlowValid storedTwice ∧
    ¬ ∃ r, pruneDeadConstants storedTwice = some r ∧ FlowValid r ∧ NoUnread r ∧
      ∀ {V W : Type} (S : Semantics Nat V W) (world : W), S.execute r world = S.execute storedTwice world := by
  refine ⟨by decide, ?_⟩
  rintro ⟨r, hr, -, -, hsame⟩
  have hpruned : pruneDeadConstants storedTwice = some [.const 0 1, .storeOutput 0, .storeOutput 0] := rfl
  cases hpruned.symm.trans hr
  have hstored : literalSemantics.execute storedTwice () = some ([1, 2], ()) := by decide
  have hother : literalSemantics.execute [.const 0 1, .storeOutput 0, .storeOutput 0] () = some ([1, 1], ()) := by decide
  exact absurd (hother.symm.trans ((hsame literalSemantics ()).trans hstored)) (by decide)

def unreadNegation : List (LinearOp Nat) := [.const 0 3, .unary 1 .neg 0, .const 2 4, .storeOutput 2]

theorem unreadNegation_pruned : ∃ r, pruneDeadConstants unreadNegation = some r ∧ FlowValid r ∧ NoUnread r ∧
    ∀ {V W : Type} (S : Semantics Nat V W) (world : W), S.execute r world = S.execute unreadNegation world := by
  have hflow : FlowValid unreadNegation := by decide
  have hlive : livePureOps unreadNegation = some [true, false, true, true] := rfl
  have hused := (pruneDeadConstants_correct hflow).2.1 ⟨_, hlive, by decide⟩
  exact (pruneDeadConstants_correct hflow).1 hused

end Rumoca.Solve
