import Rumoca.Lib.Loop
import Rumoca.Solve.AffinityOperations
/-!
# A proved projection is affine

Each operation of a program keeps the bounds of its registers, so an output
read at an affine bound is an affine function of the targets, whatever the
program does after its last selected store.
-/

namespace Rumoca.Solve.Affinity

open Lib

variable {P F K : Type} [Field K]

/-! ## Calls -/

theorem mapM_getElem? {α β : Type} {f : α → Option β} {l : List α} {bs : List β} (h : l.mapM f = some bs) {k : Nat}
    {b : β} (hb : bs[k]? = some b) : ∃ a, l[k]? = some a ∧ f a = some b := by
  induction l generalizing bs k with
  | nil =>
    obtain rfl := Option.some.inj h
    cases hb
  | cons a l ih =>
    rw [List.mapM_cons] at h
    obtain ⟨first, hfirst, h⟩ := Option.bind_eq_some_iff.1 h
    obtain ⟨rest, hrest, h⟩ := Option.bind_eq_some_iff.1 h
    obtain rfl := Option.some.inj h
    cases k with
    | zero =>
      obtain rfl : first = b := Option.some.inj hb
      exact ⟨a, rfl, hfirst⟩
    | succ k => exact ih hrest hb

/-- The degree bounds of a call are sound: where every element of each input has the degree of that input, every
element of each output has the degree the site gives it. -/
def CallsBounded (S : Set P) (coordinate : Nat → P → K) (targets : Finset Nat) (affinity : SiteAffinity)
    (call : PureCallSite → List (List K) → (output element : Nat) → K) : Prop :=
  ∀ (site : PureCallSite) (arguments : P → List (List K)) (inputs outputs : List Degree),
    affinity.outputDegrees site inputs = some outputs →
    (∀ p, (arguments p).map List.length = site.inputs) →
    (∀ k d, inputs[k]? = some d → ∀ e,
      HasDegree S coordinate targets d fun p => ((arguments p).getD k []).getD e 0) →
    ∀ k d, outputs[k]? = some d → ∀ e, HasDegree S coordinate targets d fun p => call site (arguments p) k e

section
variable {S : Set P} {coordinate : Nat → P → K} {targets : Finset Nat} {registers registers' : Registers}
  {values : P → Values K}

omit [Field K] in
theorem callValues_lengths {starts types : List Nat} (h : starts.length = types.length) (values : Values K) :
    (callValues values starts types).map List.length = types := by
  have hwidths : (callValues values starts types).map List.length = (starts.zip types).map Prod.snd := by
    unfold callValues
    rw [List.map_map]
    refine List.map_congr_left fun entry _ => ?_
    simp only [Function.comp_apply, List.length_map, List.length_range]
  rw [hwidths, List.map_snd_zip (Nat.le_of_eq h.symm)]

theorem callInputs_length {starts types : List Nat} {degrees : List Degree}
    (h : callInputs registers starts types = some degrees) : starts.length = types.length := by
  unfold callInputs at h
  by_contra hne
  rw [if_pos hne] at h
  cases h

theorem Bounded.callInputs (h : Bounded S coordinate targets registers values) {starts types : List Nat}
    {degrees : List Degree} (hd : callInputs registers starts types = some degrees) {k : Nat} {d : Degree}
    (hk : degrees[k]? = some d) (e : Nat) :
    HasDegree S coordinate targets d fun p => ((callValues (values p) starts types).getD k []).getD e 0 := by
  have hlength := callInputs_length hd
  unfold Affinity.callInputs at hd
  rw [if_neg (not_not.2 hlength)] at hd
  obtain ⟨⟨start, count⟩, hentry, hread⟩ := mapM_getElem? hd hk
  have hinput : ∀ p, (callValues (values p) starts types).getD k [] =
      (List.range count).map fun offset => values p (Reg.offset start offset) := fun p => by
    unfold callValues
    rw [List.getD_eq_getElem?_getD, List.getElem?_map, hentry]
    rfl
  simp only [hinput, List.getD_eq_getElem?_getD, List.getElem?_map]
  by_cases he : e < count
  · simp only [List.getElem?_range he, Option.map_some, Option.getD_some]
    exact h.read hread he
  · have hpast : (List.range count)[e]? = none := List.getElem?_eq_none (by simpa using he)
    simp only [hpast, Option.map_none, Option.getD_none]
    exact hasDegree_of_constantOn (constantOn_const 0)

theorem Bounded.storeCall (h : Bounded S coordinate targets registers values) {start : Nat} {degrees : List Degree}
    {outputs : List (PureCallOutputKind × Nat)} (hstore : storeCall registers start degrees outputs = some registers')
    {element : P → Nat → Nat → K} (output : Nat)
    (helement : ∀ k d, degrees[k]? = some d → ∀ e, HasDegree S coordinate targets d fun p => element p (output + k) e) :
    Bounded S coordinate targets registers' fun p => writeOutputs (element p) (values p) start output outputs := by
  unfold Affinity.storeCall at hstore
  by_cases hlength : degrees.length = outputs.length
  · rw [if_neg (not_not.2 hlength)] at hstore
    induction outputs generalizing registers values start degrees output with
    | nil =>
      obtain rfl := List.length_eq_zero_iff.1 hlength
      obtain rfl := Option.some.inj hstore
      exact h
    | cons first outputs ih =>
      obtain ⟨kind, count⟩ := first
      cases degrees with
      | nil => cases hlength
      | cons d degrees =>
        rw [List.zip_cons_cons, List.foldlM_cons] at hstore
        simp only [Option.bind_eq_bind, Option.bind_eq_some_iff, checkedU32_eq_some] at hstore
        obtain ⟨⟨final, stop⟩, ⟨next, ⟨written, hwrite, _, ⟨rfl, -⟩, hnext⟩, hrest⟩, hfinal⟩ := hstore
        obtain rfl := Option.some.inj hnext
        have hwritten : Bounded S coordinate targets written
            fun p => writeRange (values p) start count (element p output) :=
          h.write hwrite fun offset _ => helement 0 d rfl offset
        refine ih hwritten ?_ (output + 1) ?_ (Nat.succ.inj hlength)
        · exact Option.bind_eq_some_iff.2 ⟨(final, stop), hrest, hfinal⟩
        · intro k e hk offset
          rw [Nat.add_assoc, Nat.add_comm 1 k]
          exact helement (k + 1) e hk offset
  · rw [if_pos hlength] at hstore
    cases hstore

end

/-! ## Runs -/

/-- The analysis of a program over exact arithmetic: its literals are finite where they have a value. -/
def Arithmetic.interface (arithmetic : Arithmetic F K) (pureCall pureCallDirectional : SiteAffinity) : Interface F :=
  ⟨arithmetic.isFinite, pureCall, pureCallDirectional⟩

section
variable {S : Set P} {coordinate : Nat → P → K} {targets : Finset Nat}

def StoresAffine (S : Set P) (coordinate : Nat → P → K) (targets : Finset Nat) (outputs : P → List K)
    (offset : Nat) : Prop :=
  ∃ f, AffineOn S coordinate targets f ∧ ∀ p ∈ S, (outputs p)[offset]? = some (f p)

variable {registers : Registers} {values : P → Values K}

theorem Bounded.readOffsets (h : Bounded S coordinate targets registers values) {start count stride outputStart : Nat}
    {offsets rest : List Nat}
    (hread : SelectedStores.readOffsets admits registers start count stride outputStart offsets = some rest) :
    ∀ offset ∈ offsets, offset ∈ rest ∨
      ∃ ordinal < count, offset = outputStart + ordinal ∧ start + ordinal * stride < u32Limit ∧
        AffineOn S coordinate targets fun p => values p (Reg.offset start (ordinal * stride)) := by
  induction offsets with
  | nil =>
    intro offset hoffset
    cases hoffset
  | cons first offsets ih =>
    unfold SelectedStores.readOffsets at hread
    by_cases hbefore : first < outputStart
    · rw [if_pos hbefore] at hread
      cases hread
    · rw [if_neg hbefore] at hread
      by_cases hpast : count ≤ first - outputStart
      · rw [if_pos hpast] at hread
        obtain rfl := Option.some.inj hread
        exact fun offset hoffset => .inl hoffset
      · rw [if_neg hpast] at hread
        simp only [Option.bind_eq_bind, Option.bind_eq_some_iff, checkedU32_eq_some, checkedUsize_eq_some] at hread
        obtain ⟨_, ⟨rfl, -⟩, _, ⟨rfl, -⟩, _, ⟨rfl, hlimit⟩, d, hd, hread⟩ := hread
        by_cases hadmits : admits d = true
        · rw [if_pos hadmits] at hread
          intro offset hoffset
          rcases List.mem_cons.1 hoffset with rfl | hoffset
          · refine .inr ⟨offset - outputStart, by omega, by omega, hlimit, ?_⟩
            rw [Reg.offset_eq hlimit]
            exact (h.read_one hd).affineOn (by simpa [admits] using hadmits)
          · exact ih hread offset hoffset
        · rw [if_neg hadmits] at hread
          cases hread

theorem SelectedStores.read_spec {selected selected' : SelectedStores} {start count stride : Nat}
    (h : selected.read admits registers start count stride = some selected') :
    SelectedStores.readOffsets admits registers start count stride selected.outputStart selected.offsets =
        some selected'.offsets ∧
      (selected'.isComplete = true ∨ selected'.outputStart = selected.outputStart + count) := by
  unfold SelectedStores.read at h
  obtain ⟨offsets, hoffsets, h⟩ := Option.bind_eq_some_iff.1 h
  by_cases hcomplete : offsets.isEmpty = true
  · rw [if_pos hcomplete] at h
    obtain rfl := Option.some.inj h
    exact ⟨hoffsets, .inl hcomplete⟩
  · rw [if_neg hcomplete] at h
    obtain ⟨stop, hstop, h⟩ := Option.bind_eq_some_iff.1 h
    obtain ⟨rfl, -⟩ := checkedUsize_eq_some.1 hstop
    obtain rfl := Option.some.inj h
    exact ⟨hoffsets, .inr rfl⟩

theorem Bounded.store (h : Bounded S coordinate targets registers values) {selected selected' : SelectedStores}
    {start count stride : Nat} (hread : selected.read admits registers start count stride = some selected')
    {outputs stored : P → List K} (hlength : ∀ p, (outputs p).length = selected.outputStart)
    (hcount : ∀ p, (stored p).length = count)
    (hstored : ∀ ordinal < count, start + ordinal * stride < u32Limit →
      ∀ p, (stored p)[ordinal]? = some (values p (Reg.offset start (ordinal * stride)))) :
    (selected'.isComplete = true ∨ ∀ p, (outputs p ++ stored p).length = selected'.outputStart) ∧
      ∀ offset ∈ selected.offsets, offset ∈ selected'.offsets ∨
        StoresAffine S coordinate targets (fun p => outputs p ++ stored p) offset := by
  obtain ⟨hoffsets, hnext⟩ := SelectedStores.read_spec hread
  refine ⟨hnext.imp_right fun hstart p => ?_, fun offset hoffset => ?_⟩
  · rw [List.length_append, hlength, hcount, hstart]
  · refine (h.readOffsets hoffsets offset hoffset).imp_right ?_
    rintro ⟨ordinal, hordinal, rfl, hlimit, haffine⟩
    refine ⟨_, haffine, fun p _ => ?_⟩
    have hright : (outputs p).length ≤ selected.outputStart + ordinal := hlength p ▸ Nat.le_add_right _ _
    rw [List.getElem?_append_right hright, hlength, Nat.add_sub_cancel_left]
    exact hstored ordinal hordinal hlimit p

variable [DecidableEq K] {inputs : P → Inputs K} {arithmetic : Arithmetic F K}
  {pureCall pureCallDirectional : SiteAffinity}

theorem step_outputs (inputs : Inputs K) (s : Execution K) (op : LinearOp F) :
    ∃ stored, (step arithmetic inputs s op).outputs = s.outputs ++ stored := by
  unfold step
  split
  · exact ⟨_, rfl⟩
  · exact ⟨_, rfl⟩
  · exact ⟨[], (List.append_nil _).symm⟩
  · exact ⟨[], (List.append_nil _).symm⟩
  · split
    · exact ⟨[], (List.append_nil _).symm⟩
    · exact ⟨_, rfl⟩

theorem run_outputs (inputs : Inputs K) (program : List (LinearOp F)) (s : Execution K) :
    ∃ stored, (run arithmetic inputs program s).outputs = s.outputs ++ stored := by
  induction program generalizing s with
  | nil => exact ⟨[], (List.append_nil _).symm⟩
  | cons op program ih =>
    obtain ⟨first, hfirst⟩ := step_outputs inputs s op
    obtain ⟨rest, hrest⟩ := ih (step arithmetic inputs s op)
    exact ⟨first ++ rest, by rw [← List.append_assoc, ← hfirst, ← hrest]; rfl⟩

theorem StoresAffine.run {program : List (LinearOp F)} {s : P → Execution K} {offset : Nat}
    (h : StoresAffine S coordinate targets (fun p => (s p).outputs) offset) :
    StoresAffine S coordinate targets (fun p => (Affinity.run arithmetic (inputs p) program (s p)).outputs) offset := by
  obtain ⟨f, hf, hstored⟩ := h
  refine ⟨f, hf, fun p hp => ?_⟩
  obtain ⟨stored, hrun⟩ := run_outputs (inputs p) program (s p)
  obtain ⟨hlt, -⟩ := List.getElem?_eq_some_iff.1 (hstored p hp)
  show (Affinity.run arithmetic (inputs p) program (s p)).outputs[offset]? = some (f p)
  rw [hrun, List.getElem?_append_left hlt]
  exact hstored p hp

/-- What one operation of the analysis says of the operation's execution. -/
structure Visited (S : Set P) (coordinate : Nat → P → K) (targets : Finset Nat) (arithmetic : Arithmetic F K)
    (inputs : P → Inputs K) (s : P → Execution K) (op : LinearOp F) (selected : SelectedStores)
    (next : Registers × SelectedStores) : Prop where
  bounded : Bounded S coordinate targets next.1 fun p => (step arithmetic (inputs p) (s p) op).values
  length : next.2.isComplete = true ∨ ∀ p, (step arithmetic (inputs p) (s p) op).outputs.length = next.2.outputStart
  answered : ∀ offset ∈ selected.offsets, offset ∈ next.2.offsets ∨
    StoresAffine S coordinate targets (fun p => (step arithmetic (inputs p) (s p) op).outputs) offset

theorem Visited.of_written {s : P → Execution K} {op : LinearOp F} {selected : SelectedStores} {registers : Registers}
    {written : P → Values K} (hlength : ∀ p, (s p).outputs.length = selected.outputStart)
    (hstep : ∀ p, step arithmetic (inputs p) (s p) op = { s p with values := written p })
    (hwritten : Bounded S coordinate targets registers written) :
    Visited S coordinate targets arithmetic inputs s op selected (registers, selected) where
  bounded := by simpa only [hstep] using hwritten
  length := .inr fun p => by rw [hstep]; exact hlength p
  answered := fun _ hoffset => .inl hoffset

theorem step_of_element {inputs : Inputs K} {s : Execution K} {op : LinearOp F} {element : Nat → K} {start : Reg}
    (helement : elementValue arithmetic inputs s.values op = some element) (hdst : op.dstRegister = some start) :
    step arithmetic inputs s op = { s with values := writeRange s.values start op.dstRegisterCount element } := by
  unfold step
  split
  · cases hdst
  · cases hdst
  · cases helement
  · cases helement
  · simp only [helement, hdst]

omit [DecidableEq K] in
/-- The outputs of a call are bounded by the degrees of its site. -/
theorem Bounded.call (h : Bounded S coordinate targets registers values) {affinity : SiteAffinity}
    {call : PureCallSite → List (List K) → (output element : Nat) → K}
    (hcall : CallsBounded S coordinate targets affinity call) {start : Nat} {starts : List Nat} {site : PureCallSite}
    {registers' : Registers} {arguments degrees : List Degree}
    (harguments : Affinity.callInputs registers starts site.inputs = some arguments)
    (hdegrees : affinity.outputDegrees site arguments = some degrees)
    (hstore : Affinity.storeCall registers start degrees site.outputs = some registers') :
    Bounded S coordinate targets registers' fun p =>
      writeOutputs (call site (callValues (values p) starts site.inputs)) (values p) start 0 site.outputs := by
  refine h.storeCall hstore 0 fun k d hk e => ?_
  rw [Nat.zero_add]
  exact hcall site (fun p => callValues (values p) starts site.inputs) arguments degrees hdegrees
    (fun p => callValues_lengths (callInputs_length harguments) (values p))
    (fun k d hk e => h.callInputs harguments hk e) k d hk e

theorem Bounded.visitOperation {s : P → Execution K} (h : Bounded S coordinate targets registers fun p => (s p).values)
    (hinputs : Varies S coordinate targets inputs)
    (hpure : CallsBounded S coordinate targets pureCall arithmetic.pureCall)
    (hdirectional : CallsBounded S coordinate targets pureCallDirectional arithmetic.pureCallDirectional)
    {op : LinearOp F} (hcovers : CoversResult op) {selected : SelectedStores} {next : Registers × SelectedStores}
    (hlength : ∀ p, (s p).outputs.length = selected.outputStart)
    (hvisit : visitOperation (arithmetic.interface pureCall pureCallDirectional) admits targets (registers, selected)
      op = some next) :
    Visited S coordinate targets arithmetic inputs s op selected next := by
  unfold Affinity.visitOperation at hvisit
  split at hvisit
  · rename_i src
    obtain ⟨selected', hread, hnext⟩ := Option.bind_eq_some_iff.1 hvisit
    obtain rfl := Option.some.inj hnext
    have hstored : ∀ ordinal : Nat, ordinal < 1 → src + ordinal * 1 < u32Limit →
        ∀ p, [(s p).values src][ordinal]? = some ((s p).values (Reg.offset src (ordinal * 1))) := by
      intro ordinal hordinal hlimit p
      obtain rfl : ordinal = 0 := Nat.lt_one_iff.1 hordinal
      rw [Reg.offset_eq hlimit]
      rfl
    obtain ⟨hnextLength, hanswered⟩ := h.store hread hlength (fun _ => rfl) hstored
    exact ⟨h, hnextLength, hanswered⟩
  · rename_i start count stride
    obtain ⟨selected', hread, hnext⟩ := Option.bind_eq_some_iff.1 hvisit
    obtain rfl := Option.some.inj hnext
    have hstored : ∀ ordinal < count, start + ordinal * stride < u32Limit → ∀ p,
        ((List.range count).map fun ordinal => (s p).values (Reg.offset start (ordinal * stride)))[ordinal]? =
          some ((s p).values (Reg.offset start (ordinal * stride))) := by
      intro ordinal hordinal _ p
      rw [List.getElem?_map, List.getElem?_range hordinal]
      rfl
    obtain ⟨hnextLength, hanswered⟩ := h.store hread hlength (fun _ => by simp) hstored
    exact ⟨h, hnextLength, hanswered⟩
  · obtain ⟨arguments, harguments, hvisit⟩ := Option.bind_eq_some_iff.1 hvisit
    obtain ⟨degrees, hdegrees, hvisit⟩ := Option.bind_eq_some_iff.1 hvisit
    obtain ⟨registers', hstore, hnext⟩ := Option.bind_eq_some_iff.1 hvisit
    obtain rfl := Option.some.inj hnext
    exact Visited.of_written hlength (fun _ => rfl) (h.call hpure harguments hdegrees hstore)
  · obtain ⟨arguments, harguments, hvisit⟩ := Option.bind_eq_some_iff.1 hvisit
    obtain ⟨degrees, hdegrees, hvisit⟩ := Option.bind_eq_some_iff.1 hvisit
    obtain ⟨registers', hstore, hnext⟩ := Option.bind_eq_some_iff.1 hvisit
    obtain rfl := Option.some.inj hnext
    exact Visited.of_written hlength (fun _ => rfl) (h.call hdirectional harguments hdegrees hstore)
  · obtain ⟨degree, hdegree, hvisit⟩ := Option.bind_eq_some_iff.1 hvisit
    obtain ⟨start, hstart, hvisit⟩ := Option.bind_eq_some_iff.1 hvisit
    obtain ⟨registers', hwrite, hnext⟩ := Option.bind_eq_some_iff.1 hvisit
    obtain rfl := Option.some.inj hnext
    obtain ⟨element, helement, hdegrees⟩ := h.computes hinputs hcovers hdegree
    exact Visited.of_written hlength (fun p => step_of_element (helement p) hstart) (h.write hwrite hdegrees)

/-- From a bounded state on, every offset the analysis answers is affine at the end of the run. -/
theorem Bounded.visitOperations (hinputs : Varies S coordinate targets inputs)
    (hpure : CallsBounded S coordinate targets pureCall arithmetic.pureCall)
    (hdirectional : CallsBounded S coordinate targets pureCallDirectional arithmetic.pureCallDirectional)
    {program : List (LinearOp F)} (hcovers : ∀ op ∈ program, CoversResult op) {registers : Registers}
    {selected : SelectedStores} {s : P → Execution K}
    (h : Bounded S coordinate targets registers fun p => (s p).values)
    (hlength : selected.isComplete = true ∨ ∀ p, (s p).outputs.length = selected.outputStart)
    (hvisit : visitOperations (arithmetic.interface pureCall pureCallDirectional) admits targets program
      (registers, selected) = some ()) :
    ∀ offset ∈ selected.offsets,
      StoresAffine S coordinate targets (fun p => (run arithmetic (inputs p) program (s p)).outputs) offset := by
  have hcomplete : selected.isComplete = true → ∀ offset ∈ selected.offsets,
      StoresAffine S coordinate targets (fun p => (run arithmetic (inputs p) program (s p)).outputs) offset := by
    intro hcomplete offset hoffset
    rw [List.isEmpty_iff.1 hcomplete] at hoffset
    cases hoffset
  induction program generalizing registers selected s with
  | nil =>
    unfold Affinity.visitOperations at hvisit
    by_cases hdone : selected.isComplete = true
    · exact hcomplete hdone
    · rw [if_neg hdone] at hvisit
      cases hvisit
  | cons op program ih =>
    unfold Affinity.visitOperations at hvisit
    by_cases hdone : selected.isComplete = true
    · exact hcomplete hdone
    · rw [if_neg hdone] at hvisit
      obtain ⟨next, hnext, hvisit⟩ := Option.bind_eq_some_iff.1 hvisit
      have hvisited := h.visitOperation hinputs hpure hdirectional (hcovers op List.mem_cons_self)
        (hlength.resolve_left hdone) hnext
      intro offset hoffset
      rcases hvisited.answered offset hoffset with hleft | hstored
      · refine ih (fun op hop => hcovers op (List.mem_cons_of_mem _ hop)) hvisited.bounded hvisited.length hvisit
          (fun hempty offset hoffset => ?_) offset hleft
        rw [List.isEmpty_iff.1 hempty] at hoffset
        cases hoffset
      · exact hstored.run

/-! ## Projections -/

/-- The points that differ from `inputs` in the targets only. -/
def agreeing (inputs : Inputs K) (targets : Finset Nat) : Set (Nat → K) := { y | ∀ i ∉ targets, y i = inputs.y i }

omit [Field K] [DecidableEq K] in
theorem varies_agreeing (inputs : Inputs K) (targets : Finset Nat) :
    Varies (agreeing inputs targets) (fun i y => y i) targets fun y => { inputs with y } where
  target := fun _ _ _ _ => rfl
  other := fun i hi => ⟨inputs.y i, fun _ hy => hy i hi⟩
  p := fun _ => constantOn_const _
  time := constantOn_const _

/-- Where the analysis of a program completes without a nonlinear output, every selected output is an affine function
of the targets, the other inputs and the registers before the run fixed. The register checks every program passed
when it was built give `hcovers`, by `coversResult_of_checks`. -/
theorem visitProgramDegrees_affine (arithmetic : Arithmetic F K) (pureCall pureCallDirectional : SiteAffinity)
    (program : List (LinearOp F)) (hcovers : ∀ op ∈ program, CoversResult op) (targets : Finset Nat)
    (outputOffsets : List Nat)
    (hvisit : visitProgramDegrees (arithmetic.interface pureCall pureCallDirectional) program targets outputOffsets
      admits = some ())
    (inputs : Inputs K) (stale : Values K)
    (hpure : CallsBounded (agreeing inputs targets) (fun i y => y i) targets pureCall arithmetic.pureCall)
    (hdirectional : CallsBounded (agreeing inputs targets) (fun i y => y i) targets pureCallDirectional
      arithmetic.pureCallDirectional) :
    ∀ offset ∈ outputOffsets, ∃ (c : K) (a : Nat → K), ∀ y : Nat → K, (∀ i ∉ targets, y i = inputs.y i) →
      (run arithmetic { inputs with y } program ⟨stale, []⟩).outputs[offset]? =
        some (c + ∑ i ∈ targets, a i * y i) := by
  intro offset hoffset
  have hstart : Bounded (agreeing inputs targets) (fun i (y : Nat → K) => y i) targets []
      fun _ => (⟨stale, []⟩ : Execution K).values := ⟨List.Pairwise.nil, fun _ => trivial⟩
  obtain ⟨f, ⟨c, a, hf⟩, hstored⟩ := hstart.visitOperations (varies_agreeing inputs targets) hpure hdirectional
    hcovers (.inr fun _ => rfl) hvisit offset hoffset
  exact ⟨c, a, fun y hy => by rw [← hf y hy]; exact hstored y hy⟩

end

/-- Three unknowns scaled by one parameter, the first of them passed through a call and over the loaded unknowns. -/
def scaledRange : List (LinearOp ℚ) :=
  [.tensorLoad 0 .y 0 3 none 1, .loadP 3 0, .tensorBinary 4 .mul 0 3 3 1 0 1,
    .pureCall 0 [4] ⟨0, [3], [(.result, 1)]⟩, .storeOutputRange 4 3 1, .storeOutput 0, .loadSeed 0 0]

def firstArgument : Arithmetic ℚ ℚ where
  literal := some
  unary := fun _ value => value
  binary := fun _ lhs _ => lhs
  compare := fun _ _ _ => 0
  truth := fun value => value ≠ 0
  pureCall := fun _ arguments _ _ => (arguments.getD 0 []).getD 0 0
  pureCallDirectional := fun _ _ _ _ => 0
  other := fun _ _ values => (values, [])

theorem callsBounded_firstArgument (S : Set P) (coordinate : Nat → P → ℚ) (targets : Finset Nat) :
    CallsBounded S coordinate targets (fun _ => some [⟨[0], []⟩]) firstArgument.pureCall := by
  intro site arguments inputs outputs houtputs _ hinputs k d hd e
  unfold SiteAffinity.outputDegrees at houtputs
  split_ifs at houtputs
  have houtputs : ([⟨[0], []⟩] : List InputInteractions).mapM (·.degree inputs) = some outputs := houtputs
  obtain ⟨interactions, hinteractions, hdegree⟩ := mapM_getElem? houtputs hd
  obtain rfl : interactions = ⟨[0], []⟩ := by
    cases k with
    | zero => exact (Option.some.inj hinteractions).symm
    | succ k => cases hinteractions
  simp only [InputInteractions.degree, List.foldlM_cons, List.foldlM_nil, InputInteractions.interact] at hdegree
  cases hinput : inputs[0]? with
  | none => simp [hinput] at hdegree
  | some first =>
    have hsame : Degree.max .independent first = d := by simpa [hinput] using hdegree
    exact hsame ▸ hinputs 0 first hinput 0

theorem visitProgramDegrees_affine_scaledRange :
    ∃ (c : ℚ) (a : Nat → ℚ), ∀ y : Nat → ℚ, (∀ i ∉ ({0, 1} : Finset Nat), y i = 0) →
      (run firstArgument ⟨y, fun _ => 5, 0⟩ scaledRange ⟨fun _ => 7, []⟩).outputs[3]? =
        some (c + ∑ i ∈ {0, 1}, a i * y i) :=
  visitProgramDegrees_affine firstArgument (fun _ => some [⟨[0], []⟩]) (fun _ => none) scaledRange
    (fun op hop => by
      simp only [scaledRange, List.mem_cons, List.not_mem_nil, or_false] at hop
      rcases hop with rfl | rfl | rfl | rfl | rfl | rfl | rfl <;> trivial)
    {0, 1} [1, 3] (by decide) ⟨fun _ => 0, fun _ => 5, 0⟩ (fun _ => 7) (callsBounded_firstArgument _ _ _)
    (fun _ _ inputs _ houtputs => by
      unfold SiteAffinity.outputDegrees at houtputs
      split_ifs at houtputs
      cases houtputs) 3 (by simp)

/-! ## Blocks -/

def Issued (source : List (Option (ScalarProgramBlock F))) (node program : Nat) (operations : List (LinearOp F)) :
    Prop :=
  ∃ block, source[node]? = some (some block) ∧ block.programs[program]? = some operations

section
variable {source : List (Option (ScalarProgramBlock F))}

theorem Issued.eq {node program : Nat} {operations operations' : List (LinearOp F)}
    (h : Issued source node program operations) (h' : Issued source node program operations') :
    operations = operations' := by
  obtain ⟨block, hblock, hprogram⟩ := h
  obtain ⟨block', hblock', hprogram'⟩ := h'
  obtain rfl : block = block' := Option.some.inj (Option.some.inj (hblock.symm.trans hblock'))
  exact Option.some.inj (hprogram.symm.trans hprogram')

theorem mem_insertOffset {offset x : Nat} {offsets : List Nat} :
    x ∈ insertOffset offset offsets ↔ x = offset ∨ x ∈ offsets := by
  induction offsets with
  | nil => simp [insertOffset]
  | cons first rest ih =>
    unfold insertOffset
    split_ifs with hlt heq
    · simp
    · subst heq
      simp
    · rw [List.mem_cons, ih, List.mem_cons]
      tauto

def Selects (programs : List (SelectedProgram F)) (node program offset : Nat) : Prop :=
  ∃ selected ∈ programs, selected.node = node ∧ selected.program = program ∧ offset ∈ selected.offsets

theorem issued_selectOutput {output : SourceOutput F} {programs : List (SelectedProgram F)}
    (houtput : Issued source output.node output.program output.operations)
    (h : ∀ selected ∈ programs, Issued source selected.node selected.program selected.operations) :
    ∀ selected ∈ selectOutput output programs, Issued source selected.node selected.program selected.operations := by
  induction programs with
  | nil =>
    intro selected hselected
    obtain rfl := List.mem_singleton.1 hselected
    exact houtput
  | cons first rest ih =>
    have hfirst := h first List.mem_cons_self
    have hrest : ∀ selected ∈ rest, Issued source selected.node selected.program selected.operations :=
      fun selected hselected => h selected (List.mem_cons_of_mem _ hselected)
    unfold selectOutput
    split_ifs with hsame hbefore
    · intro selected hselected
      rcases List.mem_cons.1 hselected with rfl | hselected
      · exact hfirst
      · exact hrest selected hselected
    · intro selected hselected
      rcases List.mem_cons.1 hselected with rfl | hselected
      · exact houtput
      · exact h selected hselected
    · intro selected hselected
      rcases List.mem_cons.1 hselected with rfl | hselected
      · exact hfirst
      · exact ih hrest selected hselected

theorem selects_selectOutput (output : SourceOutput F) (programs : List (SelectedProgram F)) :
    Selects (selectOutput output programs) output.node output.program output.offset := by
  induction programs with
  | nil => exact ⟨_, List.mem_singleton_self _, rfl, rfl, List.mem_singleton_self _⟩
  | cons first rest ih =>
    unfold selectOutput
    split_ifs with hsame hbefore
    · exact ⟨_, List.mem_cons_self, hsame.1.symm, hsame.2.symm, mem_insertOffset.2 (.inl rfl)⟩
    · exact ⟨_, List.mem_cons_self, rfl, rfl, List.mem_singleton_self _⟩
    · obtain ⟨selected, hselected, hfound⟩ := ih
      exact ⟨selected, List.mem_cons_of_mem _ hselected, hfound⟩

theorem Selects.selectOutput {programs : List (SelectedProgram F)} {node program offset : Nat}
    (h : Selects programs node program offset) (output : SourceOutput F) :
    Selects (selectOutput output programs) node program offset := by
  obtain ⟨selected, hselected, hfound⟩ := h
  induction programs with
  | nil => cases hselected
  | cons first rest ih =>
    unfold Affinity.selectOutput
    split_ifs with hsame hbefore
    · rcases List.mem_cons.1 hselected with rfl | hselected
      · exact ⟨_, List.mem_cons_self, hfound.1, hfound.2.1, mem_insertOffset.2 (.inr hfound.2.2)⟩
      · exact ⟨selected, List.mem_cons_of_mem _ hselected, hfound⟩
    · exact ⟨selected, List.mem_cons_of_mem _ hselected, hfound⟩
    · rcases List.mem_cons.1 hselected with rfl | hselected
      · exact ⟨selected, List.mem_cons_self, hfound⟩
      · obtain ⟨found, hmem, hfound⟩ := ih hselected
        exact ⟨found, List.mem_cons_of_mem _ hmem, hfound⟩

theorem selectRows_spec {outputs : Nat → Option (SourceOutput F)}
    (hsource : ∀ row output, outputs row = some output → Issued source output.node output.program output.operations)
    {rows : List Nat} {start programs : List (SelectedProgram F)}
    (hstart : ∀ selected ∈ start, Issued source selected.node selected.program selected.operations)
    (h : rows.foldlM (fun programs row => do pure (selectOutput (← outputs row) programs)) start = some programs) :
    (∀ selected ∈ programs, Issued source selected.node selected.program selected.operations) ∧
      (∀ node program offset, Selects start node program offset → Selects programs node program offset) ∧
      ∀ row ∈ rows, ∃ output, outputs row = some output ∧
        Selects programs output.node output.program output.offset := by
  induction rows generalizing start with
  | nil =>
    obtain rfl : start = programs := Option.some.inj h
    exact ⟨hstart, fun _ _ _ h => h, fun row hrow => by cases hrow⟩
  | cons row rows ih =>
    rw [List.foldlM_cons] at h
    simp only [Option.bind_eq_bind, Option.bind_eq_some_iff] at h
    obtain ⟨next, ⟨output, houtput, hnext⟩, h⟩ := h
    obtain rfl := Option.some.inj hnext
    obtain ⟨hissued, hkept, hrows⟩ := ih (issued_selectOutput (hsource row output houtput) hstart) h
    refine ⟨hissued, fun node program offset hselects => hkept _ _ _ (hselects.selectOutput output),
      fun found hfound => ?_⟩
    rcases List.mem_cons.1 hfound with rfl | hfound
    · exact ⟨output, houtput, hkept _ _ _ (selects_selectOutput output start)⟩
    · exact hrows found hfound

theorem blockIsAffine_spec {interface : Interface F} {outputs : Nat → Option (SourceOutput F)}
    (hsource : ∀ row output, outputs row = some output → Issued source output.node output.program output.operations)
    {rows : List Nat} {targets : Finset Nat} (h : blockIsAffine interface outputs rows targets = true) :
    ∀ row ∈ rows, ∃ output offsets, outputs row = some output ∧ output.offset ∈ offsets ∧
      visitProgramDegrees interface output.operations targets offsets admits = some () := by
  unfold blockIsAffine at h
  split at h
  · cases h
  · rename_i programs hprograms
    obtain ⟨hissued, -, hrows⟩ := selectRows_spec hsource (fun selected hselected => by cases hselected) hprograms
    intro row hrow
    obtain ⟨output, houtput, selected, hselected, hnode, hprogram, hoffset⟩ := hrows row hrow
    have hvisit := List.all_eq_true.1 h selected hselected
    obtain ⟨⟨⟩, hvisit⟩ := Option.isSome_iff_exists.1 hvisit
    have hsame : selected.operations = output.operations :=
      (hissued selected hselected).eq (hnode ▸ hprogram ▸ hsource row output houtput)
    exact ⟨output, selected.offsets, houtput, hoffset, hsame ▸ hvisit⟩

def AllIssued (source : List (Option (ScalarProgramBlock F))) (programs : List (Nat × SourceOutput F)) : Prop :=
  ∀ entry ∈ programs, Issued source entry.2.node entry.2.program entry.2.operations

theorem issued_sourceOutputs {block : ScalarProgramBlock F} {node : Nat} (hblock : source[node]? = some (some block))
    {output : SourceOutput F} (h : output ∈ block.sourceOutputs node) :
    Issued source output.node output.program output.operations := by
  obtain ⟨⟨operations, program⟩, hprogram, h⟩ := List.mem_flatMap.1 h
  obtain ⟨offset, -, rfl⟩ := List.mem_map.1 h
  exact ⟨block, hblock, List.mem_zipIdx_iff_getElem?.1 hprogram⟩

theorem AllIssued.collectNode {s s' : List (Nat × SourceOutput F) × Nat} {node : Option (ScalarProgramBlock F) × Nat}
    (hnode : node ∈ source.zipIdx) (hs : AllIssued source s.1) (h : collectNode s node = some s') :
    AllIssued source s'.1 := by
  obtain ⟨block, hblock, h⟩ := Option.bind_eq_some_iff.1 h
  obtain ⟨outputs, -, h⟩ := Option.bind_eq_some_iff.1 h
  obtain ⟨cursor, -, h⟩ := Option.bind_eq_some_iff.1 h
  obtain ⟨programs, hprograms, h⟩ := Option.bind_eq_some_iff.1 h
  obtain rfl := Option.some.inj h
  have hissued : source[node.2]? = some (some block) := hblock ▸ List.mem_zipIdx_iff_getElem?.1 hnode
  refine foldlM_inv (fun _ programs => AllIssued source programs) ?_ hs hprograms
  intro pre entry post programs programs' hlist hissuedPrograms hinsert
  unfold insertOutput at hinsert
  split_ifs at hinsert
  obtain rfl := Option.some.inj hinsert
  have hentry : entry ∈ outputs.zip (block.sourceOutputs node.2) := hlist ▸ List.mem_append_right _ List.mem_cons_self
  intro found hfound
  rcases List.mem_cons.1 hfound with rfl | hfound
  · exact issued_sourceOutputs hissued (List.of_mem_zip hentry).2
  · exact hissuedPrograms found hfound

theorem allIssued_scalarOutputPrograms {programs : List (Nat × SourceOutput F)}
    (h : scalarOutputPrograms source = some programs) : AllIssued source programs := by
  obtain ⟨final, hfinal, h⟩ := Option.bind_eq_some_iff.1 h
  obtain rfl := Option.some.inj h
  refine foldlM_inv (fun _ s => AllIssued source s.1) ?_ (fun entry hentry => by cases hentry) hfinal
  intro pre node post s s' hlist hs hcollect
  exact hs.collectNode (hlist ▸ List.mem_append_right _ List.mem_cons_self) hcollect

theorem lookup_recordAffinity (proofs : List (Nat × Bool)) (proof : Nat × Bool) (index : Nat) :
    (recordAffinity proofs proof).lookup index =
      if index = proof.1 then some ((proofs.lookup index).getD true && proof.2) else proofs.lookup index := by
  unfold recordAffinity
  split <;> rename_i hlookup
  · rw [lookup_insertEntry]
    split_ifs with hindex
    · rw [hindex, hlookup, Option.getD_some]
    · rfl
  · rw [lookup_insertEntry]
    split_ifs with hindex
    · rw [hindex, hlookup, Option.getD_none, Bool.true_and]
    · rfl

theorem recordAffinity_true {blocks proofs : List (Nat × Bool)} {index : Nat}
    (h : (blocks.foldl recordAffinity proofs).lookup index = some true) :
    (proofs.lookup index).getD true = true ∧ ∀ block ∈ blocks, block.1 = index → block.2 = true := by
  induction blocks generalizing proofs with
  | nil =>
    have hlookup : proofs.lookup index = some true := h
    exact ⟨by rw [hlookup, Option.getD_some], fun block hblock => by cases hblock⟩
  | cons first rest ih =>
    obtain ⟨hfirst, hrest⟩ := ih h
    rw [lookup_recordAffinity] at hfirst
    by_cases hindex : index = first.1
    · rw [if_pos hindex, Option.getD_some, Bool.and_eq_true] at hfirst
      refine ⟨hfirst.1, fun block hblock => ?_⟩
      rcases List.mem_cons.1 hblock with rfl | hblock
      · exact fun _ => hfirst.2
      · exact hrest block hblock
    · rw [if_neg hindex] at hfirst
      refine ⟨hfirst, fun block hblock hsame => ?_⟩
      rcases List.mem_cons.1 hblock with rfl | hblock
      · exact absurd hsame.symm hindex
      · exact hrest block hblock hsame

/-- A block recorded as affine: each of its rows is an output of an issued program whose analysis completes. -/
theorem projectionAffinities_spec {interface : Interface F} {plan : List PlanBlock} {block : PlanBlock}
    (hblock : block ∈ plan) (h : (projectionAffinities interface source plan).lookup block.index = some true) :
    ∀ row ∈ block.rows, ∃ programs output offsets, scalarOutputPrograms source = some programs ∧
      programs.lookup row = some output ∧ Issued source output.node output.program output.operations ∧
      output.offset ∈ offsets ∧
      visitProgramDegrees interface output.operations block.yIndices.toFinset offsets admits = some () := by
  unfold projectionAffinities at h
  split at h
  · cases h
  · rename_i programs hprograms
    have haffine := (recordAffinity_true h).2 _ (List.mem_map_of_mem hblock) rfl
    have hissued := allIssued_scalarOutputPrograms hprograms
    have hsource : ∀ row output, programs.lookup row = some output →
        Issued source output.node output.program output.operations := fun row output hlookup => by
      obtain ⟨before, after, rfl, -⟩ := List.lookup_eq_some_iff.1 hlookup
      exact hissued (row, output) (List.mem_append_right _ List.mem_cons_self)
    intro row hrow
    obtain ⟨output, offsets, houtput, hoffset, hvisit⟩ := blockIsAffine_spec hsource haffine row hrow
    exact ⟨programs, output, offsets, hprograms, houtput, hsource row output houtput, hoffset, hvisit⟩

/-- A block that the plan records as affine: at every point each of its rows is affine in the
unknowns of the block. -/
theorem projectionAffinities_affine [DecidableEq K] (arithmetic : Arithmetic F K)
    (pureCall pureCallDirectional : SiteAffinity)
    (hcovers : ∀ node program operations, Issued source node program operations → ∀ op ∈ operations, CoversResult op)
    (plan : List PlanBlock) (block : PlanBlock) (hblock : block ∈ plan)
    (h : (projectionAffinities (arithmetic.interface pureCall pureCallDirectional) source plan).lookup block.index =
      some true)
    (inputs : Inputs K) (stale : Values K)
    (hpure : CallsBounded (agreeing inputs block.yIndices.toFinset) (fun i y => y i) block.yIndices.toFinset pureCall
      arithmetic.pureCall)
    (hdirectional : CallsBounded (agreeing inputs block.yIndices.toFinset) (fun i y => y i) block.yIndices.toFinset
      pureCallDirectional arithmetic.pureCallDirectional) :
    ∀ row ∈ block.rows, ∃ programs output, scalarOutputPrograms source = some programs ∧
      programs.lookup row = some output ∧ Issued source output.node output.program output.operations ∧
      ∃ (c : K) (a : Nat → K), ∀ y : Nat → K, (∀ i ∉ block.yIndices.toFinset, y i = inputs.y i) →
        (run arithmetic { inputs with y } output.operations ⟨stale, []⟩).outputs[output.offset]? =
          some (c + ∑ i ∈ block.yIndices.toFinset, a i * y i) := by
  intro row hrow
  obtain ⟨programs, output, offsets, hprograms, houtput, hprogram, hoffset, hvisit⟩ := projectionAffinities_spec hblock h row hrow
  have hstart : Bounded (agreeing inputs block.yIndices.toFinset) (fun i (y : Nat → K) => y i)
      block.yIndices.toFinset [] fun _ => (⟨stale, []⟩ : Execution K).values := ⟨List.Pairwise.nil, fun _ => trivial⟩
  obtain ⟨f, ⟨c, a, hf⟩, hstored⟩ := hstart.visitOperations (varies_agreeing inputs block.yIndices.toFinset) hpure
    hdirectional (hcovers _ _ _ hprogram) (.inr fun _ => rfl) hvisit output.offset hoffset
  exact ⟨programs, output, hprograms, houtput, hprogram, c, a, fun y hy => by rw [← hf y hy]; exact hstored y hy⟩

end

/-- One program of four outputs, the second and the last of which are a block. -/
theorem projectionAffinities_affine_scaledRange : ∃ programs output,
    scalarOutputPrograms [some ⟨[scaledRange], 4, none⟩] = some programs ∧ programs.lookup 3 = some output ∧
      Issued [some ⟨[scaledRange], 4, none⟩] output.node output.program output.operations ∧
      ∃ (c : ℚ) (a : Nat → ℚ), ∀ y : Nat → ℚ, (∀ i ∉ [0, 1].toFinset, y i = 0) →
        (run firstArgument ⟨y, fun _ => 5, 0⟩ output.operations ⟨fun _ => 7, []⟩).outputs[output.offset]? =
          some (c + ∑ i ∈ [0, 1].toFinset, a i * y i) :=
  projectionAffinities_affine firstArgument (fun _ => some [⟨[0], []⟩]) (fun _ => none)
    (fun node program operations ⟨block, hblock, hprogram⟩ op hop => by
      obtain rfl : block = ⟨[scaledRange], 4, none⟩ := by
        have hmem := List.mem_of_getElem? hblock
        simpa using hmem
      obtain rfl : operations = scaledRange := by simpa using List.mem_of_getElem? hprogram
      simp only [scaledRange, List.mem_cons, List.not_mem_nil, or_false] at hop
      rcases hop with rfl | rfl | rfl | rfl | rfl | rfl | rfl <;> trivial)
    [⟨0, [1, 3], [0, 1]⟩] ⟨0, [1, 3], [0, 1]⟩ List.mem_cons_self (by decide) ⟨fun _ => 0, fun _ => 5, 0⟩
    (fun _ => 7) (callsBounded_firstArgument _ _ _)
    (fun _ _ inputs _ houtputs => by
      unfold SiteAffinity.outputDegrees at houtputs
      split_ifs at houtputs
      cases houtputs) 3 (by simp)

end Rumoca.Solve.Affinity
