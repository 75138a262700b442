import Mathlib.Data.List.ReduceOption
import Rumoca.Lib.Loop
import Rumoca.Solve.RegisterVersions
/-!
# Removal of unread pure operations

`RegisterVersionProgram.derive` gives, for each operation, the pieces of its
operands: the latest write of their registers and where the values lie in the
storage of all writes. `pruneUnreadPureOperations` marks backwards the producers
of what live operations read and drops the prunable operations left unmarked.
-/

namespace Rumoca.Solve

open Rumoca.Lib RegisterVersionInventory

variable {F : Type}

/-- One operand piece, backed by one write: its registers, their values in the
storage, the operation that wrote them, and the selection that it is part of. -/
structure RegisterOperandPiece where
  registers : Nat × Nat
  values : Nat × Nat
  producer : Nat
  selectionStart : Nat
  selectionStride : Nat
deriving DecidableEq, Repr

structure RegisterOperationVersions where
  operands : List RegisterOperandPiece
  destination : Option (Reg × Nat × Nat)
deriving DecidableEq, Repr

structure RegisterVersionProgram where
  operations : List RegisterOperationVersions
  storageCount : Nat
  singleWriter : Bool
deriving DecidableEq, Repr

/-- The operation that writes, and where its values lie. -/
structure Write where
  operation : Nat
  storage : Nat
deriving DecidableEq, Repr

/-- What `derive_checked` has found so far. -/
structure VersionState where
  inventory : RegisterVersionInventory Write
  storageCount : Nat
  singleWriter : Bool

def operandPiece (read : RegisterReadRange) (piece : ViewPiece Write) : Option (Option RegisterOperandPiece) :=
  let (low, high, piece) := piece
  let first := if read.stride = 0 then some 0 else checkedUsize ((low + (read.stride - 1)) / read.stride * read.stride)
  first.map fun first =>
    if first < low ∨ high ≤ first then none
    else
      let values := piece.family.storage + piece.offset
      some { registers := (read.start + low, read.start + high)
             values := (values, values + (high - low))
             producer := piece.family.operation
             selectionStart := read.start
             selectionStride := read.stride }

def captureRange (inventory : RegisterVersionInventory Write) (read : RegisterReadRange) :
    Option (List RegisterOperandPiece) := do
  let view ← stridedView inventory read.start read.count read.stride 1
  let pieces ← view.mapM (operandPiece read)
  return pieces.reduceOption

def captureOperands (inventory : RegisterVersionInventory Write) (op : LinearOp F) : Option (List RegisterOperandPiece) := do
  let reads ← readRegisterRanges op
  let operands ← reads.mapM (captureRange inventory)
  return operands.flatten

def installDestination (op : LinearOp F) (index : Nat) (s : VersionState) :
    Option (Option (Reg × Nat × Nat) × VersionState) :=
  match op.dstRegister with
  | none => some (none, s)
  | some start => do
    let count := op.dstRegisterCount
    let stop ← checkedUsize (s.storageCount + count)
    if u32Limit < start + count then none
    return (some (start, s.storageCount, stop),
      { inventory := install s.inventory start count ⟨index, s.storageCount⟩
        storageCount := stop
        singleWriter := s.singleWriter && !overlaps s.inventory start count })

def deriveVersions : List (LinearOp F) → (index : Nat) → VersionState →
    Option (List RegisterOperationVersions × VersionState)
  | [], _, s => some ([], s)
  | op :: rest, index, s => do
    let operands ← captureOperands s.inventory op
    let (destination, s) ← installDestination op index s
    let (operations, s) ← deriveVersions rest (index + 1) s
    return (⟨operands, destination⟩ :: operations, s)

/-- `RegisterVersionProgram::derive`. -/
def RegisterVersionProgram.derive (row : List (LinearOp F)) : Option RegisterVersionProgram :=
  match deriveRegisterFlow row with
  | .error _ => none
  | .ok _ => (deriveVersions row 0 ⟨[], 0, true⟩).map fun (operations, s) => ⟨operations, s.storageCount, s.singleWriter⟩

def markProducers (producers : Nat → List Nat) (live : List Bool) (index : Nat) : List Bool :=
  if live[index]? = some true then (producers index).foldl (fun live producer => live.set producer true) live else live

/-- One backward sweep over the first `n` operations. -/
def sweep (producers : Nat → List Nat) : (n : Nat) → List Bool → List Bool
  | 0, live => live
  | n + 1, live => sweep producers n (markProducers producers live n)

def RegisterVersionProgram.producers (versions : RegisterVersionProgram) (index : Nat) : List Nat :=
  match versions.operations[index]? with
  | some operation => operation.operands.map (·.producer)
  | none => []

def RegisterVersionProgram.live (versions : RegisterVersionProgram) (p : List (LinearOp F)) : List Bool :=
  sweep versions.producers p.length (p.map fun op => !op.faultClass.isPrunable)

def pruneUnreadPureOperations (p : List (LinearOp F)) : List (LinearOp F) :=
  match RegisterVersionProgram.derive p with
  | none => p
  | some versions => if (versions.live p).all id then p else kept (p.zip (versions.live p))

/-! ## The operand pieces -/

/-- Operation `producer` is the latest before operation `index` that writes the register. -/
def LatestWriter (p : List (LinearOp F)) (index : Nat) (r : Nat) (producer : Nat) : Prop :=
  producer < index ∧ (∃ op, p[producer]? = some op ∧ r ∈ op.destination) ∧
    ∀ j op, producer < j → j < index → p[j]? = some op → r ∉ op.destination

theorem LatestWriter.unique {p : List (LinearOp F)} {index r k k' : Nat} (h : LatestWriter p index r k)
    (h' : LatestWriter p index r k') : k = k' := by
  obtain ⟨hlt, ⟨op, hop, hmem⟩, hlast⟩ := h
  obtain ⟨hlt', ⟨op', hop', hmem'⟩, hlast'⟩ := h'
  rcases Nat.lt_trichotomy k k' with hk | hk | hk
  · exact absurd hmem' (hlast k' op' hk hlt' hop')
  · exact hk
  · exact absurd hmem (hlast' k op hk hlt hop)

/-- The pieces of one operation's operands name the latest writers of the registers read, and no others. -/
structure NamesWriters (p : List (LinearOp F)) (index : Nat) (op : LinearOp F) (operands : List RegisterOperandPiece) :
    Prop where
  latest : ∀ piece ∈ operands, ∀ r, piece.registers.1 ≤ r → r < piece.registers.2 → LatestWriter p index r piece.producer
  read : ∀ piece ∈ operands, ∃ r ∈ op.sources, piece.registers.1 ≤ r ∧ r < piece.registers.2
  covered : ∀ r ∈ op.sources, ∃ piece ∈ operands, piece.registers.1 ≤ r ∧ r < piece.registers.2

/-- The inventory before operation `index` holds the latest writes. -/
structure Current (p : List (LinearOp F)) (index : Nat) (inventory : RegisterVersionInventory Write) : Prop where
  disjoint : RegisterVersionInventory.Disjoint inventory
  latest : ∀ r write offset, Version inventory r write offset → LatestWriter p index r write.operation

theorem ceil_spec (low : Nat) {stride : Nat} (h : stride ≠ 0) : stride ∣ (low + (stride - 1)) / stride * stride ∧
    low ≤ (low + (stride - 1)) / stride * stride ∧
    ∀ position, stride ∣ position → low ≤ position → (low + (stride - 1)) / stride * stride ≤ position := by
  refine ⟨Nat.dvd_mul_left _ _, ?_, ?_⟩
  · have hdiv := Nat.div_add_mod (low + (stride - 1)) stride
    have hmod := Nat.mod_lt (low + (stride - 1)) (Nat.pos_of_ne_zero h)
    rw [Nat.mul_comm] at hdiv
    omega
  · rintro position ⟨k, rfl⟩ hlow
    rw [Nat.mul_comm stride k]
    refine Nat.mul_le_mul_right stride ?_
    rw [← Nat.lt_succ_iff, Nat.div_lt_iff_lt_mul (Nat.pos_of_ne_zero h), Nat.succ_mul, Nat.mul_comm k]
    omega

theorem operandPiece_spec {read : RegisterReadRange} {low high : Nat} {piece : RegisterVersionPiece Write}
    {result : Option RegisterOperandPiece} (h : operandPiece read (low, high, piece) = some result) :
    (∀ operand, result = some operand → operand.registers = (read.start + low, read.start + high) ∧
      operand.producer = piece.family.operation ∧ ∃ position, read.stride ∣ position ∧ low ≤ position ∧ position < high) ∧
    (result = none → ∀ position, read.stride ∣ position → low ≤ position → ¬ position < high) := by
  unfold operandPiece at h
  simp only at h
  obtain ⟨first, hfirst, rfl⟩ := Option.map_eq_some_iff.1 h
  have hselected : read.stride ∣ first ∧ ∀ position, read.stride ∣ position → low ≤ position → first ≤ position := by
    split_ifs at hfirst with hzero
    · cases hfirst
      exact ⟨Nat.dvd_zero _, fun _ _ _ => Nat.zero_le _⟩
    · obtain ⟨hdvd, -, hleast⟩ := ceil_spec low hzero
      rw [checkedUsize_value hfirst]
      exact ⟨hdvd, hleast⟩
  constructor
  · intro operand hoperand
    split_ifs at hoperand with houtside
    cases hoperand
    exact ⟨rfl, rfl, first, hselected.1, by omega, by omega⟩
  · intro hnone position hposition hlow hhigh
    split_ifs at hnone with houtside
    have hle := hselected.2 position hposition hlow
    rcases houtside with hbefore | hafter
    · -- only a zero stride selects nothing from `low` on
      split_ifs at hfirst with hzero
      · cases hfirst
        rw [hzero] at hposition
        have := Nat.zero_dvd.1 hposition
        omega
      · obtain ⟨-, hge, -⟩ := ceil_spec low hzero
        rw [checkedUsize_value hfirst] at hbefore
        omega
    · omega

theorem Current.captureRange {p : List (LinearOp F)} {index : Nat} {inventory : RegisterVersionInventory Write}
    (h : Current p index inventory) {read : RegisterReadRange} {operands : List RegisterOperandPiece}
    (hcapture : captureRange inventory read = some operands) :
    (∀ piece ∈ operands,
      (∀ r, piece.registers.1 ≤ r → r < piece.registers.2 → LatestWriter p index r piece.producer) ∧
      ∃ term < read.count, piece.registers.1 ≤ read.start + term * read.stride ∧
        read.start + term * read.stride < piece.registers.2) ∧
    ∀ term < read.count, ∃ piece ∈ operands, piece.registers.1 ≤ read.start + term * read.stride ∧
      read.start + term * read.stride < piece.registers.2 := by
  unfold Solve.captureRange at hcapture
  obtain ⟨view, hview, hcapture⟩ := Option.bind_eq_some_iff.1 hcapture
  obtain ⟨pieces, hpieces, hcapture⟩ := Option.bind_eq_some_iff.1 hcapture
  cases hcapture
  obtain ⟨hviews, hcovers⟩ := h.disjoint.stridedView hview
  constructor
  · intro operand hoperand
    obtain ⟨⟨low, high, piece⟩, hmem, hpiece⟩ := mapM_mem hpieces _ (List.reduceOption_mem_iff.1 hoperand)
    obtain ⟨hregisters, hproducer, position, hselected, hlow, hhigh⟩ := (operandPiece_spec hpiece).1 operand rfl
    obtain ⟨-, hbound, hversion⟩ := hviews low high piece hmem
    rw [hregisters, hproducer]
    refine ⟨fun r hge hlt => h.latest r _ _ (hversion r hge hlt), ?_⟩
    obtain ⟨term, rfl⟩ := hselected
    rcases Nat.eq_zero_or_pos read.count with hzero | hpos
    · unfold RegisterVersionInventory.stridedView at hview
      rw [if_pos hzero] at hview
      cases hview
      cases hmem
    · rcases Nat.lt_or_ge term read.count with hterm | hterm
      · exact ⟨term, hterm, by rw [Nat.mul_comm]; dsimp only; omega, by rw [Nat.mul_comm]; dsimp only; omega⟩
      · -- past the range only a zero stride selects, and then the first register
        have hstride : read.stride = 0 := by
          by_contra hne
          have hle : (read.count - 1 + 1) * read.stride ≤ term * read.stride := Nat.mul_le_mul_right _ (by omega)
          rw [Nat.succ_mul, Nat.mul_comm term] at hle
          omega
        rw [hstride] at hlow hhigh ⊢
        exact ⟨0, hpos, by dsimp only; omega, by dsimp only; omega⟩
  · intro term hterm
    obtain ⟨low, high, piece, hmem, hlow, hhigh⟩ := hcovers term hterm
    obtain ⟨result, hresult, hpiece⟩ := mapM_forall hpieces _ hmem
    cases result with
    | none => exact absurd hhigh ((operandPiece_spec hpiece).2 rfl _ (Nat.dvd_mul_left _ _) hlow)
    | some operand =>
      obtain ⟨hregisters, -⟩ := (operandPiece_spec hpiece).1 operand rfl
      refine ⟨operand, List.reduceOption_mem_iff.2 hresult, ?_⟩
      rw [hregisters]
      exact ⟨by dsimp only; omega, by dsimp only; omega⟩

theorem Current.captureOperands {p : List (LinearOp F)} {index : Nat} {inventory : RegisterVersionInventory Write}
    (h : Current p index inventory) {op : LinearOp F} {operands : List RegisterOperandPiece}
    (hcapture : captureOperands inventory op = some operands) : NamesWriters p index op operands := by
  unfold Solve.captureOperands at hcapture
  obtain ⟨reads, hreads, hcapture⟩ := Option.bind_eq_some_iff.1 hcapture
  obtain ⟨pieces, hpieces, hcapture⟩ := Option.bind_eq_some_iff.1 hcapture
  cases hcapture
  have hsources := mem_sources_iff hreads
  refine ⟨fun piece hpiece => ?_, fun piece hpiece => ?_, fun r hr => ?_⟩
  · obtain ⟨group, hgroup, hmem⟩ := List.mem_flatten.1 hpiece
    obtain ⟨read, hread, hcaptured⟩ := mapM_mem hpieces group hgroup
    exact ((h.captureRange hcaptured).1 piece hmem).1
  · obtain ⟨group, hgroup, hmem⟩ := List.mem_flatten.1 hpiece
    obtain ⟨read, hread, hcaptured⟩ := mapM_mem hpieces group hgroup
    obtain ⟨term, hterm, hfacts⟩ := ((h.captureRange hcaptured).1 piece hmem).2
    exact ⟨_, (hsources _).2 ⟨read, hread, term, hterm, rfl⟩, hfacts⟩
  · obtain ⟨read, hread, term, hterm, rfl⟩ := (hsources r).1 hr
    obtain ⟨group, hgroup, hcaptured⟩ := mapM_forall hpieces read hread
    obtain ⟨piece, hpiece, hfacts⟩ := (h.captureRange hcaptured).2 term hterm
    exact ⟨piece, List.mem_flatten.2 ⟨group, hgroup, hpiece⟩, hfacts⟩

theorem Current.nil (p : List (LinearOp F)) : Current p 0 [] :=
  ⟨RegisterVersionInventory.Disjoint.nil, fun _ _ _ ⟨_, he, _⟩ => absurd he List.not_mem_nil⟩

theorem Current.installDestination {p : List (LinearOp F)} {index : Nat} {s s' : VersionState}
    (h : Current p index s.inventory) {op : LinearOp F} (hop : p[index]? = some op)
    {destination : Option (Reg × Nat × Nat)} (hinstall : installDestination op index s = some (destination, s')) :
    Current p (index + 1) s'.inventory := by
  have hlater : ∀ r k, LatestWriter p index r k → r ∉ op.destination → LatestWriter p (index + 1) r k := by
    rintro r k ⟨hlt, hwriter, hlast⟩ hr
    refine ⟨Nat.lt_succ_of_lt hlt, hwriter, fun j o hj hle ho => ?_⟩
    rcases Nat.lt_or_eq_of_le (Nat.lt_succ_iff.1 hle) with hlt' | rfl
    · exact hlast j o hj hlt' ho
    · cases hop.symm.trans ho
      exact hr
  unfold Solve.installDestination at hinstall
  cases hdst : op.dstRegister with
  | none =>
    rw [hdst] at hinstall
    cases hinstall
    refine ⟨h.disjoint, fun r write offset hversion => hlater r _ (h.latest r write offset hversion) ?_⟩
    simp [LinearOp.destination_none hdst]
  | some start =>
    rw [hdst] at hinstall
    obtain ⟨stop, -, hinstall⟩ := Option.bind_eq_some_iff.1 hinstall
    simp only at hinstall
    split_ifs at hinstall
    · cases hinstall
    · cases hinstall
      obtain ⟨hdisjoint, hversions⟩ := h.disjoint.install start op.dstRegisterCount (Write.mk index s.storageCount)
      refine ⟨hdisjoint, fun r write offset hversion => ?_⟩
      rw [hversions] at hversion
      have hmem := LinearOp.mem_destination hdst r
      split_ifs at hversion with hin
      · obtain ⟨rfl, -⟩ := hversion
        exact ⟨Nat.lt_succ_self _, ⟨op, hop, hmem.2 hin⟩, fun j o hj hle _ => absurd hj (Nat.not_lt.2 (Nat.lt_succ_iff.1 hle))⟩
      · exact hlater r _ (h.latest r write offset hversion) fun hr => hin (hmem.1 hr)

theorem deriveVersions_spec {p rest : List (LinearOp F)} {index : Nat} {s s' : VersionState}
    {operations : List RegisterOperationVersions} (h : Current p index s.inventory)
    (hrest : ∀ i, p[index + i]? = rest[i]?) (hderive : deriveVersions rest index s = some (operations, s')) :
    operations.length = rest.length ∧ ∀ (i : Nat) (op : LinearOp F) (versions : RegisterOperationVersions),
      rest[i]? = some op → operations[i]? = some versions → NamesWriters p (index + i) op versions.operands := by
  induction rest generalizing index s operations with
  | nil =>
    cases hderive
    exact ⟨rfl, by simp⟩
  | cons op rest ih =>
    rw [deriveVersions] at hderive
    obtain ⟨operands, hcapture, hderive⟩ := Option.bind_eq_some_iff.1 hderive
    obtain ⟨⟨destination, s₁⟩, hinstall, hderive⟩ := Option.bind_eq_some_iff.1 hderive
    obtain ⟨⟨others, s₂⟩, hothers, hderive⟩ := Option.bind_eq_some_iff.1 hderive
    cases hderive
    have hop : p[index]? = some op := by simpa using hrest 0
    have hrest' : ∀ i, p[index + 1 + i]? = rest[i]? := fun i => by
      have := hrest (i + 1)
      rwa [List.getElem?_cons_succ, show index + (i + 1) = index + 1 + i by omega] at this
    obtain ⟨hlength, hnames⟩ := ih (h.installDestination hop hinstall) hrest' hothers
    refine ⟨congrArg Nat.succ hlength, fun i o versions ho hversions => ?_⟩
    cases i with
    | zero =>
      cases ho
      cases hversions
      exact h.captureOperands hcapture
    | succ i =>
      have := hnames i o versions ho hversions
      rwa [show index + 1 + i = index + (i + 1) by omega] at this

theorem derive_spec {p : List (LinearOp F)} {versions : RegisterVersionProgram}
    (h : RegisterVersionProgram.derive p = some versions) : FlowValid p ∧ versions.operations.length = p.length ∧
      ∀ (i : Nat) (op : LinearOp F) (operation : RegisterOperationVersions), p[i]? = some op →
        versions.operations[i]? = some operation → NamesWriters p i op operation.operands := by
  unfold RegisterVersionProgram.derive at h
  cases hflow : deriveRegisterFlow p with
  | error e =>
    rw [hflow] at h
    cases h
  | ok count =>
    rw [hflow] at h
    obtain ⟨⟨operations, s⟩, hderive, rfl⟩ := Option.map_eq_some_iff.1 h
    obtain ⟨hlength, hnames⟩ := deriveVersions_spec (Current.nil p) (by simp) hderive
    refine ⟨by rw [FlowValid, hflow]; rfl, hlength, fun i op operation hop hoperation => ?_⟩
    have := hnames i op operation hop hoperation
    rwa [Nat.zero_add] at this

/-! ## The sweep -/

theorem foldl_set_length (producers : List Nat) (live : List Bool) :
    (producers.foldl (fun live producer => live.set producer true) live).length = live.length := by
  induction producers generalizing live with
  | nil => rfl
  | cons producer rest ih => rw [List.foldl_cons, ih, List.length_set]

theorem foldl_set_iff (producers : List Nat) (live : List Bool) (k : Nat) :
    (producers.foldl (fun live producer => live.set producer true) live)[k]? = some true ↔
      live[k]? = some true ∨ (k < live.length ∧ k ∈ producers) := by
  induction producers generalizing live with
  | nil => simp
  | cons producer rest ih =>
    rw [List.foldl_cons, ih, List.length_set, List.getElem?_set, List.mem_cons]
    by_cases hk : producer = k
    · subst hk
      by_cases hlen : producer < live.length
      · simp [hlen]
      · simp [hlen]
    · rw [if_neg hk]
      have hk' : k ≠ producer := Ne.symm hk
      simp [hk']

theorem markProducers_iff (producers : Nat → List Nat) (live : List Bool) (index k : Nat) :
    (markProducers producers live index)[k]? = some true ↔ live[k]? = some true ∨
      (k < live.length ∧ live[index]? = some true ∧ k ∈ producers index) := by
  unfold markProducers
  split_ifs with h
  · rw [foldl_set_iff]
    simp [h]
  · simp [h]

theorem markProducers_length (producers : Nat → List Nat) (live : List Bool) (index : Nat) :
    (markProducers producers live index).length = live.length := by
  unfold markProducers
  split_ifs
  · exact foldl_set_length _ _
  · rfl

/-- One sweep is enough when the producers of an operation come before it: it
leaves live what was, and what an operation left live reads. -/
theorem sweep_spec {producers : Nat → List Nat} (hbefore : ∀ i, ∀ k ∈ producers i, k < i) (n : Nat) (live : List Bool) :
    (sweep producers n live).length = live.length ∧
    (∀ k, n ≤ k → ((sweep producers n live)[k]? = some true ↔ live[k]? = some true)) ∧
    ∀ k, (sweep producers n live)[k]? = some true ↔ live[k]? = some true ∨
      (k < live.length ∧ ∃ j < n, (sweep producers n live)[j]? = some true ∧ k ∈ producers j) := by
  induction n generalizing live with
  | zero => exact ⟨rfl, fun k _ => Iff.rfl, fun k => by simp [sweep]⟩
  | succ n ih =>
    obtain ⟨hlength, hlater, hiff⟩ := ih (markProducers producers live n)
    have hmark := markProducers_iff producers live n
    have hsweep : sweep producers (n + 1) live = sweep producers n (markProducers producers live n) := rfl
    have hself : ∀ k, n ≤ k → ((sweep producers (n + 1) live)[k]? = some true ↔ live[k]? = some true) := by
      intro k hk
      rw [hsweep, hlater k hk, hmark]
      refine or_iff_left ?_
      rintro ⟨-, -, hmem⟩
      exact absurd (hbefore n k hmem) (Nat.not_lt.2 hk)
    refine ⟨hlength.trans (markProducers_length producers live n), fun k hk => hself k (Nat.le_of_succ_le hk), fun k => ?_⟩
    have hn := hself n (Nat.le_refl n)
    rw [hsweep] at hn ⊢
    rw [hiff, hmark, markProducers_length, or_assoc]
    refine or_congr_right ?_
    constructor
    · rintro (⟨hlen, hlive, hmem⟩ | ⟨hlen, j, hj, hlive, hmem⟩)
      · exact ⟨hlen, n, Nat.lt_succ_self n, hn.2 hlive, hmem⟩
      · exact ⟨hlen, j, Nat.lt_succ_of_lt hj, hlive, hmem⟩
    · rintro ⟨hlen, j, hj, hlive, hmem⟩
      rcases Nat.lt_or_eq_of_le (Nat.lt_succ_iff.1 hj) with hj | rfl
      · exact .inr ⟨hlen, j, hj, hlive, hmem⟩
      · exact .inl ⟨hlen, hn.1 hlive, hmem⟩

/-- Operation `j` reads a register in the version that operation `k` wrote. -/
def ReadsVersion (p : List (LinearOp F)) (j k : Nat) : Prop :=
  ∃ op, p[j]? = some op ∧ ∃ r ∈ op.sources, LatestWriter p j r k

section
variable {p : List (LinearOp F)} {versions : RegisterVersionProgram}

theorem mem_producers_iff (h : RegisterVersionProgram.derive p = some versions) (j k : Nat) :
    k ∈ versions.producers j ↔ ReadsVersion p j k := by
  obtain ⟨-, hlength, hnames⟩ := derive_spec h
  unfold RegisterVersionProgram.producers ReadsVersion
  cases hoperation : versions.operations[j]? with
  | none =>
    have hnone : p[j]? = none := by
      rw [List.getElem?_eq_none_iff] at hoperation ⊢
      omega
    simp [hnone]
  | some operation =>
    obtain ⟨hlt, -⟩ := List.getElem?_eq_some_iff.1 hoperation
    have hop : p[j]? = some p[j] := List.getElem?_eq_getElem (hlength ▸ hlt)
    have hwriters := hnames j _ operation hop hoperation
    rw [List.mem_map]
    constructor
    · rintro ⟨piece, hpiece, rfl⟩
      obtain ⟨r, hr, hge, hlt⟩ := hwriters.read piece hpiece
      exact ⟨_, hop, r, hr, hwriters.latest piece hpiece r hge hlt⟩
    · rintro ⟨op, hop', r, hr, hlatest⟩
      cases hop.symm.trans hop'
      obtain ⟨piece, hpiece, hge, hlt⟩ := hwriters.covered r hr
      exact ⟨piece, hpiece, (hwriters.latest piece hpiece r hge hlt).unique hlatest⟩

/-- An operation stays exactly when it cannot be dropped or an operation that stays reads a version it wrote. -/
theorem live_spec (h : RegisterVersionProgram.derive p = some versions) : (versions.live p).length = p.length ∧
    ∀ (k : Nat) (op : LinearOp F), p[k]? = some op → ((versions.live p)[k]? = some true ↔
      (op.faultClass.isPrunable = true → ∃ j, (versions.live p)[j]? = some true ∧ ReadsVersion p j k)) := by
  have hbefore : ∀ j, ∀ k ∈ versions.producers j, k < j := by
    intro j k hk
    obtain ⟨-, -, -, -, hlt, -⟩ := (mem_producers_iff h j k).1 hk
    exact hlt
  obtain ⟨hlength, -, hiff⟩ := sweep_spec hbefore p.length (p.map fun op => !op.faultClass.isPrunable)
  rw [List.length_map] at hlength
  refine ⟨hlength, fun k op hop => ?_⟩
  obtain ⟨hlt, -⟩ := List.getElem?_eq_some_iff.1 hop
  unfold RegisterVersionProgram.live
  rw [hiff, List.getElem?_map, hop, List.length_map]
  simp only [mem_producers_iff h, Option.map_some, Option.some_inj, hlt, true_and]
  constructor
  · rintro (hkeep | ⟨j, -, hj⟩) hprunable
    · simp [hprunable] at hkeep
    · exact ⟨j, hj⟩
  · intro hreads
    cases hprunable : op.faultClass.isPrunable with
    | false => exact .inl rfl
    | true =>
      obtain ⟨j, hlive, hread⟩ := hreads hprunable
      obtain ⟨hj, -⟩ := List.getElem?_eq_some_iff.1 hlive
      exact .inr ⟨j, by omega, hlive, hread⟩

theorem live_droppable (h : RegisterVersionProgram.derive p = some versions) :
    (accesses F).Droppable (p.zip (versions.live p)) := by
  obtain ⟨hlength, hlive⟩ := live_spec h
  have hat : ∀ (i : Nat) (op : LinearOp F) (b : Bool), (p.zip (versions.live p))[i]? = some (op, b) →
      p[i]? = some op ∧ (versions.live p)[i]? = some b := fun i op b => List.getElem?_zip_eq_some.1
  refine Accesses.droppable_of_forall fun pre op post hsplit r hr hlivein => ?_
  obtain ⟨mid, reader, rest, rfl, hread, hmid⟩ := hlivein.exists_read
  -- the reader stays and reads what the operation wrote, so the operation stays
  obtain ⟨hop, hdropped⟩ := hat pre.length op false (by rw [hsplit]; simp)
  have hindex : (p.zip (versions.live p))[pre.length + 1 + mid.length]? = some (reader, true) := by
    rw [hsplit, List.getElem?_append_right (by omega),
      show pre.length + 1 + mid.length - pre.length = mid.length + 1 by omega, List.getElem?_cons_succ]
    simp
  obtain ⟨hreader, hkept⟩ := hat _ reader true hindex
  have hlatest : LatestWriter p (pre.length + 1 + mid.length) r pre.length := by
    refine ⟨by omega, ⟨op, hop, hr⟩, fun j o hj hlt ho => ?_⟩
    obtain ⟨b, hb⟩ : ∃ b, mid[j - (pre.length + 1)]? = some (o, b) := by
      obtain ⟨hjlt, -⟩ := List.getElem?_eq_some_iff.1 ho
      have hzip : (p.zip (versions.live p))[j]? = some (o, (versions.live p)[j]) := by
        rw [List.getElem?_zip_eq_some]
        exact ⟨ho, List.getElem?_eq_getElem (hlength ▸ hjlt)⟩
      rw [hsplit, List.getElem?_append_right (by omega),
        show j - pre.length = (j - (pre.length + 1)) + 1 by omega, List.getElem?_cons_succ,
        List.getElem?_append_left (by omega)] at hzip
      exact ⟨_, hzip⟩
    exact hmid _ (List.mem_of_getElem? hb)
  have hstays := (hlive pre.length op hop).2 fun _ => ⟨_, hkept, reader, hreader, r, hread, hlatest⟩
  rw [hdropped] at hstays
  cases hstays

theorem live_operations (h : RegisterVersionProgram.derive p = some versions) :
    (p.zip (versions.live p)).map (·.1) = p := List.map_fst_zip (live_spec h).1.ge

theorem pruneUnreadPureOperations_eq (h : RegisterVersionProgram.derive p = some versions) :
    pruneUnreadPureOperations p = kept (p.zip (versions.live p)) := by
  unfold pruneUnreadPureOperations
  rw [h]
  simp only
  split_ifs with hall
  · rw [kept_of_all, live_operations h]
    intro a ha
    have := List.all_eq_true.1 hall a.2 (List.of_mem_zip ha).2
    simpa using this
  · rfl

/-- The operand pieces name the latest writers; what is pruned is a subsequence
with valid flow that keeps exactly what has effects, may fault or is read by a
kept operation, and stores the same. -/
theorem pruneUnreadPureOperations_correct (h : RegisterVersionProgram.derive p = some versions) :
    (∀ (i : Nat) (operation : RegisterOperationVersions), versions.operations[i]? = some operation →
      ∀ piece ∈ operation.operands, ∀ r, piece.registers.1 ≤ r → r < piece.registers.2 →
        LatestWriter p i r piece.producer) ∧
    (pruneUnreadPureOperations p).Sublist p ∧
    (∃ live : List Bool, live.length = p.length ∧ pruneUnreadPureOperations p = kept (p.zip live) ∧
      ∀ (k : Nat) (op : LinearOp F), p[k]? = some op → (live[k]? = some true ↔
        (op.faultClass.isPrunable = true → ∃ j, live[j]? = some true ∧ ReadsVersion p j k))) ∧
    FlowValid (pruneUnreadPureOperations p) ∧
    ∀ {V W : Type} (S : Semantics F V W) (world : W),
      S.execute (pruneUnreadPureOperations p) world = S.execute p world := by
  obtain ⟨hflow, hlength, hnames⟩ := derive_spec h
  obtain ⟨hlive, hiff⟩ := live_spec h
  have hoperations := live_operations h
  have hflow' : FlowValid ((p.zip (versions.live p)).map (·.1)) := by rwa [hoperations]
  have hpure : ∀ a ∈ p.zip (versions.live p), a.2 = false → a.1.faultClass.isPrunable = true := by
    rintro ⟨op, b⟩ ha rfl
    obtain ⟨k, hk⟩ := List.mem_iff_getElem?.1 ha
    obtain ⟨hop, hfalse⟩ := List.getElem?_zip_eq_some.1 hk
    by_contra hkeep
    have := (hiff k op hop).2 fun hprunable => absurd hprunable hkeep
    rw [hfalse] at this
    cases this
  refine ⟨fun i operation hoperation => ?_, ?_, ⟨_, hlive, pruneUnreadPureOperations_eq h, hiff⟩, ?_, fun S world => ?_⟩
  · obtain ⟨hlt, -⟩ := List.getElem?_eq_some_iff.1 hoperation
    exact (hnames i _ operation (List.getElem?_eq_getElem (hlength ▸ hlt)) hoperation).latest
  · rw [pruneUnreadPureOperations_eq h]
    have hsub : (kept (p.zip (versions.live p))).Sublist ((p.zip (versions.live p)).map (·.1)) := kept_sublist
    rwa [hoperations] at hsub
  · rw [pruneUnreadPureOperations_eq h]
    exact hflow'.kept (live_droppable h)
  · rw [pruneUnreadPureOperations_eq h, ← S.execute_kept hflow' hpure (live_droppable h) world, hoperations]

end

def loadedOver : List (LinearOp Nat) := [.loadP 0 0, .loadP 0 1, .storeOutput 0]

theorem loadedOver_pruned : (pruneUnreadPureOperations loadedOver).Sublist loadedOver ∧
    pruneUnreadPureOperations loadedOver = [.loadP 0 1, .storeOutput 0] ∧ FlowValid (pruneUnreadPureOperations loadedOver) := by
  have hderive : RegisterVersionProgram.derive loadedOver = some
      { operations := [⟨[], some (0, 0, 1)⟩, ⟨[], some (0, 1, 2)⟩, ⟨[⟨(0, 1), (1, 2), 1, 0, 1⟩], none⟩]
        storageCount := 2
        singleWriter := false } := by decide
  have h := pruneUnreadPureOperations_correct hderive
  exact ⟨h.2.1, rfl, h.2.2.2.1⟩

end Rumoca.Solve
