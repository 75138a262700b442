import Rumoca.Solve.Symbolic
/-!
# Executing programs

The meaning of a program over values of any type: loads read the slots as
they were when the program began, and its outputs are committed to the slots
after its last operation. Every operation but a load, a copy and an output
store is a function of its operands, given by its shape.
-/

namespace Rumoca.Solve

abbrev Interpretation (V : Type) := String → List (Nat × V) → Nat → V

/-- One program under execution. -/
structure Region (V : Type) where
  registers : Reg → Option V
  outputs : List V

section
variable {F V : Type} (debug : LinearOp F → String) (I : Interpretation V)

def executeValue (op : LinearOp F) (s : Region V) : Option (Region V) := do
  let shape ← valueShape debug op
  let operands ← shape.operands.mapM fun (field, register) => do
    let value ← s.registers register
    pure (field, value)
  let value := I shape.shape operands
  pure ⟨insertRange s.registers (op.dstRegister.getD 0) ((List.range (writtenCount op)).map value),
    s.outputs ++ (List.range (storedOutputs op)).map value⟩

def executeStep (slots : Nat → V) (s : Region V) (op : LinearOp F) : Option (Region V) :=
  match yLoad op with
  | some (dst, first, count) =>
    some { s with
      registers := insertRange s.registers dst ((List.range count).map fun offset => slots (first + offset)) }
  | none =>
    match storedRegisters op with
    | some registers => do
      let stored ← registers.mapM s.registers
      pure { s with outputs := s.outputs ++ stored }
    | none =>
      match op with
      | .move dst src => do
        let value ← s.registers src
        pure { s with registers := Function.update s.registers dst (some value) }
      | _ => executeValue debug I op s

section
variable {debug I} {slots : Nat → V} {s : Region V} {op : LinearOp F}

theorem executeStep_load {dst : Reg} {first count : Nat} (hy : yLoad op = some (dst, first, count)) :
    executeStep debug I slots s op = some { s with
      registers := insertRange s.registers dst ((List.range count).map fun offset => slots (first + offset)) } := by
  unfold executeStep
  rw [hy]

theorem executeStep_store {registers : List Reg} (hy : yLoad op = none) (hs : storedRegisters op = some registers) :
    executeStep debug I slots s op =
      (registers.mapM s.registers).map fun stored => { s with outputs := s.outputs ++ stored } := by
  unfold executeStep
  simp only [hy, hs]
  cases registers.mapM s.registers <;> rfl

theorem executeStep_move (dst src : Reg) :
    executeStep debug I slots s (.move dst src) =
      (s.registers src).map fun value => { s with registers := Function.update s.registers dst (some value) } := by
  unfold executeStep
  simp only [yLoad, storedRegisters]
  cases s.registers src <;> rfl

theorem executeStep_value (hy : yLoad op = none) (hs : storedRegisters op = none)
    (hm : ∀ dst src, op ≠ .move dst src) : executeStep debug I slots s op = executeValue debug I op s := by
  unfold executeStep
  simp only [hy, hs]

end

/-- The slots after `outputs` are stored into `targets`, in order. -/
def commitSlots (slots : Nat → V) (targets : List Nat) (outputs : List V) : Nat → V :=
  (targets.zip outputs).foldl (fun slots stored => Function.update slots stored.1 stored.2) slots

def executeProgram (slots : Nat → V) (program : AssignmentProgram F) : Option (List V × (Nat → V)) := do
  let region ← program.ops.foldlM (executeStep debug I slots) ⟨fun _ => none, []⟩
  pure (region.outputs, commitSlots slots program.targets region.outputs)

def executeNext (s : List V × (Nat → V)) (program : AssignmentProgram F) : Option (List V × (Nat → V)) :=
  (executeProgram debug I s.2 program).map fun found => (s.1 ++ found.1, found.2)

def executePrograms (programs : List (AssignmentProgram F)) (slots : Nat → V) : Option (List V × (Nat → V)) :=
  programs.foldlM (executeNext debug I) ([], slots)

end

end Rumoca.Solve
