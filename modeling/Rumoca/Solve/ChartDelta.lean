import Rumoca.Machine
/-!
# Deltas of an alternate chart

A list as the difference to a base list: entries replaced by position, an edit
script of kept, deleted and inserted runs, or the list itself. The edit script
is a shortest one up to a bounded distance, found by extending the furthest
point of each diagonal and walking the recorded frontiers back. A plan's
delta holds one difference for each of its lists, and is issued only when
applying it gives the plan again.

An index outside a list, and a counter that leaves its type, answer `none`.
-/

namespace Rumoca.Solve.ChartDelta

inductive ChartDeltaError where
  | indexOutOfRange | invalidProgramBlock | invalidRefreshOwners | notFaithful
deriving DecidableEq, Repr

/-- One step of an edit script over a base list. -/
inductive Edit (T : Type) where
  | keep (count : Nat)
  | delete (count : Nat)
  | insert (values : List T)
deriving DecidableEq, Repr

inductive VecDelta (T : Type) where
  | replace (replacements : List (Nat × T))
  | edits (edits : List (Edit T))
  | whole (values : List T)
deriving DecidableEq, Repr

def maxEditDistance : Nat := 1024

/-- The fewest replacements of a list of equal length for which an edit script is also searched. -/
def minShiftReplacements : Nat := 16

/-! ## Applying a delta -/

section
variable {T : Type}

def applyEdit (base : List T) (s : List T × Nat) : Edit T → Except ChartDeltaError (List T × Nat)
  | .keep count =>
    let stop := s.2 + count
    if stop ≤ base.length then .ok (s.1 ++ (base.drop s.2).take count, stop) else .error .indexOutOfRange
  | .delete count => .ok (s.1, s.2 + count)
  | .insert inserted => .ok (s.1 ++ inserted, s.2)

def applyEdits (base : List T) (edits : List (Edit T)) : Except ChartDeltaError (List T) := do
  let (values, cursor) ← edits.foldlM (applyEdit base) ([], 0)
  if cursor ≠ base.length then .error .indexOutOfRange else pure values

def applyReplacement (values : List T) (replacement : Nat × T) : Except ChartDeltaError (List T) :=
  if replacement.1 < values.length then .ok (values.set replacement.1 replacement.2) else .error .indexOutOfRange

def VecDelta.apply (delta : VecDelta T) (base : List T) : Except ChartDeltaError (List T) :=
  match delta with
  | .whole values => .ok values
  | .replace replacements => replacements.foldlM applyReplacement base
  | .edits script => applyEdits base script

end

/-! ## The edit script -/

/-- The furthest base index of each diagonal, from diagonal `-offset` on. -/
abbrev Frontier := List Int

def Frontier.read (frontier : Frontier) (offset k : Int) : Option Int :=
  if 0 ≤ k + offset then frontier[(k + offset).toNat]? else none

def Frontier.put (frontier : Frontier) (offset k x : Int) : Option Frontier :=
  if 0 ≤ k + offset ∧ (k + offset).toNat < frontier.length then some (frontier.set (k + offset).toNat x) else none

/-- `as usize` of an `isize`. -/
def asUsize (z : Int) : Nat := (z % usizeLimit).toNat

def previousDiagonal (frontier : Frontier) (offset distance diagonal : Int) : Option Int :=
  if diagonal = -distance then some (diagonal + 1)
  else if diagonal = distance then some (diagonal - 1)
  else do
    let left ← frontier.read offset (diagonal - 1)
    let right ← frontier.read offset (diagonal + 1)
    pure (if left < right then diagonal + 1 else diagonal - 1)

section
variable {T : Type} [BEq T]

/-- The loop along equal entries, at most once for each base entry. -/
def followSnake (base target : List T) : (fuel : Nat) → (x y : Int) → Option Int
  | 0, x, _ => some x
  | fuel + 1, x, y =>
    if asUsize x < base.length ∧ asUsize y < target.length then do
      let entry ← base[asUsize x]?
      let wanted ← target[asUsize y]?
      if entry == wanted then followSnake base target fuel (x + 1) (y + 1) else pure x
    else some x

def furthestReach (frontier : Frontier) (offset distance diagonal : Int) (base target : List T) : Option Int := do
  let previous ← previousDiagonal frontier offset distance diagonal
  let reached ← frontier.read offset previous
  let x := if previous = diagonal + 1 then reached else reached + 1
  followSnake base target base.length x (x - diagonal)

/-- One entry of the script, the inserted entries by their target index. -/
inductive Step where
  | keep
  | delete
  | insert (index : Nat)
deriving DecidableEq, Repr

/-- One recorded round undone, from `(x, y)`: the point before it and its steps, last first. -/
def backtrackRound (trace : List Frontier) (offset : Int) (d : Nat) (x y : Int) : Option (Int × Int × List Step) := do
  let frontier ← (trace)[d]?
  let diagonal := x - y
  let previous ← previousDiagonal frontier offset d diagonal
  let previousX ← frontier.read offset previous
  let previousY := previousX - previous
  let snake := max (min (x - previousX) (y - previousY)) 0
  let kept := List.replicate (asUsize snake) Step.keep
  let x := x - snake
  let y := y - snake
  let step ←
    if x = previousX then (if 1 ≤ asUsize y then some (Step.insert (asUsize y - 1)) else none) else some .delete
  pure (previousX, previousY, kept ++ [step])

/-- The rounds from `d` down to the first. -/
def backtrackRounds (trace : List Frontier) (offset : Int) : (d : Nat) → (x y : Int) → (steps : List Step) →
    Option (Int × Int × List Step)
  | 0, x, y, steps => some (x, y, steps)
  | d + 1, x, y, steps => do
    let (previousX, previousY, round) ← backtrackRound trace offset (d + 1) x y
    backtrackRounds trace offset d previousX previousY (steps ++ round)

def compressStep (target : List T) (edits : List (Edit T)) (step : Step) : Option (List (Edit T)) :=
  match step, edits.getLast? with
  | .keep, some (.keep count) => do pure (edits.dropLast ++ [.keep (← checkedU32 (count + 1))])
  | .delete, some (.delete count) => do pure (edits.dropLast ++ [.delete (← checkedU32 (count + 1))])
  | .insert index, some (.insert values) => do pure (edits.dropLast ++ [.insert (values ++ [← target[index]?])])
  | .keep, _ => some (edits ++ [.keep 1])
  | .delete, _ => some (edits ++ [.delete 1])
  | .insert index, _ => do pure (edits ++ [.insert [← target[index]?]])

def compress (steps : List Step) (target : List T) : Option (List (Edit T)) := steps.foldlM (compressStep target) []

def backtrack (trace : List Frontier) (n : Nat) (target : List T) (offset : Int) (distance : Nat) :
    Option (List (Edit T)) := do
  let (x, _, steps) ← backtrackRounds trace offset distance n target.length []
  compress (steps ++ List.replicate (asUsize x) Step.keep).reverse target

/-- The diagonals of a round: those left to extend, until one reaches the end of both lists. -/
def extendDiagonals (base target : List T) (offset : Int) (distance : Nat) :
    List Int → Frontier → Option (Frontier × Bool)
  | [], frontier => some (frontier, false)
  | diagonal :: rest, frontier => do
    let x ← furthestReach frontier offset distance diagonal base target
    let frontier ← frontier.put offset diagonal x
    if (base.length : Int) ≤ x ∧ (target.length : Int) ≤ x - diagonal then pure (frontier, true)
    else extendDiagonals base target offset distance rest frontier

/-- `(-distance..=distance).step_by(2)`. -/
def roundDiagonals (distance : Nat) : List Int :=
  (List.range (distance + 1)).map fun i : Nat => -(distance : Int) + 2 * (i : Int)

def searchRounds (base target : List T) (offset : Int) : List Nat → List Frontier → Frontier →
    Option (Option (List (Edit T)))
  | [], _, _ => some none
  | distance :: rest, trace, frontier => do
    let trace := trace ++ [frontier]
    let (frontier, reached) ← extendDiagonals base target offset distance (roundDiagonals distance) frontier
    if reached then do pure (some (← backtrack trace base.length target offset distance))
    else searchRounds base target offset rest trace frontier

/-- The search up to a distance; `edit_script` takes the largest. -/
def editScriptUpTo (limit : Nat) (base target : List T) : Option (Option (List (Edit T))) :=
  let offset : Int := limit + 1
  searchRounds base target offset (List.range (limit + 1)) [] (List.replicate (2 * offset.toNat + 1) 0)

def editScript (base target : List T) : Option (Option (List (Edit T))) := editScriptUpTo maxEditDistance base target

/-! ## The difference of two lists -/

def replacementsOf (base target : List T) : List (Nat × T) :=
  ((base.zip target).zipIdx.filter fun entry => entry.1.1 != entry.1.2).map fun entry =>
    (entry.2 % u32Limit, entry.1.2)

def carried (edits : List (Edit T)) : Nat :=
  (edits.map fun edit => match edit with
    | .insert values => values.length
    | .keep _ | .delete _ => 0).sum

def VecDelta.diff (base target : List T) : Option (VecDelta T) := do
  let replace := if base.length = target.length then some (replacementsOf base target) else none
  let edits ←
    match replace with
    | some replace => if replace.length ≤ minShiftReplacements then some none else editScript base target
    | none => editScript base target
  match replace, edits with
  | some replace, some edits => if carried edits < replace.length then pure (.edits edits) else pure (.replace replace)
  | some replace, none => pure (.replace replace)
  | none, some edits => pure (.edits edits)
  | none, none => pure (.whole target)

end

end Rumoca.Solve.ChartDelta
