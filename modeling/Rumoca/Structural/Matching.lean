import Rumoca.Structural.Incidence
import Rumoca.Lib.Loop
/-!
# Maximum matching

Kuhn's algorithm over the scalar incidence: rows of structured families are
seeded first, each equation left gets one augmenting search, and a second
pass moves equations to their preferred unknowns. Both searches keep an
explicit stack, here with its top at the head. The two halves of a matching
are total maps, of which the source stores the parts below `n_eq` and
`n_var`.
-/

namespace Rumoca.Structural

open Rumoca.Lib

structure Matching where
  matchEq : Nat → Option Nat
  matchVar : Nat → Option Nat

namespace Matching

def empty : Matching := ⟨fun _ => none, fun _ => none⟩

/-- `match_eq[equation] = variable; match_var[variable] = equation`. -/
def pair (matching : Matching) (equation var : Nat) : Matching where
  matchEq := Function.update matching.matchEq equation (some var)
  matchVar := Function.update matching.matchVar var (some equation)

end Matching

structure MatchContext where
  eqVars : IncidenceRows
  preferredVars : List (Option Nat)

/-- The preference of `eq`, if it has one. -/
def MatchContext.preferred (context : MatchContext) (eq : Nat) : Option Nat :=
  (context.preferredVars[eq]?).join

/-! ## Visit order of a row -/

structure RowOrder where
  row : List Nat
  preferredPosition : Option Nat

namespace RowOrder

/-- Rows ascend strictly, so a search finds the position of its argument. -/
def new (context : MatchContext) (eq : Nat) : RowOrder where
  row := context.eqVars.row eq
  preferredPosition := (context.preferred eq).bind fun preferred =>
    if preferred ∈ context.eqVars.row eq then some ((context.eqVars.row eq).idxOf preferred) else none

def get (order : RowOrder) (cursor : Nat) : Option Nat :=
  match order.preferredPosition with
  | none => order.row[cursor]?
  | some position =>
    if cursor = 0 then order.row[position]?
    else if cursor - 1 < position then order.row[cursor - 1]?
    else order.row[cursor - 1 + 1]?

end RowOrder

/-! ## Seeding -/

structure DomainOdometer where
  coordinates : List Nat
  extents : List Nat

namespace DomainOdometer

def new (extents : List Nat) : DomainOdometer := ⟨extents.map fun _ => 0, extents⟩

/-- The loop of `advance`, with `dimensions` still to carry into. -/
def carry (extents : List Nat) : (dimensions : Nat) → List Nat → List Nat
  | 0, coordinates => coordinates
  | dimension + 1, coordinates =>
    match extents[dimension]? with
    | none => carry extents dimension coordinates
    | some extent =>
      let next := (coordinates[dimension]?).getD 0 + 1
      if next < extent then coordinates.set dimension next
      else carry extents dimension (coordinates.set dimension 0)

def advance (odometer : DomainOdometer) : DomainOdometer :=
  { odometer with coordinates := carry odometer.extents odometer.coordinates.length odometer.coordinates }

def candidate (odometer : DomainOdometer) (family : StructuredMatchingFamily) (point position : Nat) :
    Option (Nat × Nat) :=
  if point ≥ family.pointCount ∨ position ≥ family.equationsPerPoint then none
  else do
    let equation ← family.candidateEquation point position
    let base ← family.baseUnknowns[position]?
    let base ← checkedI64 base
    let steps ← family.unknownSteps[position]?
    let unknown ← steps.zipIdx.foldlM (fun unknown (step, dimension) => do
      let coordinate ← odometer.coordinates[dimension]?
      StructuredMatchingFamily.advanceUnknown unknown coordinate step) base
    let unknown ← usizeOfI64 unknown
    pure (equation, unknown)

end DomainOdometer

def seedStructuredCandidate (nEq nVar : Nat) (eqVars : IncidenceRows) (matching : Matching)
    (candidate : Option (Nat × Nat)) : Matching × Bool :=
  match candidate with
  | none => (matching, false)
  | some (equation, var) =>
    if equation ≥ nEq ∨ var ≥ nVar then (matching, false)
    else if (matching.matchEq equation).isSome ∨ (matching.matchVar var).isSome then (matching, false)
    else if ¬ eqVars.contains equation var then (matching, false)
    else (matching.pair equation var, true)

def seedPoint (nEq nVar : Nat) (eqVars : IncidenceRows) (family : StructuredMatchingFamily)
    (s : Matching × DomainOdometer × Bool) (point : Nat) : Matching × DomainOdometer × Bool :=
  let (matching, odometer, fullySeeded) := s
  let (matching, fullySeeded) := (List.range family.equationsPerPoint).foldl (fun (matching, fullySeeded) position =>
    let (matching, seeded) :=
      seedStructuredCandidate nEq nVar eqVars matching (odometer.candidate family point position)
    (matching, fullySeeded && seeded)) (matching, fullySeeded)
  (matching, odometer.advance, fullySeeded)

def seedOneFamily (nEq nVar : Nat) (eqVars : IncidenceRows) (matching : Matching)
    (family : StructuredMatchingFamily) : Matching × Bool :=
  let (matching, _, fullySeeded) := (List.range family.pointCount).foldl (seedPoint nEq nVar eqVars family)
    (matching, DomainOdometer.new family.extents, true)
  (matching, fullySeeded)

def seedStructuredFamilyMatches (nEq nVar : Nat) (eqVars : IncidenceRows)
    (structuredFamilies : List StructuredMatchingFamily) : Matching × List (Nat × Nat) :=
  let (matching, ranges) := structuredFamilies.foldl (fun (matching, ranges) family =>
    let (matching, fullySeeded) := seedOneFamily nEq nVar eqVars matching family
    (matching, if fullySeeded then ranges ++ family.rowRange.toList else ranges)) (Matching.empty, [])
  (matching, ranges.insertionSort (·.1 ≤ ·.1))

/-! ## The equations left -/

/-- The rows from `row` on outside every fully seeded range. -/
def unseededRows (nEq : Nat) : (seededRanges : List (Nat × Nat)) → (row : Nat) → List Nat
  | [], row => List.range' row (nEq - row)
  | (start, stop) :: ranges, row =>
    let before := if start > row then List.range' row (min start nEq - row) else []
    let row := max row stop
    if row ≥ nEq then before else before ++ unseededRows nEq ranges row

/-- Untargeted equations first, so targeted ones search last. -/
def kuhnEquationOrder (nEq : Nat) (matching : Matching) (context : MatchContext) (seededRanges : List (Nat × Nat)) :
    List Nat :=
  let residue := (unseededRows nEq seededRanges 0).filter fun eq => (matching.matchEq eq).isNone
  residue.filter (fun eq => (context.preferred eq).isNone) ++ residue.filter fun eq => (context.preferred eq).isSome

/-! ## Augmenting search -/

structure AugmentFrame where
  eq : Nat
  cursor : Nat
  chosen : Option Nat
deriving DecidableEq, Repr

def AugmentFrame.new (eq : Nat) : AugmentFrame := ⟨eq, 0, none⟩

/-- The visit marks of `AugmentScratch`; its stack is a buffer cleared by every search. -/
structure AugmentScratch where
  visitedEpoch : Nat → Nat
  epoch : Nat

namespace AugmentScratch

def new : AugmentScratch := ⟨fun _ => 0, 0⟩

/-- `next_visit_epoch`: all marks are cleared when the epochs run out. -/
def beginSearch (scratch : AugmentScratch) : AugmentScratch :=
  if scratch.epoch = usizeLimit - 1 then ⟨fun _ => 0, 1⟩ else { scratch with epoch := scratch.epoch + 1 }

def visit (scratch : AugmentScratch) (var : Nat) : AugmentScratch :=
  { scratch with visitedEpoch := Function.update scratch.visitedEpoch var scratch.epoch }

end AugmentScratch

inductive AugmentStep where
  | Claim (var : Nat)
  | Descend (var owner : Nat)
  | Exhausted
deriving DecidableEq, Repr

/-- The scan of `next_augment_step`, over the `remaining` variables from `cursor` on. -/
def nextAugmentStep (order : RowOrder) (matching : Matching) (scratch : AugmentScratch) :
    (remaining cursor : Nat) → AugmentStep × Nat × AugmentScratch
  | 0, cursor => (.Exhausted, cursor, scratch)
  | remaining + 1, cursor =>
    match order.get cursor with
    | none => (.Exhausted, cursor, scratch)
    | some var =>
      if scratch.visitedEpoch var = scratch.epoch then
        nextAugmentStep order matching scratch remaining (cursor + 1)
      else
        match matching.matchVar var with
        | none => (.Claim var, cursor + 1, scratch.visit var)
        | some owner => (.Descend var owner, cursor + 1, scratch.visit var)

/-- Assign the alternating path, innermost first. -/
def commitAugment (stack : List AugmentFrame) (matching : Matching) : Matching :=
  stack.foldl (fun matching frame =>
    match frame.chosen with
    | none => matching
    | some var => matching.pair frame.eq var) matching

/-- One turn of `run_augment_search`. -/
def augmentTurn (context : MatchContext) (matching : Matching) (s : List AugmentFrame × AugmentScratch) :
    Option (Ctl (List AugmentFrame × AugmentScratch) (Matching × AugmentScratch)) :=
  match s with
  | ([], scratch) => some (.done (matching, scratch))
  | (top :: rest, scratch) =>
    let order := RowOrder.new context top.eq
    match nextAugmentStep order matching scratch (order.row.length - top.cursor) top.cursor with
    | (.Claim var, cursor, scratch) =>
      some (.done (commitAugment (⟨top.eq, cursor, some var⟩ :: rest) matching, scratch))
    | (.Descend var owner, cursor, scratch) =>
      some (.next (AugmentFrame.new owner :: ⟨top.eq, cursor, some var⟩ :: rest, scratch))
    | (.Exhausted, _, scratch) => some (.next (rest, scratch))

/-- Search from the unmatched equation `start`. Every turn marks a variable or drops a frame. -/
def augment (nVar : Nat) (context : MatchContext) (s : Matching × AugmentScratch) (start : Nat) :
    Option (Matching × AugmentScratch) :=
  loop (augmentTurn context s.1) (2 * nVar + 2) ([AugmentFrame.new start], s.2)

/-! ## Preserved preferences -/

structure RelocationVisits where
  equations : Nat → Nat
  vars : Nat → Nat
  epoch : Nat

namespace RelocationVisits

def new : RelocationVisits := ⟨fun _ => 0, fun _ => 0, 0⟩

def beginSearch (visits : RelocationVisits) : RelocationVisits :=
  if visits.epoch = usizeLimit - 1 then ⟨fun _ => 0, fun _ => 0, 1⟩ else { visits with epoch := visits.epoch + 1 }

def visitVar (visits : RelocationVisits) (var : Nat) : RelocationVisits :=
  { visits with vars := Function.update visits.vars var visits.epoch }

def visitEq (visits : RelocationVisits) (eq : Nat) : RelocationVisits :=
  { visits with equations := Function.update visits.equations eq visits.epoch }

end RelocationVisits

def assignMatch (equation var : Nat) (matching : Matching) : Matching :=
  let matchVar :=
    match matching.matchEq equation with
    | none => matching.matchVar
    | some previous =>
      if matching.matchVar previous = some equation then Function.update matching.matchVar previous none
      else matching.matchVar
  { matchEq := Function.update matching.matchEq equation (some var)
    matchVar := Function.update matchVar var (some equation) }

/-- What `RelocationSearch` reads and does not change. -/
structure RelocationSearch where
  root : Nat
  matching : Matching
  context : MatchContext
  lockedPreferences : Nat → Bool

namespace RelocationSearch

/-- The scan of `next_relocation_step`, over the `remaining` variables from `cursor` on. -/
def nextRelocationStep (search : RelocationSearch) (eq : Nat) (visits : RelocationVisits) :
    (remaining cursor : Nat) → AugmentStep × Nat × RelocationVisits
  | 0, cursor => (.Exhausted, cursor, visits)
  | remaining + 1, cursor =>
    match (RowOrder.new search.context eq).get cursor with
    | none => (.Exhausted, cursor, visits)
    | some var =>
      if search.matching.matchEq eq = some var ∨ visits.vars var = visits.epoch then
        nextRelocationStep search eq visits remaining (cursor + 1)
      else
        let visits := visits.visitVar var
        match search.matching.matchVar var with
        | none => (.Claim var, cursor + 1, visits)
        | some owner =>
          if owner = search.root then (.Claim var, cursor + 1, visits)
          else if visits.equations owner = visits.epoch ∨ search.lockedPreferences owner then
            nextRelocationStep search eq visits remaining (cursor + 1)
          else (.Descend var owner, cursor + 1, visits.visitEq owner)

/-- Assign the alternating path, innermost first. -/
def commit (stack : List AugmentFrame) (matching : Matching) : Matching :=
  stack.foldl (fun matching frame =>
    match frame.chosen with
    | none => matching
    | some var => assignMatch frame.eq var matching) matching

/-- One turn of the loop of `relocate`; the matching is `none` when the search fails. -/
def relocateTurn (search : RelocationSearch) (s : List AugmentFrame × RelocationVisits) :
    Option (Ctl (List AugmentFrame × RelocationVisits) (Option Matching × RelocationVisits)) :=
  match s with
  | ([], visits) => some (.done (none, visits))
  | (top :: rest, visits) =>
    let order := RowOrder.new search.context top.eq
    match search.nextRelocationStep top.eq visits (order.row.length - top.cursor) top.cursor with
    | (.Claim var, cursor, visits) =>
      some (.done (some (commit (⟨top.eq, cursor, some var⟩ :: rest) search.matching), visits))
    | (.Descend var owner, cursor, visits) =>
      some (.next (AugmentFrame.new owner :: ⟨top.eq, cursor, some var⟩ :: rest, visits))
    | (.Exhausted, _, visits) => some (.next (rest, visits))

def relocate (nVar : Nat) (search : RelocationSearch) (visits : RelocationVisits) (start : Nat) :
    Option (Option Matching × RelocationVisits) :=
  if visits.equations start = visits.epoch ∨ search.lockedPreferences start then some (none, visits)
  else loop search.relocateTurn (2 * nVar + 2) ([AugmentFrame.new start], visits.visitEq start)

end RelocationSearch

/-- The matching in which `eq` owns `preferred`, `none` when it cannot be had. -/
def tryClaimPreferred (nVar : Nat) (context : MatchContext) (lockedPreferences : Nat → Bool) (eq preferred : Nat)
    (matching : Matching) (visits : RelocationVisits) : Option (Option Matching × RelocationVisits) :=
  match matching.matchVar preferred with
  | none => some (some (assignMatch eq preferred matching), visits)
  | some owner =>
    if owner = eq then some (none, visits)
    else do
      let visits := visits.beginSearch.visitVar preferred
      let (relocated, visits) ← RelocationSearch.relocate nVar ⟨eq, matching, context, lockedPreferences⟩ visits owner
      pure (relocated.map (assignMatch eq preferred), visits)

structure PreferenceState where
  matching : Matching
  visits : RelocationVisits
  lockedPreferences : Nat → Bool

/-- One equation of the loop of `maximize_preserved_preferences`. -/
def preservePreference (nVar : Nat) (context : MatchContext) (s : PreferenceState) (eq : Nat) :
    Option PreferenceState :=
  let locked := { s with lockedPreferences := Function.update s.lockedPreferences eq true }
  match (context.preferred eq).filter (context.eqVars.contains eq ·) with
  | none => some s
  | some preferred =>
    if s.matching.matchEq eq = some preferred then some locked
    else do
      match ← tryClaimPreferred nVar context s.lockedPreferences eq preferred s.matching s.visits with
      | (none, visits) => pure { s with visits := visits }
      | (some matching, visits) => pure { locked with matching := matching, visits := visits }

def maximizePreservedPreferences (nEq nVar : Nat) (context : MatchContext) (matching : Matching) : Option Matching := do
  let s ← (List.range nEq).foldlM (preservePreference nVar context) ⟨matching, .new, fun _ => false⟩
  pure s.matching

/-! ## The matching -/

/-- `maximum_matching_with_structured`, with `match_eq` and `match_var` as the lists the source returns. -/
def maximumMatchingWithStructured (nEq nVar : Nat) (eqVars : IncidenceRows) (preferredVars : List (Option Nat))
    (structuredFamilies : List StructuredMatchingFamily) : Option (List (Option Nat) × List (Option Nat)) := do
  let (matching, seeded) := seedStructuredFamilyMatches nEq nVar eqVars structuredFamilies
  let context : MatchContext := ⟨eqVars, preferredVars⟩
  let (matching, _) ← (kuhnEquationOrder nEq matching context seeded).foldlM (fun s eq =>
    augment nVar context (s.1, s.2.beginSearch) eq) (matching, AugmentScratch.new)
  let matching ← maximizePreservedPreferences nEq nVar context matching
  pure ((List.range nEq).map matching.matchEq, (List.range nVar).map matching.matchVar)

end Rumoca.Structural
