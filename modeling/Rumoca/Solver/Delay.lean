import Mathlib.Algebra.Order.Field.Basic
import Mathlib.Data.Sign.Defs
import Rumoca.Lib.PartitionPoint
/-!
# Delay channels

A delay channel keeps the accepted samples of its source, and the times at which
the source jumped. Both are buffers with a consumed prefix. Each commit appends to
them and drops what no query of the next step can reach; the parity of the dropped
jumps stays behind. Times and values are those of an ordered field, where two times
match when they are equal.
-/

namespace Rumoca.Solver

open Rumoca.Lib

structure DelayPoint (K : Type) where
  time : K
  value : K
deriving DecidableEq

structure SuppressedDiscontinuity (K : Type) where
  sourceTime : K
  rightSide : Bool

structure DelayChannelHistory (K : Type) where
  points : List (DelayPoint K)
  pointsHead : Nat
  delayTime : K
  delayMax : K
  acceptedQueryTime : K
  discontinuityTimes : List K
  discontinuityHead : Nat
  prunedDiscontinuityParity : Bool
  suppressedDiscontinuity : Option (SuppressedDiscontinuity K)

/-- The state of one channel. A commit steps every channel by itself. -/
structure DelayState (K : Type) where
  initialized : Bool
  historyCommitted : Bool
  channel : DelayChannelHistory K

/-- What a commit evaluates for a channel. -/
structure DelayRow (K : Type) where
  source : K
  delayTime : K
  delayMax : K

variable {K : Type} [Field K] [LinearOrder K]

def activePoints (channel : DelayChannelHistory K) : List (DelayPoint K) := channel.points.drop channel.pointsHead

def activeDiscontinuities (channel : DelayChannelHistory K) : List K :=
  channel.discontinuityTimes.drop channel.discontinuityHead

/-- Equality: a distance of two spacings of the floating-point grid is none. -/
def delayTimeMatches (left right : K) : Bool := left = right

/-! ## Reading a value -/

/-- The Lagrange form over the stencil, in offsets from `base`. -/
def interpolate (stencil : List (DelayPoint K)) (base queryTime : K) : K :=
  base + (stencil.zipIdx.map fun (point, i) =>
    ((stencil.zipIdx.filter fun (_, j) => j ≠ i).map fun (other, _) =>
      (queryTime - other.time) / (point.time - other.time)).prod * (point.value - base)).sum

def smoothInterpolation (points : List (DelayPoint K)) (upper : Nat) (next : DelayPoint K) (queryTime : K) : Option K :=
  if upper = 0 then none
  else
    match points[upper - 1]? with
    | none => none
    | some lower =>
      let before := if upper - 1 = 0 then none else points[upper - 2]?.filter fun before => before.time < lower.time
      let after := if upper < points.length then points[upper + 1]?.filter fun after => next.time < after.time else none
      let stencil := before.toList ++ [lower, next] ++ after.toList
      if stencil.length < 3 then none else some (interpolate stencil lower.value queryTime)

def delayedValue (channel : DelayChannelHistory K) (time delayTime currentSource : K) (discrete : Bool) : K :=
  let queryTime := time - delayTime
  let points := activePoints channel
  if delayTime = 0 ∧ points.getLast?.all (fun point => point.time ≤ time) = true then currentSource
  else
    match points with
    | [] => currentSource
    | first :: _ =>
      if queryTime ≤ first.time then first.value
      else
        let upper := partitionPoint (fun point => point.time ≤ queryTime) points
        let lower := points.getD (upper - 1) first
        if discrete = true ∨ points[upper]?.any (fun point => point.time = lower.time) = true then lower.value
        else
          let next := points[upper]?.getD ⟨time, currentSource⟩
          if next.time ≤ lower.time then next.value
          else
            match smoothInterpolation points upper next queryTime with
            | some value => value
            | none =>
              let fraction := max 0 (min 1 ((queryTime - lower.time) / (next.time - lower.time)))
              lower.value + fraction * (next.value - lower.value)

/-! ## The root of transported jumps -/

def matchingDiscontinuityIndex (channel : DelayChannelHistory K) (queryTime : K) : Option Nat :=
  let discontinuities := activeDiscontinuities channel
  let index := partitionPoint (fun sourceTime => sourceTime < queryTime ∧ ¬ delayTimeMatches sourceTime queryTime)
    discontinuities
  if discontinuities[index]?.any (fun sourceTime => delayTimeMatches sourceTime queryTime) = true then some index
  else if index = 0 then none
  else if discontinuities[index - 1]?.any (fun sourceTime => delayTimeMatches sourceTime queryTime) = true then
    some (index - 1)
  else none

def delayRootIntervalSign (channel : DelayChannelHistory K) (interval : Nat) : K :=
  if (channel.prunedDiscontinuityParity ^^ (interval % 2 = 1)) = true then -1 else 1

def nearest : (leftDistance rightDistance : Option K) → K
  | some left, some right => min left right
  | some left, none => left
  | none, some right => right
  | none, none => 0

def discreteDelayRoot (channel : DelayChannelHistory K) (queryTime : K) : K :=
  let discontinuities := activeDiscontinuities channel
  if discontinuities = [] then 1
  else
    match matchingDiscontinuityIndex channel queryTime with
    | some index =>
      match channel.suppressedDiscontinuity with
      | some suppressed =>
        if discontinuities[index]?.any (fun sourceTime => delayTimeMatches suppressed.sourceTime sourceTime) = true then
          delayRootIntervalSign channel (index + suppressed.rightSide.toNat)
        else 0
      | none => 0
    | none =>
      let next := partitionPoint (fun sourceTime => sourceTime < queryTime) discontinuities
      let leftDistance := if next = 0 then none else discontinuities[next - 1]?.map (queryTime - ·)
      let rightDistance := discontinuities[next]?.map (· - queryTime)
      delayRootIntervalSign channel next * nearest leftDistance rightDistance

/-! ## Recording -/

def freshChannel (time : K) (row : DelayRow K) : DelayChannelHistory K where
  points := [⟨time, row.source⟩]
  pointsHead := 0
  delayTime := row.delayTime
  delayMax := row.delayMax
  acceptedQueryTime := time - row.delayTime
  discontinuityTimes := []
  discontinuityHead := 0
  prunedDiscontinuityParity := false
  suppressedDiscontinuity := none

def appendAcceptedPoint (channel : DelayChannelHistory K) (time value : K) (discrete : Bool) :
    DelayChannelHistory K × Bool :=
  match (activePoints channel).getLast? with
  | none => ({ channel with points := channel.points ++ [⟨time, value⟩] }, false)
  | some last =>
    if time < last.time then (channel, false)
    else
      let changed := decide (value ≠ last.value)
      if time = last.time then
        (if changed then { channel with points := channel.points ++ [⟨time, value⟩] } else channel, changed)
      else ({ channel with points := channel.points ++ [⟨time, value⟩] }, discrete && changed)

def insertDiscontinuityTime (channel : DelayChannelHistory K) (sourceTime : K) : DelayChannelHistory K :=
  let discontinuities := activeDiscontinuities channel
  let index := partitionPoint (· < sourceTime) discontinuities
  if discontinuities[index]? = some sourceTime then channel
  else if discontinuities[index]?.any (fun candidate => delayTimeMatches candidate sourceTime) = true ∨
      (index ≠ 0 ∧ discontinuities[index - 1]?.any (fun candidate => delayTimeMatches candidate sourceTime) = true) then
    channel
  else
    { channel with
      discontinuityTimes := channel.discontinuityTimes.insertIdx (channel.discontinuityHead + index) sourceTime }

def suppressedSide (channel : DelayChannelHistory K) (queryTime sourceTime : K) : Bool :=
  if sourceTime < queryTime then true
  else if queryTime < sourceTime then false
  else if sourceTime < channel.acceptedQueryTime then false
  else if channel.acceptedQueryTime < sourceTime then true
  else
    (channel.suppressedDiscontinuity.filter fun suppressed => delayTimeMatches suppressed.sourceTime sourceTime).all
      (·.rightSide)

def updateSuppressedDiscontinuity (channel : DelayChannelHistory K) (queryTime : K) : DelayChannelHistory K :=
  { channel with
    suppressedDiscontinuity := ((matchingDiscontinuityIndex channel queryTime).bind fun index =>
      (activeDiscontinuities channel)[index]?).map fun sourceTime =>
        ⟨sourceTime, suppressedSide channel queryTime sourceTime⟩
    acceptedQueryTime := queryTime }

/-- `compact_consumed_prefix`: the buffer and its head. -/
def compactConsumedPrefix {α : Type} (values : List α) (head : Nat) : List α × Nat :=
  if head = 0 ∨ head < values.length - head then (values, head) else (values.drop head, 0)

def prunePoints (channel : DelayChannelHistory K) (keepAfter : K) : DelayChannelHistory K :=
  let firstAfter := partitionPoint (fun point => point.time < keepAfter) (activePoints channel)
  let consumedPoints := firstAfter - 1
  if 0 < consumedPoints then
    let (points, pointsHead) := compactConsumedPrefix channel.points (channel.pointsHead + consumedPoints)
    { channel with points, pointsHead }
  else channel

def consumeDiscontinuities (channel : DelayChannelHistory K) (count : Nat) : DelayChannelHistory K :=
  let parity := if count % 2 = 1 then !channel.prunedDiscontinuityParity else channel.prunedDiscontinuityParity
  let (discontinuityTimes, discontinuityHead) :=
    compactConsumedPrefix channel.discontinuityTimes (channel.discontinuityHead + count)
  { channel with discontinuityTimes, discontinuityHead, prunedDiscontinuityParity := parity }

def pruneDiscontinuities (channel : DelayChannelHistory K) (keepAfter : K) : DelayChannelHistory K :=
  let consumed := partitionPoint (fun sourceTime => sourceTime < keepAfter ∧ ¬ delayTimeMatches sourceTime keepAfter)
    (activeDiscontinuities channel)
  if 0 < consumed then
    let channel := consumeDiscontinuities channel consumed
    let gone := channel.suppressedDiscontinuity.any fun suppressed =>
      (activeDiscontinuities channel).head?.all fun first => suppressed.sourceTime < first
    if gone then { channel with suppressedDiscontinuity := none } else channel
  else channel

def pruneHistory (channel : DelayChannelHistory K) (time : K) : DelayChannelHistory K :=
  pruneDiscontinuities (prunePoints channel (time - channel.delayMax)) (time - channel.delayMax)

/-! ## The runtime -/

/-- `validate_delay_values`, for one channel. -/
def validateDelayValues (row : DelayRow K) : Bool := 0 ≤ row.delayTime ∧ row.delayTime ≤ row.delayMax

/-- `initialize`; `none` is a delay that does not validate. -/
def initializeHistory (time : K) (row : DelayRow K) : Option (DelayState K) :=
  if validateDelayValues row then some ⟨true, false, freshChannel time row⟩ else none

def holdAcceptedHistoryTo (state : DelayState K) (time : K) : DelayState K :=
  if ¬ state.historyCommitted then state
  else
    match (activePoints state.channel).getLast? with
    | some last =>
      if last.time < time then
        { state with channel := { state.channel with points := state.channel.points ++ [⟨time, last.value⟩] } }
      else state
    | none => state

def recordAccepted (channel : DelayChannelHistory K) (acceptedTime : K) (row : DelayRow K) (discrete : Bool) :
    DelayChannelHistory K :=
  let channel := { channel with delayTime := row.delayTime, delayMax := row.delayMax }
  let (channel, discontinuity) := appendAcceptedPoint channel acceptedTime row.source discrete
  let channel := if discontinuity then insertDiscontinuityTime channel acceptedTime else channel
  updateSuppressedDiscontinuity channel (acceptedTime - row.delayTime)

/-- A commit that ends with `prune` in the place of `prune_history`. -/
def commitEvaluatedAt (prune : DelayChannelHistory K → K → DelayChannelHistory K) (state : DelayState K)
    (acceptedTime : K) (row : DelayRow K) (discrete : Bool) : Option (DelayState K) :=
  if validateDelayValues row = false then none
  else if state.initialized = false ∨ state.historyCommitted = false then
    some ⟨true, true, freshChannel acceptedTime row⟩
  else some { state with channel := prune (recordAccepted state.channel acceptedTime row discrete) acceptedTime }

/-- What the host asks of the runtime at an accepted point. -/
inductive Accepted (K : Type) where
  | hold (time : K)
  | commit (time : K) (row : DelayRow K)

def Accepted.time : Accepted K → K
  | .hold time => time
  | .commit time _ => time

def stepAccepted (prune : DelayChannelHistory K → K → DelayChannelHistory K) (discrete : Bool) (state : DelayState K) :
    Accepted K → Option (DelayState K)
  | .hold time => some (holdAcceptedHistoryTo state time)
  | .commit time row => commitEvaluatedAt prune state time row discrete

/-- A run of the runtime from `initialize`. -/
def runAccepted (prune : DelayChannelHistory K → K → DelayChannelHistory K) (discrete : Bool) (start : K)
    (row : DelayRow K) (accepted : List (Accepted K)) : Option (DelayState K) :=
  (initializeHistory start row).bind fun state => accepted.foldlM (stepAccepted prune discrete) state

def keepHistory (channel : DelayChannelHistory K) (_time : K) : DelayChannelHistory K := channel

end Rumoca.Solver
