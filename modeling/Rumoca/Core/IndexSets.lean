import Mathlib.Data.List.Forall2
import Rumoca.Core.Progression
/-!
# Images of affine subscripts

`image` is the set of index tuples that the axes of a reference name over a
region of binder values, as a union of boxes. It is declared exact when each
axis has an exact image and no binder is read by two axes. An exact answer holds
no tuple that is not named as long as every binder has values: a binder that no
axis reads is never looked at, so `image_exact` has the condition under which an
exact answer is one.
-/

namespace Rumoca.Core

open Progression

/-- A plain integer plus multiples of the binders. -/
structure AffineForm where
  constant : Int
  coeffs : List Int
deriving DecidableEq, Repr

/-- `form(p) + o` for every offset `o`. -/
structure IndexAxis where
  form : AffineForm
  offsets : List Progression
deriving DecidableEq, Repr

abbrev IndexBox := List Progression

abbrev IndexUnion := List IndexBox

inductive SetAnswer where
  | exact (set : IndexUnion)
  | superset (set : IndexUnion)
deriving DecidableEq, Repr

def offsetLimit : Nat := 64

def i64Max : Int := 2 ^ 63 - 1

def AffineForm.scale (form : AffineForm) (binder : Nat) : Int := (form.coeffs[binder]?).getD 0

def axisBinders (axis : IndexAxis) : List Nat :=
  (List.range axis.form.coeffs.length).filter fun binder => axis.form.scale binder ≠ 0

def repeats : List Nat → (seen : List Nat) → Bool
  | [], _ => false
  | binder :: rest, seen => if binder ∈ seen then true else repeats rest (binder :: seen)

def binderRepeats (axes : List IndexAxis) : Bool := repeats (axes.flatMap axisBinders) []

/-- The elements from `value` up to `last`, when there are at most `offsetLimit`. -/
def offsetsFrom (step last : Int) : (fuel : Nat) → (value : Int) → List Int → Option (List Int)
  | 0, _, _ => none
  | fuel + 1, value, values =>
    if value ≤ last then
      if offsetLimit < values.length + 1 then none
      else (checkedI64 (value + step)).bind fun next => offsetsFrom step last fuel next (values ++ [value])
    else some values

def offsetsOf (offsets : Progression) : Option (List Int) :=
  match offsets.firstOf, offsets.lastOf with
  | some first, some last => offsetsFrom offsets.step last (offsetLimit + 2) first []
  | _, _ => some []

/-- Whether blocks of `count` offsets exactly tile the gaps between base elements. -/
def tilesGaps (base offsets : Progression) (baseFirst baseLast count : Int) : Option Bool :=
  if baseFirst = baseLast then some true
  else (checkedI64 (offsets.step * count)).map fun span => span = base.step

/-- `{b + o : b in base, o in offsets}` as progressions. -/
def shiftedImages (base offsets : Progression) : Option (List Progression) :=
  match base.firstOf, base.lastOf with
  | some baseFirst, some baseLast =>
    match offsets.firstOf, offsets.lastOf with
    | some first, some last =>
      if first = last then (base.affineImage 1 first).map ([·])
      else do
        let width ← checkedI64 (last - first)
        let count ← checkedI64 (width / offsets.step + 1)
        if ← tilesGaps base offsets baseFirst baseLast count then
          let lower ← checkedI64 (baseFirst + first)
          let upper ← checkedI64 (baseLast + last)
          (range lower offsets.step upper).map ([·])
        else
          let values ← offsetsOf offsets
          values.mapM fun offset => base.affineImage 1 offset
    | _, _ => some [empty]
  | _, _ => some [empty]

def termImage (axis : IndexAxis) (region : IndexBox) (binder : Nat) : Option Progression := do
  let values ← region[binder]?
  values.affineImage (axis.form.scale binder) 0

def termKey (term : Progression) : Int := if term.count = 1 then i64Max else term.step

def tileTerms : (sum : Progression) → List Progression → Option (Option Progression)
  | sum, [] => some (some sum)
  | sum, term :: rest => do
    let shift ← term.firstOf
    if term.count = 1 then
      let sum ← sum.affineImage 1 shift
      tileTerms sum rest
    else if sum.count = 1 then
      let first ← sum.firstOf
      let sum ← term.affineImage 1 first
      tileTerms sum rest
    else
      let span ← checkedI64 (sum.step * sum.count)
      if term.step = span then
        let first ← sum.firstOf
        let lower ← checkedI64 (first + shift)
        let last ← sum.lastOf
        let termLast ← term.lastOf
        let upper ← checkedI64 (last + termLast)
        let sum ← range lower sum.step upper
        tileTerms sum rest
      else return none

def tiledSum (axis : IndexAxis) (binders : List Nat) (region : IndexBox) : Option (Option Progression) := do
  let terms ← binders.mapM (termImage axis region)
  if terms.any (·.count = 0) then return some empty
  match terms.mergeSort (fun a b => termKey a ≤ termKey b) with
  | [] => none
  | first :: rest => tileTerms first rest

def hullBounds (axis : IndexAxis) (region : IndexBox) : List Nat → (lower upper : Int) → Option (Option (Int × Int))
  | [], lower, upper => some (some (lower, upper))
  | binder :: rest, lower, upper => do
    let values ← region[binder]?
    match values.firstOf, values.lastOf with
    | some first, some last =>
      let a ← checkedI64 (axis.form.scale binder * first)
      let b ← checkedI64 (axis.form.scale binder * last)
      let lower ← checkedI64 (lower + min a b)
      let upper ← checkedI64 (upper + max a b)
      hullBounds axis region rest lower upper
    | _, _ => some none

def hullRange (lower upper : Int) (offsets : Progression) : Option (Option Progression) :=
  match offsets.firstOf, offsets.lastOf with
  | some first, some last => do
    let lower ← checkedI64 (lower + first)
    let upper ← checkedI64 (upper + last)
    (range lower 1 upper).map some
  | _, _ => some none

def axisImage (axis : IndexAxis) (region : IndexBox) : Option (List Progression × Bool) :=
  match axisBinders axis with
  | [] => do
    let parts ← axis.offsets.mapM fun offsets => offsets.affineImage 1 axis.form.constant
    return (parts, true)
  | [binder] => do
    let values ← region[binder]?
    let base ← values.affineImage (axis.form.scale binder) axis.form.constant
    let parts ← axis.offsets.mapM (shiftedImages base)
    return (parts.flatten, true)
  | binders => do
    match ← tiledSum axis binders region with
    | some base =>
      let base ← base.affineImage 1 axis.form.constant
      let parts ← axis.offsets.mapM (shiftedImages base)
      return (parts.flatten, true)
    | none =>
      match ← hullBounds axis region binders axis.form.constant axis.form.constant with
      | none => return ([empty], true)
      | some (lower, upper) =>
        let parts ← axis.offsets.mapM (hullRange lower upper)
        return (parts.reduceOption, false)

def product (perAxis : List (List Progression)) : List IndexBox :=
  perAxis.foldl (fun boxes parts => boxes.flatMap fun pre => parts.map fun part => pre ++ [part]) [[]]

def IndexUnion.of (boxes : List IndexBox) : IndexUnion := boxes.filter fun part => !part.any (·.count = 0)

/-- The elements that the axes name at some binder value of the region. -/
def image (axes : List IndexAxis) (region : IndexBox) : Option SetAnswer := do
  let images ← axes.mapM (axisImage · region)
  let set := IndexUnion.of (product (images.map (·.1)))
  return if !binderRepeats axes && images.all (·.2) then .exact set else .superset set

end Rumoca.Core
