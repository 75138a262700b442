import Rumoca.Flatten.FlatModel
/-!
# Path text

The text helpers that connection expansion reads flat names with: the trailing
subscripts of a segment, the bracket groups of an index suffix, and the segments
of a path. Names are lists of characters, and a scan that moves a cursor over
the text is a recursion on it.
-/

namespace Rumoca.Flatten

abbrev Text := List Char

/-! ## Subscripts -/

/-- `has_balanced_subscripts` from some depth on. -/
def balancedFrom : Text → (depth : Nat) → Bool
  | [], depth => depth = 0
  | c :: rest, depth =>
    if c = '[' then balancedFrom rest (depth + 1)
    else if c = ']' then if depth = 0 then false else balancedFrom rest (depth - 1)
    else balancedFrom rest depth

/-- The scan from the end of a name, given reversed, to the bracket that opens its last group. -/
def scanBack : (reversed : Text) → (depth : Nat) → (body : Text) → Option (Text × Text)
  | [], _, _ => none
  | c :: rest, depth, body =>
    if c = ']' then scanBack rest (depth + 1) (c :: body)
    else if c = '[' then
      if depth = 0 then none
      else if depth = 1 then some (rest.reverse, body.dropLast)
      else scanBack rest (depth - 1) (c :: body)
    else scanBack rest depth (c :: body)

def splitTrailingSubscriptSuffix (name : Text) : Option (Text × Text) :=
  if name.getLast? ≠ some ']' then none
  else
    match scanBack name.reverse 0 [] with
    | none => none
    | some (base, body) =>
      if trim body ≠ [] ∧ base ≠ [] ∧ balancedFrom base 0 = true then some (base, body) else none

/-- The loop over trailing subscripts, at most `fuel` of them. -/
def stripFrom : (fuel : Nat) → Text → Text
  | 0, base => base
  | fuel + 1, base =>
    match splitTrailingSubscriptSuffix base with
    | some (next, _) => stripFrom fuel next
    | none => base

/-- `strip_array_index`: each round takes a group of two characters or more. -/
def stripArrayIndex (segment : Text) : Text := stripFrom segment.length segment

/-- The group that the text opens with, `depth` brackets deep after `before`, and what follows it. -/
def takeGroup : Text → (depth : Nat) → (before : Text) → Option (Text × Text)
  | [], _, _ => none
  | c :: rest, depth, before =>
    if c = '[' then takeGroup rest (depth + 1) (before ++ [c])
    else if c = ']' then
      if depth = 0 then none
      else if depth = 1 then if 1 < before.length then some (before ++ [c], rest) else none
      else takeGroup rest (depth - 1) (before ++ [c])
    else takeGroup rest depth (before ++ [c])

/-- The groups of an index suffix, at most `fuel` of them. -/
def groupsFrom : (fuel : Nat) → Text → Option (List Text)
  | _, [] => some []
  | 0, _ => none
  | fuel + 1, text =>
    if text.head? ≠ some '[' then none
    else
      match takeGroup text 0 [] with
      | none => none
      | some (group, rest) => (groupsFrom fuel rest).map (group :: ·)

def balancedIndexGroups (indices : Text) : Option (List Text) :=
  match groupsFrom indices.length indices with
  | some [] => none
  | groups => groups

def extractArrayIndex (s : Text) : Option Text :=
  let suffix := s.drop (stripArrayIndex s).length
  if suffix ≠ [] ∧ (balancedIndexGroups suffix).isSome then some suffix else none

def parseIndexGroupValue (group : Text) : Option Int :=
  match parseLiteralIndexGroupValues group with
  | some [value] => some value
  | _ => none

/-! ## Segments -/

/-- The first segment of a nonempty tail, `depth` brackets deep after `before`, and the tail after its dot. -/
def popFrom : Text → (depth : Nat) → (before : Text) → Text × Text
  | [], _, before => (before, [])
  | c :: rest, depth, before =>
    if c = '[' then popFrom rest (depth + 1) (before ++ [c])
    else if c = ']' then popFrom rest (depth - 1) (before ++ [c])
    else if c = '.' ∧ depth = 0 then (before, rest)
    else popFrom rest depth (before ++ [c])

def popOrderSegment (tail : Text) : Option (Text × Text) := if tail = [] then none else some (popFrom tail 0 [])

end Rumoca.Flatten
