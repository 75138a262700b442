import Mathlib.Data.List.Nodup
import Mathlib.Logic.Function.Basic
import Rumoca.Core.TextPosition
import Rumoca.Lib.Loop
/-!
# The source map

Diagnostics find a file by its id, which its name derives: a name of the form
`<source-id:…>` spells its id, any other name is hashed. A registration without a
path is filed under the spelled name. The map is saved as its list of files and
read back with its two indexes rebuilt and checked.
-/

namespace Rumoca.Core

open Rumoca.Lib

/-! ## Names -/

/-- A `u64` identity. -/
structure SourceId where
  value : BitVec 64
deriving DecidableEq

abbrev SourceName := List Char

def placeholderSourceNamePrefix : SourceName := "<source-id:".toList

/-- The last `width` hexadecimal digits, in lower case. -/
def hexText : (width : Nat) → Nat → List Char
  | 0, _ => []
  | width + 1, n => hexText width (n / 16) ++ [Nat.digitChar (n % 16)]

/-- `char::to_digit(16)`. -/
def toDigit16 (ch : Char) : Option Nat :=
  if '0' ≤ ch ∧ ch ≤ '9' then some (ch.toNat - '0'.toNat)
  else if 'a' ≤ ch ∧ ch ≤ 'f' then some (ch.toNat - 'a'.toNat + 10)
  else if 'A' ≤ ch ∧ ch ≤ 'F' then some (ch.toNat - 'A'.toNat + 10)
  else none

/-- A result that must fit a `u64`. -/
def checkedU64 (n : Nat) : Option Nat := if n < 2 ^ 64 then some n else none

def parseDigits : List Char → (value : Nat) → Option Nat
  | [], value => some value
  | ch :: rest, value => do
    let digit ← toDigit16 ch
    let value ← checkedU64 (value * 16 + digit)
    parseDigits rest value

/-- `u64::from_str_radix(text, 16)`, which accepts a leading `+`. -/
def fromStrRadix16 : List Char → Option Nat
  | [] => none
  | ['+'] => none
  | '+' :: digits => parseDigits digits 0
  | digits => parseDigits digits 0

def stripPrefix (affix text : List Char) : Option (List Char) :=
  if affix <+: text then some (text.drop affix.length) else none

def stripSuffix (affix text : List Char) : Option (List Char) :=
  if affix <:+ text then some (text.take (text.length - affix.length)) else none

def placeholderSourceName (id : SourceId) : SourceName :=
  placeholderSourceNamePrefix ++ hexText 16 id.value.toNat ++ ['>']

def decodePlaceholderSourceName (name : SourceName) : Option SourceId := do
  let rest ← stripPrefix placeholderSourceNamePrefix name
  let hex ← stripSuffix ['>'] rest
  if utf8Length hex ≠ 16 then none
  else (fromStrRadix16 hex).map fun value => ⟨.ofNat 64 value⟩

/-! ## The map -/

variable {Content : Type}

abbrev SourceFile (Content : Type) := SourceId × SourceName × Content

structure SourceIndexes where
  nameToId : SourceName → Option SourceId
  idToIndex : SourceId → Option Nat

structure SourceMap (Content : Type) extends SourceIndexes where
  files : List (SourceFile Content)

structure Span where
  source : SourceId
  start : Nat
  stop : Nat
deriving DecidableEq

def SourceIndexes.new : SourceIndexes := ⟨fun _ => none, fun _ => none⟩

section
variable (fromSourceName : SourceName → SourceId)

def sourceIdForName (name : SourceName) : SourceId :=
  (decodePlaceholderSourceName name).getD (fromSourceName name)

def SourceId.debug (id : SourceId) : String := "SourceId(" ++ toString id.value.toNat ++ ")"

def checkFile (indexes : SourceIndexes) (entry : SourceFile Content × Nat) : Except String SourceIndexes := do
  let ((id, name, _), index) := entry
  let derived := sourceIdForName fromSourceName name
  if derived ≠ id then
    throw ("source map name `" ++ String.ofList name ++ "` derives " ++ derived.debug ++ ", not stored identity " ++ id.debug)
  if (indexes.nameToId name).isSome then throw ("duplicate source map name `" ++ String.ofList name ++ "`")
  if (indexes.idToIndex id).isSome then throw ("duplicate source map identity " ++ id.debug)
  pure ⟨Function.update indexes.nameToId name (some id), Function.update indexes.idToIndex id (some index)⟩

def checkedSourceIndexes (files : List (SourceFile Content)) : Except String SourceIndexes :=
  files.zipIdx.foldlM (checkFile fromSourceName) SourceIndexes.new

namespace SourceMap

def new : SourceMap Content := { SourceIndexes.new with files := [] }

def addShared (map : SourceMap Content) (name : SourceName) (content : Content) : SourceMap Content × SourceId :=
  let id := sourceIdForName fromSourceName name
  let map := { map with nameToId := Function.update map.nameToId name (some id) }
  if (map.idToIndex id).isSome then (map, id)
  else
    ({ map with
      files := map.files ++ [(id, name, content)]
      idToIndex := Function.update map.idToIndex id (some map.files.length) }, id)

def add (map : SourceMap Content) (name : SourceName) (content : Content) : SourceMap Content × SourceId :=
  map.addShared fromSourceName name content

def getId (map : SourceMap Content) (name : SourceName) : Option SourceId :=
  (map.nameToId name).or
    (let id := sourceIdForName fromSourceName name
     if (map.idToIndex id).isSome then some id else none)

def getSource (map : SourceMap Content) (id : SourceId) : Option (SourceName × Content) := do
  let index ← map.idToIndex id
  let (_, name, content) ← map.files[index]?
  pure (name, content)

def filedName (id : SourceId) (displayName : SourceName) : SourceName :=
  if sourceIdForName fromSourceName displayName = id then displayName else placeholderSourceName id

def registerId (map : SourceMap Content) (id : SourceId) (displayName : SourceName) (content : Content) :
    SourceMap Content × Bool :=
  let name := filedName fromSourceName id displayName
  if (map.getSource id).isSome ∨ (map.nameToId name).isSome then (map, false)
  else
    ({ files := map.files ++ [(id, name, content)]
       nameToId := Function.update map.nameToId name (some id)
       idToIndex := Function.update map.idToIndex id (some map.files.length) }, true)

def name (map : SourceMap Content) (id : SourceId) : Option SourceName := (map.getSource id).map Prod.fst

def trySpan (map : SourceMap Content) (source : SourceId) (start stop : Nat) : Option Span := do
  let _ ← map.getSource source
  pure ⟨source, start, stop⟩

def encode (map : SourceMap Content) : List (SourceFile Content) := map.files

def decode (files : List (SourceFile Content)) : Except String (SourceMap Content) := do
  let indexes ← checkedSourceIndexes fromSourceName files
  pure { indexes with files }

end SourceMap

/-! ## Calls -/

/-- A call that registers a source. -/
inductive SourceCall (Content : Type) where
  | add (name : SourceName) (content : Content)
  | addShared (name : SourceName) (content : Content)
  | registerId (id : SourceId) (displayName : SourceName) (content : Content)

namespace SourceCall

def apply (map : SourceMap Content) : SourceCall Content → SourceMap Content
  | .add name content => (map.add fromSourceName name content).1
  | .addShared name content => (map.addShared fromSourceName name content).1
  | .registerId id displayName content => (map.registerId fromSourceName id displayName content).1

def id : SourceCall Content → SourceId
  | .add name _ => sourceIdForName fromSourceName name
  | .addShared name _ => sourceIdForName fromSourceName name
  | .registerId id _ _ => id

def source : SourceCall Content → SourceName × Content
  | .add name content => (name, content)
  | .addShared name content => (name, content)
  | .registerId id displayName content => (SourceMap.filedName fromSourceName id displayName, content)

def run (calls : List (SourceCall Content)) : SourceMap Content :=
  calls.foldl (apply fromSourceName) SourceMap.new

end SourceCall

end

end Rumoca.Core
