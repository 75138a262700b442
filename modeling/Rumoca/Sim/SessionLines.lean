import Rumoca.Lib.Lines
import Rumoca.Machine
/-!
# Command lines of a session

A session reads its commands line by line from a reader that hands out its
bytes in chunks, and buffers no more than a limit. A bounded read ends at the
newline, at the limit or at the end of the stream; a line past the limit is
skipped through its newline before the next one is read.
-/

namespace Rumoca.Sim

open Lib

def newline : UInt8 := 10

/-! ## Buffered readers -/

/-- The chunks a reader will hand out, none of them empty. -/
structure Reader where
  chunks : List (List UInt8)
  nonempty : ∀ chunk ∈ chunks, chunk ≠ []

namespace Reader

def bytes (reader : Reader) : List UInt8 := reader.chunks.flatten

/-- `fill_buf`: the chunk at hand, empty at the end of the stream. -/
def fillBuf (reader : Reader) : List UInt8 := reader.chunks.headD []

def consume (reader : Reader) (amount : Nat) : Reader :=
  match reader with
  | ⟨[], nonempty⟩ => ⟨[], nonempty⟩
  | ⟨chunk :: rest, nonempty⟩ =>
    if h : amount < chunk.length then
      ⟨chunk.drop amount :: rest, by
        intro c hc
        rcases List.mem_cons.1 hc with rfl | hc
        · exact fun hnil => absurd (List.drop_eq_nil_iff.1 hnil) (Nat.not_le.2 h)
        · exact nonempty c (List.mem_cons_of_mem _ hc)⟩
    else ⟨rest, fun c hc => nonempty c (List.mem_cons_of_mem _ hc)⟩

theorem fillBuf_eq_nil {reader : Reader} : reader.fillBuf = [] ↔ reader.bytes = [] := by
  obtain ⟨chunks, nonempty⟩ := reader
  cases chunks with
  | nil => exact iff_of_true rfl rfl
  | cons chunk rest =>
    have hchunk := nonempty chunk List.mem_cons_self
    refine iff_of_false hchunk fun h => hchunk ?_
    exact (List.append_eq_nil_iff.1 (show chunk ++ rest.flatten = [] from h)).1

theorem fillBuf_prefix (reader : Reader) : reader.fillBuf <+: reader.bytes := by
  obtain ⟨chunks, nonempty⟩ := reader
  cases chunks with
  | nil => exact List.prefix_rfl
  | cons chunk rest => exact List.prefix_append chunk rest.flatten

theorem bytes_consume {reader : Reader} {amount : Nat} (h : amount ≤ reader.fillBuf.length) :
    (reader.consume amount).bytes = reader.bytes.drop amount := by
  obtain ⟨chunks, nonempty⟩ := reader
  cases chunks with
  | nil => exact (List.drop_nil).symm
  | cons chunk rest =>
    have hle : amount ≤ chunk.length := h
    show _ = (chunk ++ rest.flatten).drop amount
    unfold consume
    dsimp only
    split_ifs with hlt
    · exact (List.drop_append_of_le_length hle).symm
    · have heq : amount = chunk.length := by omega
      rw [heq, List.drop_left]
      rfl

end Reader

/-- A reader that stops after a number of bytes. -/
structure Take where
  inner : Reader
  limit : Nat

namespace Take

def fillBuf (t : Take) : List UInt8 := if t.limit = 0 then [] else t.inner.fillBuf.take t.limit

def consume (t : Take) (amount : Nat) : Take :=
  let amount := min amount t.limit
  ⟨t.inner.consume amount, t.limit - amount⟩

theorem fillBuf_length_le (t : Take) : t.fillBuf.length ≤ t.limit := by
  unfold fillBuf
  split_ifs with h
  · exact Nat.zero_le _
  · exact List.length_take_le _ _

/-- The bytes of one turn of a read: those through the delimiter, or all at hand. -/
def used (t : Take) (delimiter : UInt8) : Nat :=
  match t.fillBuf.idxOf? delimiter with
  | some position => position + 1
  | none => t.fillBuf.length

theorem used_le (t : Take) (delimiter : UInt8) : t.used delimiter ≤ t.fillBuf.length := by
  unfold used
  split
  · rename_i position h
    exact Nat.succ_le_of_lt (List.idxOf?_eq_some_iff.1 h).1
  · exact le_rfl

/-- `read_until`: the reader left, the buffer and the number of bytes read. -/
def readUntil (delimiter : UInt8) (t : Take) (buffer : List UInt8) (read : Nat) : Take × List UInt8 × Nat :=
  let available := t.fillBuf
  let used := t.used delimiter
  let buffer := buffer ++ available.take used
  if _h : delimiter ∈ available ∨ used = 0 then (t.consume used, buffer, read + used)
  else readUntil delimiter (t.consume used) buffer (read + used)
termination_by t.limit
decreasing_by
  have hle := (t.used_le delimiter).trans t.fillBuf_length_le
  have hpos : t.used delimiter ≠ 0 := fun hzero => _h (.inr hzero)
  show t.limit - min (t.used delimiter) t.limit < t.limit
  omega

end Take

/-! ## Command lines -/

/-- Skip through the next newline, or to the end of the stream. -/
def discardRestOfLine (reader : Reader) : Reader :=
  if _h : reader.fillBuf = [] then reader
  else
    match reader.fillBuf.idxOf? newline with
    | some stop => reader.consume (stop + 1)
    | none => discardRestOfLine (reader.consume reader.fillBuf.length)
termination_by reader.bytes.length
decreasing_by
  rw [Reader.bytes_consume le_rfl, List.length_drop]
  have hpos := List.length_pos_iff.2 _h
  have hle := reader.fillBuf_prefix.length_le
  omega

/-- `String::from_utf8`; `describe` is the text of its error. -/
def lineFromUtf8 (describe : List UInt8 → String) (line : List UInt8) : Except String String :=
  match String.fromUTF8? ⟨line.toArray⟩ with
  | some text => .ok text
  | none => .error ("session command line is not valid UTF-8: " ++ describe line)

def lineTooLong (maxLineBytes : Nat) : String := "session command line exceeds " ++ toString maxLineBytes ++ " bytes"

/-- The reader left, and the next line or why it is refused; none at the end of the stream. -/
def nextCommandLine (describe : List UInt8 → String) (maxLineBytes : Nat) (reader : Reader) :
    Reader × Option (Except String String) :=
  let limit := min (maxLineBytes + 1) (usizeLimit - 1)
  let (bounded, buffer, read) := Take.readUntil newline ⟨reader, limit⟩ [] 0
  if read = 0 then (bounded.inner, none)
  else if buffer.getLast? ≠ some newline ∧ maxLineBytes < buffer.length then
    (discardRestOfLine bounded.inner, some (.error (lineTooLong maxLineBytes)))
  else (bounded.inner, some (lineFromUtf8 describe buffer))

/-- Repeated calls until the end of the stream: each result and the bytes left after it. None when a number of calls
does not reach the end. -/
def commandLines (describe : List UInt8 → String) (maxLineBytes : Nat) : (calls : Nat) → Reader →
    Option (List (Except String String × List UInt8))
  | 0, _ => none
  | calls + 1, reader =>
    match nextCommandLine describe maxLineBytes reader with
    | (_, none) => some []
    | (reader, some result) =>
      (commandLines describe maxLineBytes calls reader).map fun results => (result, reader.bytes) :: results

end Rumoca.Sim
