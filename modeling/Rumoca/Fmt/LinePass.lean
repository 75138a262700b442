import Rumoca.Fmt.DymolaLine
import Rumoca.Lib.Segments
/-!
# The line pass

The pass rewrites the lines of a source one after another, and ends each with
the target line ending. Its output is cut into lines at the same line feeds it
wrote.
-/

namespace Rumoca.Fmt

open Lib

/-- `strip_suffix('\r')`. -/
def stripReturn (line : List Char) : List Char := if line.getLast? = some '\r' then line.dropLast else line

/-- `str::lines`: the text between line feeds, without the carriage return before one. -/
def sourceLines (source : List Char) : List (List Char) :=
  (segments '\n' source).1.map stripReturn ++
    if (segments '\n' source).2.isEmpty then [] else [(segments '\n' source).2]

/-- The windows `\r\n` of a source. -/
def crlfCount (source : List Char) : Nat := (source.zip source.tail).countP fun w => w = ('\r', '\n')

def targetLineEnding (source : List Char) (setting : LineEnding) : List Char :=
  match setting with
  | .lf => ['\n']
  | .crlf => ['\r', '\n']
  | .auto =>
    if source.count '\n' - crlfCount source < crlfCount source then ['\r', '\n'] else ['\n']

/-- A line without a carriage return, and without the trailing blanks that may go. -/
def trimmedLine (options : FormatOptions) (rawLine : List Char) (state : DymolaFormatState) : List Char :=
  let line := stripReturn rawLine
  if options.trimTrailingWhitespace && canTrimTrailingWhitespace line state then trimEndMatches line else line

def formatLines (options : FormatOptions) : List (List Char) → Nat → DymolaFormatState → List (List Char)
  | [], _, _ => []
  | rawLine :: rest, indentLevel, state =>
    let (formattedLine, indentLevel, state) :=
      formatDymolaLine (trimmedLine options rawLine state) options indentLevel state
    formattedLine :: formatLines options rest indentLevel state

theorem formatLines_cons (options : FormatOptions) (rawLine : List Char) (rest : List (List Char)) (indentLevel : Nat)
    (state : DymolaFormatState) :
    formatLines options (rawLine :: rest) indentLevel state =
      let result := formatDymolaLine (trimmedLine options rawLine state) options indentLevel state
      result.1 :: formatLines options rest result.2.1 result.2.2 := rfl

/-- The lines, each ended with the line ending; the last one is not where no final newline is asked for. -/
def joinLines (options : FormatOptions) (lines : List (List Char)) (lineEnding : List Char) : List Char :=
  let result := lines.flatMap (· ++ lineEnding)
  if !options.insertFinalNewline && !lines.isEmpty then result.rdrop lineEnding.length else result

/-- The pass of `format_dymola_source` over the source it formats. -/
def formatDymolaSource (source : List Char) (options : FormatOptions) : List Char :=
  joinLines options (formatLines options (sourceLines source) 0 .initial)
    (targetLineEnding source options.lineEnding)

/-! ## Line endings -/

def endingReturns (source : List Char) (setting : LineEnding) : List Char :=
  (targetLineEnding source setting).dropLast

theorem targetLineEnding_cases (source : List Char) (setting : LineEnding) :
    targetLineEnding source setting = ['\n'] ∨ targetLineEnding source setting = ['\r', '\n'] := by
  cases setting with
  | lf => exact .inl rfl
  | crlf => exact .inr rfl
  | auto =>
    simp only [targetLineEnding]
    split
    · exact .inr rfl
    · exact .inl rfl

theorem targetLineEnding_eq (source : List Char) (setting : LineEnding) :
    targetLineEnding source setting = endingReturns source setting ++ ['\n'] := by
  unfold endingReturns
  rcases targetLineEnding_cases source setting with h | h <;> rw [h] <;> rfl

theorem endingReturns_cases (source : List Char) (setting : LineEnding) :
    endingReturns source setting = [] ∨ endingReturns source setting = ['\r'] := by
  unfold endingReturns
  rcases targetLineEnding_cases source setting with h | h <;> rw [h]
  · exact .inl rfl
  · exact .inr rfl

theorem flatMap_ending (lines : List (List Char)) (returns : List Char) :
    lines.flatMap (· ++ (returns ++ ['\n'])) = joinSegments '\n' (lines.map (· ++ returns)) [] := by
  rw [joinSegments, List.append_nil, List.flatMap_map]
  exact List.flatMap_congr fun line _ => (List.append_assoc line returns ['\n']).symm

theorem joinLines_insert {options : FormatOptions} (h : options.insertFinalNewline = true) (lines : List (List Char))
    (returns : List Char) :
    joinLines options lines (returns ++ ['\n']) = joinSegments '\n' (lines.map (· ++ returns)) [] := by
  simp only [joinLines, h]
  exact flatMap_ending lines returns

theorem joinLines_drop {options : FormatOptions} (h : options.insertFinalNewline = false) (init : List (List Char))
    (last returns : List Char) :
    joinLines options (init ++ [last]) (returns ++ ['\n']) = joinSegments '\n' (init.map (· ++ returns)) last := by
  have hne : (init ++ [last]).isEmpty = false := by cases init <;> rfl
  simp only [joinLines, h, hne, Bool.not_false, Bool.and_self, if_true]
  rw [List.flatMap_append, List.flatMap_singleton, ← List.append_assoc, List.rdrop_append_length, flatMap_ending,
    joinSegments, joinSegments, List.append_nil]

theorem joinLines_nil (options : FormatOptions) (lineEnding : List Char) : joinLines options [] lineEnding = [] := by
  simp [joinLines]

/-! ## Carriage returns -/

theorem stripReturn_concat (line : List Char) : stripReturn (line ++ ['\r']) = line := by
  simp [stripReturn]

theorem stripReturn_of_getLast? {line : List Char} (h : line.getLast? ≠ some '\r') : stripReturn line = line :=
  if_neg h

theorem stripReturn_cases (line : List Char) :
    line = stripReturn line ++ ['\r'] ∨ (stripReturn line = line ∧ line.getLast? ≠ some '\r') := by
  by_cases h : line.getLast? = some '\r'
  · obtain ⟨init, rfl⟩ := List.getLast?_eq_some_iff.1 h
    exact .inl (by rw [stripReturn_concat])
  · exact .inr ⟨stripReturn_of_getLast? h, h⟩

theorem stripReturn_initial (line : List Char) : stripReturn line <+: line := by
  rcases stripReturn_cases line with h | ⟨h, -⟩
  · exact ⟨['\r'], h.symm⟩
  · rw [h]

end Rumoca.Fmt
