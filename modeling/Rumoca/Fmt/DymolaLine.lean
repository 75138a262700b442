import Mathlib.Data.List.DropRight
import Rumoca.Flatten.FlatModel
/-!
# One line of the formatter

The formatter rewrites a source line by line. What it may change of a line
depends on what the lines before it left open: a string, a quoted identifier,
a block comment, a delimiter or a statement.
-/

namespace Rumoca.Fmt

open Flatten (isWhiteSpace trim)

inductive LineEnding where
  | auto | lf | crlf
deriving DecidableEq, Repr

/-- The options the line pass reads. -/
structure FormatOptions where
  indentSize : Nat
  useTabs : Bool
  normalizeIndentation : Bool
  repairMissingIndentation : Bool
  insertFinalNewline : Bool
  trimTrailingWhitespace : Bool
  lineEnding : LineEnding
deriving DecidableEq, Repr

def FormatOptions.dymola : FormatOptions where
  indentSize := 2
  useTabs := false
  normalizeIndentation := false
  repairMissingIndentation := true
  insertFinalNewline := true
  trimTrailingWhitespace := true
  lineEnding := .auto

inductive FormatSection where
  | declaration | equation | algorithm
deriving DecidableEq, Repr

/-- What the lines so far left open. -/
structure DymolaFormatState where
  formatSection : FormatSection
  inString : Bool
  inQuotedIdentifier : Bool
  inBlockComment : Bool
  previousLineContinues : Bool
  parenDepth : Nat
  braceDepth : Nat
  bracketDepth : Nat
  escaped : Bool
  statementContinuation : Bool
  commentAnchoredLayout : Bool
deriving DecidableEq, Repr

namespace DymolaFormatState

def initial : DymolaFormatState :=
  ⟨.declaration, false, false, false, false, 0, 0, 0, false, false, false⟩

/-- A string, a quoted identifier or a block comment is open. -/
def insideToken (state : DymolaFormatState) : Bool :=
  state.inString || state.inQuotedIdentifier || state.inBlockComment

end DymolaFormatState

/-! ## Text -/

/-- The blanks of `[' ', '\t']`. -/
def isBlank (c : Char) : Bool := c = ' ' || c = '\t'

/-- `trim_start_matches([' ', '\t'])`. -/
def trimStartMatches (line : List Char) : List Char := line.dropWhile isBlank

/-- `trim_end_matches([' ', '\t'])`. -/
def trimEndMatches (line : List Char) : List Char := line.rdropWhile isBlank

def trimStart (line : List Char) : List Char := line.dropWhile isWhiteSpace

def toAsciiLowercase (line : List Char) : List Char := line.map Char.toLower

def startsWith (line : List Char) (text : String) : Bool := text.toList.isPrefixOf line

def endsWith (line : List Char) (text : String) : Bool := text.toList.isSuffixOf line

/-- `strip_prefix`. -/
def stripPrefix (line : List Char) (text : String) : Option (List Char) :=
  if startsWith line text then some (line.drop text.length) else none

/-! ## Keywords -/

def startsWithKeyword (lower : List Char) (keyword : String) : Bool :=
  match stripPrefix lower keyword with
  | none => false
  | some [] => true
  | some (c :: _) => !(c.isAlphanum || c = '_')

def isDedentKeyword (lower : List Char) : Bool := startsWith lower "end " || lower = "end;".toList

/-- The loop over the class prefixes; `true` where a prefix leaves an operator. -/
def stripClassPrefixes : List String → List Char → Bool × List Char
  | [], lowered => (false, lowered)
  | text :: rest, lowered =>
    match stripPrefix lowered text with
    | none => stripClassPrefixes rest lowered
    | some stripped => if startsWith stripped "operator " then (true, stripped) else stripClassPrefixes rest stripped

def isClassOpenKeyword (lower : List Char) : Bool :=
  if startsWith lower "operator " then true
  else
    let (isOperator, lowered) :=
      stripClassPrefixes ["encapsulated ", "partial ", "operator ", "expandable ", "pure ", "impure "] lower
    isOperator || startsWith lowered "model " || startsWith lowered "class " || startsWith lowered "block " ||
      startsWith lowered "connector " || startsWith lowered "record " || startsWith lowered "type " ||
      startsWith lowered "package " || startsWith lowered "function "

def isIndentKeyword (lower : List Char) : Bool :=
  isClassOpenKeyword lower || startsWith lower "if " || startsWith lower "for " || startsWith lower "while " ||
    startsWith lower "when "

def isSectionKeyword (lower : List Char) : Bool :=
  lower = "equation".toList || lower = "algorithm".toList || lower = "initial equation".toList ||
    lower = "initial algorithm".toList || lower = "public".toList || lower = "protected".toList

def isBranchKeyword (lower : List Char) : Bool := startsWith lower "else" || startsWith lower "elseif "

def isControlEndKeyword (lower : List Char) : Bool :=
  startsWith lower "end if" || startsWith lower "end for" || startsWith lower "end while" ||
    startsWith lower "end when"

def isClassEndKeyword (lower : List Char) : Bool := isDedentKeyword lower && !isControlEndKeyword lower

def isStatementBranch (lower : List Char) (state : DymolaFormatState) : Bool :=
  !state.previousLineContinues &&
    (startsWith lower "else" && !startsWith lower "elseif " ||
      startsWith lower "elseif " && endsWith lower " then")

def isStatementThen (lower : List Char) (state : DymolaFormatState) : Bool :=
  (!state.previousLineContinues || state.statementContinuation) && endsWith lower " then" &&
    (state.statementContinuation || startsWith lower "if " || startsWith lower "elseif ")

def isStatementLoop (lower : List Char) (state : DymolaFormatState) : Bool :=
  (!state.previousLineContinues || state.statementContinuation) && endsWith lower " loop" &&
    (state.statementContinuation || startsWith lower "for " || startsWith lower "while ")

def isStatementElse (lower : List Char) (state : DymolaFormatState) : Bool :=
  !state.previousLineContinues && endsWith lower " else"

def startsStatementContinuation (lower : List Char) : Bool :=
  (startsWith lower "if " || startsWith lower "elseif ") && !endsWith lower " then" ||
    (startsWith lower "for " || startsWith lower "while ") && !endsWith lower " loop"

/-! ## State -/

def advanceQuotedState (c : Char) (state : DymolaFormatState) : DymolaFormatState :=
  if state.escaped then { state with escaped := false }
  else if c = '\\' then { state with escaped := true }
  else if c = '"' ∧ state.inString then { state with inString := false }
  else if c = '\'' ∧ state.inQuotedIdentifier then { state with inQuotedIdentifier := false }
  else state

def updateDelimiterDepth (c : Char) (state : DymolaFormatState) : DymolaFormatState :=
  match c with
  | '(' => { state with parenDepth := state.parenDepth + 1 }
  | ')' => { state with parenDepth := state.parenDepth - 1 }
  | '{' => { state with braceDepth := state.braceDepth + 1 }
  | '}' => { state with braceDepth := state.braceDepth - 1 }
  | '[' => { state with bracketDepth := state.bracketDepth + 1 }
  | ']' => { state with bracketDepth := state.bracketDepth - 1 }
  | _ => state

def scanLineLexicalState : List Char → DymolaFormatState → DymolaFormatState
  | [], state => state
  | c :: rest, state =>
    if state.inBlockComment then
      match c, rest with
      | '*', '/' :: rest => scanLineLexicalState rest { state with inBlockComment := false }
      | _, rest => scanLineLexicalState rest state
    else if state.inString || state.inQuotedIdentifier then scanLineLexicalState rest (advanceQuotedState c state)
    else if c = '"' then scanLineLexicalState rest { state with inString := true, escaped := false }
    else if c = '\'' then scanLineLexicalState rest { state with inQuotedIdentifier := true, escaped := false }
    else
      match c, rest with
      | '/', '/' :: _ => state
      | '/', '*' :: rest => scanLineLexicalState rest { state with inBlockComment := true }
      | c, rest => scanLineLexicalState rest (updateDelimiterDepth c state)

def updateFormatSection (line : List Char) (state : DymolaFormatState) : DymolaFormatState :=
  if state.insideToken then state
  else
    let lower := toAsciiLowercase (trimStart line)
    if startsWithKeyword lower "initial equation" || startsWithKeyword lower "equation" then
      { state with formatSection := .equation }
    else if startsWithKeyword lower "initial algorithm" || startsWithKeyword lower "algorithm" then
      { state with formatSection := .algorithm }
    else if startsWithKeyword lower "public" || startsWithKeyword lower "protected" || isClassEndKeyword lower then
      { state with formatSection := .declaration }
    else state

def isLayoutCommentLine (line : List Char) (state : DymolaFormatState) : Bool :=
  if state.formatSection = .declaration then false
  else startsWith (trimStart line) "//" || startsWith (trimStart line) "/*"

def isCommentAnchorBoundary (trimmed : List Char) : Bool :=
  let lower := toAsciiLowercase trimmed
  trimmed.isEmpty || isSectionKeyword lower || isClassOpenKeyword lower || isBranchKeyword lower ||
    startsWith lower "end if" || startsWith lower "end when" || startsWithKeyword lower "annotation"

def updateCommentAnchoredLayout (line : List Char) (state : DymolaFormatState)
    (wasInBlockComment startedAsLayoutComment : Bool) : DymolaFormatState :=
  if state.inString || state.inQuotedIdentifier then state
  else if isCommentAnchorBoundary (trimStart line) then { state with commentAnchoredLayout := false }
  else if startedAsLayoutComment && !state.inBlockComment then { state with commentAnchoredLayout := true }
  else if wasInBlockComment && !state.inBlockComment then { state with commentAnchoredLayout := true }
  else state

def lineContinues (line : List Char) (state : DymolaFormatState) : Bool :=
  let trimmed := trim line
  if trimmed.isEmpty then false
  else if state.inString || state.inBlockComment then true
  else
    let lower := toAsciiLowercase trimmed
    !(isSectionKeyword lower || isClassOpenKeyword lower || isDedentKeyword lower || isStatementBranch lower state ||
      endsWith lower ";" || isStatementThen lower state || isStatementLoop lower state ||
      isStatementElse lower state || startsWith lower "/*" || startsWith lower "*" || endsWith lower "*/" ||
      startsWith lower "//")

def finishLineState (line : List Char) (state : DymolaFormatState) : DymolaFormatState :=
  let continues := lineContinues line state
  let lower := toAsciiLowercase (trim line)
  { state with
    statementContinuation := continues && (state.statementContinuation || startsStatementContinuation lower)
    previousLineContinues := continues }

def updateFormatState (line : List Char) (state : DymolaFormatState) : DymolaFormatState :=
  let wasInBlockComment := state.inBlockComment
  let state := updateFormatSection line state
  let startedAsLayoutComment := isLayoutCommentLine line state
  let state := finishLineState line (scanLineLexicalState line state)
  updateCommentAnchoredLayout line state wasInBlockComment startedAsLayoutComment

/-- A line that neither starts nor ends inside a string, a quoted identifier or a block comment. -/
def canTrimTrailingWhitespace (line : List Char) (state : DymolaFormatState) : Bool :=
  !state.insideToken && !(updateFormatState line state).insideToken

/-! ## Indentation -/

def shouldPreserveLeadingWhitespace (trimmed : List Char) (state : DymolaFormatState) : Bool :=
  state.inString || state.inQuotedIdentifier || state.inBlockComment || state.previousLineContinues ||
    0 < state.parenDepth || 0 < state.braceDepth || 0 < state.bracketDepth || startsWith trimmed "\"" ||
    startsWithKeyword (toAsciiLowercase trimmed) "annotation" || startsWith trimmed "/*" || startsWith trimmed "//"

def shouldPreserveCommentAnchoredLayout (trimmed : List Char) (state : DymolaFormatState) : Bool :=
  state.commentAnchoredLayout && !isCommentAnchorBoundary trimmed

def updateIndentLevelForLine (trimmed : List Char) (indentLevel : Nat) : Nat × Nat :=
  let lower := toAsciiLowercase trimmed
  let branch := isBranchKeyword lower
  let indentLevel := if isDedentKeyword lower || branch then indentLevel - 1 else indentLevel
  let visualIndent := if isSectionKeyword lower then indentLevel - 1 else indentLevel
  (visualIndent, if isIndentKeyword lower || branch then indentLevel + 1 else indentLevel)

def indentUnit (options : FormatOptions) : List Char :=
  if options.useTabs then ['\t'] else List.replicate options.indentSize ' '

def indentedLine (trimmed : List Char) (options : FormatOptions) (visualIndent : Nat) : List Char :=
  (List.replicate visualIndent (indentUnit options)).flatten ++ trimmed

def splitFirstWord (input : List Char) : Option (List Char × List Char) :=
  let trimmed := trimStart input
  if trimmed.isEmpty then none
  else some (trimmed.span fun c => !(isWhiteSpace c || c = '(' || c = '[' || c = ';'))

def declarationPrefixes : List String :=
  ["final", "parameter", "constant", "discrete", "input", "output", "flow", "stream"]

theorem splitFirstWord_length {input word tail : List Char} (h : splitFirstWord input = some (word, tail)) :
    word.length + tail.length ≤ input.length := by
  simp only [splitFirstWord] at h
  split at h
  · cases h
  · rw [Option.some.injEq, List.span_eq_takeWhile_dropWhile, Prod.mk.injEq] at h
    rw [← h.1, ← h.2, ← List.length_append, List.takeWhile_append_dropWhile]
    exact (List.dropWhile_sublist _).length_le

theorem trimStart_length_le (line : List Char) : (trimStart line).length ≤ line.length :=
  (List.dropWhile_sublist _).length_le

def isBuiltinScalarDeclaration (rest : List Char) : Bool :=
  match h : splitFirstWord rest with
  | none => false
  | some (word, tail) =>
    if hword : word ∈ declarationPrefixes.map String.toList then
      have : (trimStart tail).length < rest.length := by
        have hlength := splitFirstWord_length h
        have htail := trimStart_length_le tail
        have hpos : 0 < word.length := by
          revert hword
          generalize word = w
          intro hw
          fin_cases hw <;> decide
        omega
      isBuiltinScalarDeclaration (trimStart tail)
    else word = "Real".toList || word = "Integer".toList || word = "Boolean".toList || word = "String".toList
termination_by rest.length

def shouldRepairMissingIndentationLine (trimmed : List Char) (state : DymolaFormatState) : Bool :=
  match state.formatSection with
  | .equation => false
  | .declaration => isBuiltinScalarDeclaration trimmed
  | .algorithm => false

def shouldPreserveUnindentedLayoutLine (trimmed : List Char) : Bool :=
  let lower := toAsciiLowercase trimmed
  isClassOpenKeyword lower || isDedentKeyword lower || isSectionKeyword lower || startsWith lower "extends " ||
    startsWith lower "import " || startsWith lower "within " || startsWithKeyword lower "annotation" ||
    startsWith lower "connect(" || startsWithKeyword lower "public" || startsWithKeyword lower "protected"

def normalizedIndentedLine (line : List Char) (options : FormatOptions) (indentLevel : Nat)
    (state : DymolaFormatState) : List Char × Nat :=
  let trimmed := trimStartMatches line
  if shouldPreserveLeadingWhitespace trimmed state then (line, indentLevel)
  else if shouldPreserveCommentAnchoredLayout trimmed state then
    (line, (updateIndentLevelForLine trimmed indentLevel).2)
  else
    let (visualIndent, indentLevel) := updateIndentLevelForLine trimmed indentLevel
    (indentedLine trimmed options visualIndent, indentLevel)

def repairMissingIndentedLine (line : List Char) (options : FormatOptions) (indentLevel : Nat)
    (state : DymolaFormatState) : List Char × Nat :=
  let trimmed := trimStartMatches line
  if shouldPreserveLeadingWhitespace trimmed state then (line, indentLevel)
  else
    let (visualIndent, indentLevel) := updateIndentLevelForLine trimmed indentLevel
    let hasExistingIndent := trimmed.length ≠ line.length
    if hasExistingIndent ∨ visualIndent = 0 ∨ shouldPreserveUnindentedLayoutLine trimmed ∨
        ¬shouldRepairMissingIndentationLine trimmed state then
      (line, indentLevel)
    else (indentedLine trimmed options visualIndent, indentLevel)

def reindentedLine (line : List Char) (options : FormatOptions) (indentLevel : Nat)
    (state : DymolaFormatState) : List Char × Nat :=
  if options.normalizeIndentation then normalizedIndentedLine line options indentLevel state
  else if options.repairMissingIndentation then repairMissingIndentedLine line options indentLevel state
  else (line, indentLevel)

def formatDymolaLine (line : List Char) (options : FormatOptions) (indentLevel : Nat) (state : DymolaFormatState) :
    List Char × Nat × DymolaFormatState :=
  if (trim line).isEmpty then
    if state.insideToken then (line, indentLevel, updateFormatState line state)
    else ([], indentLevel, { state with previousLineContinues := false, commentAnchoredLayout := false })
  else
    let (formatted, indentLevel) := reindentedLine line options indentLevel state
    (formatted, indentLevel, updateFormatState formatted state)

end Rumoca.Fmt
