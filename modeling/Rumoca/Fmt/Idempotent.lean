import Rumoca.Fmt.SignificantExact
/-!
# Running the pass twice

A formatted line is formatted to itself from the same state, so a second pass
changes nothing where it reads the lines the first one wrote. It reads others
when a line kept a carriage return at its end, and when the text without its
final line ending ends with a line feed.
-/

namespace Rumoca.Fmt

open Lib
open Flatten (isWhiteSpace trim)

/-! ## Blanks -/

theorem trimStartMatches_append {w : List Char} (hw : ∀ c ∈ w, isBlank c = true) (core : List Char) :
    trimStartMatches (w ++ core) = trimStartMatches core :=
  List.dropWhile_append_of_pos hw

theorem trimStart_append {w : List Char} (hw : ∀ c ∈ w, isBlank c = true) (core : List Char) :
    trimStart (w ++ core) = trimStart core :=
  List.dropWhile_append_of_pos fun c hc => isWhiteSpace_of_isGap (isGap_of_isBlank (hw c hc))

theorem trimStartMatches_idem (line : List Char) : trimStartMatches (trimStartMatches line) = trimStartMatches line :=
  List.dropWhile_idempotent isBlank line

theorem trim_isEmpty_iff (line : List Char) : (trim line).isEmpty = true ↔ ∀ c ∈ line, isWhiteSpace c = true := by
  refine ⟨isWhiteSpace_of_trim, fun h => ?_⟩
  rw [trim, List.dropWhile_eq_nil_iff.2 h]
  rfl

/-- A line with a character that is no white space keeps it behind its leading blanks. -/
theorem trimStartMatches_ne_nil {line : List Char} (h : ¬(trim line).isEmpty = true) : trimStartMatches line ≠ [] := by
  intro hnil
  refine h ((trim_isEmpty_iff line).2 fun c hc => ?_)
  exact isWhiteSpace_of_isGap (isGap_of_isBlank (List.dropWhile_eq_nil_iff.1 hnil c hc))

theorem trim_eq (line : List Char) : trim line = ((trimStart line).reverse.dropWhile isWhiteSpace).reverse := rfl

theorem trim_append {w : List Char} (hw : ∀ c ∈ w, isBlank c = true) (core : List Char) :
    trim (w ++ core) = trim core := by
  rw [trim_eq, trim_eq, trimStart_append hw]

/-! ## One line -/

variable (options : FormatOptions) (indentLevel : Nat) (state : DymolaFormatState)

theorem reindentedLine_leading (line : List Char) : ∃ w w', (∀ c ∈ w, isBlank c = true) ∧ (∀ c ∈ w', isBlank c = true) ∧
    line = w ++ trimStartMatches line ∧
    (reindentedLine line options indentLevel state).1 = w' ++ trimStartMatches line := by
  obtain ⟨w, hw, hsplit⟩ := trimStartMatches_split line
  rcases reindentedLine_cases line options indentLevel state with heq | ⟨-, w', hw', heq⟩
  · exact ⟨w, w, hw, hw, hsplit.symm, heq.trans hsplit.symm⟩
  · exact ⟨w, w', hw, hw', hsplit.symm, heq⟩

theorem trimStartMatches_reindentedLine (line : List Char) :
    trimStartMatches (reindentedLine line options indentLevel state).1 = trimStartMatches line := by
  obtain ⟨w, w', -, hw', -, heq⟩ := reindentedLine_leading options indentLevel state line
  rw [heq, trimStartMatches_append hw', trimStartMatches_idem]

theorem normalizedIndentedLine_idem (line : List Char) :
    normalizedIndentedLine (normalizedIndentedLine line options indentLevel state).1 options indentLevel state =
      normalizedIndentedLine line options indentLevel state := by
  by_cases h1 : shouldPreserveLeadingWhitespace (trimStartMatches line) state = true
  · simp only [normalizedIndentedLine, if_pos h1]
  · by_cases h2 : shouldPreserveCommentAnchoredLayout (trimStartMatches line) state = true
    · simp only [normalizedIndentedLine, if_neg h1, if_pos h2]
    · obtain ⟨w, hw, heq⟩ := indentedLine_split (trimStartMatches line) options
        (updateIndentLevelForLine (trimStartMatches line) indentLevel).1
      have htrim : trimStartMatches (w ++ trimStartMatches line) = trimStartMatches line := by
        rw [trimStartMatches_append hw, trimStartMatches_idem]
      simp only [normalizedIndentedLine, if_neg h1, if_neg h2, heq, htrim]

theorem repairMissingIndentedLine_idem (line : List Char) :
    repairMissingIndentedLine (repairMissingIndentedLine line options indentLevel state).1 options indentLevel state =
      repairMissingIndentedLine line options indentLevel state := by
  by_cases h1 : shouldPreserveLeadingWhitespace (trimStartMatches line) state = true
  · simp only [repairMissingIndentedLine, if_pos h1]
  · by_cases h2 : (trimStartMatches line).length ≠ line.length ∨
        (updateIndentLevelForLine (trimStartMatches line) indentLevel).1 = 0 ∨
        shouldPreserveUnindentedLayoutLine (trimStartMatches line) = true ∨
        ¬shouldRepairMissingIndentationLine (trimStartMatches line) state = true
    · simp only [repairMissingIndentedLine, if_neg h1, if_pos h2]
    · obtain ⟨w, hw, heq⟩ := indentedLine_split (trimStartMatches line) options
        (updateIndentLevelForLine (trimStartMatches line) indentLevel).1
      have htrim : trimStartMatches (w ++ trimStartMatches line) = trimStartMatches line := by
        rw [trimStartMatches_append hw, trimStartMatches_idem]
      simp only [repairMissingIndentedLine, if_neg h1, if_neg h2, heq, htrim]
      split
      · rfl
      · rfl

theorem reindentedLine_idem (line : List Char) :
    reindentedLine (reindentedLine line options indentLevel state).1 options indentLevel state =
      reindentedLine line options indentLevel state := by
  unfold reindentedLine
  split
  · exact normalizedIndentedLine_idem options indentLevel state line
  · split
    · exact repairMissingIndentedLine_idem options indentLevel state line
    · rfl

theorem formatDymolaLine_idem (line : List Char) :
    formatDymolaLine (formatDymolaLine line options indentLevel state).1 options indentLevel state =
      formatDymolaLine line options indentLevel state := by
  by_cases hblank : (trim line).isEmpty = true
  · by_cases hinside : state.insideToken = true
    · simp only [formatDymolaLine, if_pos hblank, if_pos hinside]
    · simp only [formatDymolaLine, if_pos hblank, if_neg hinside]
      rfl
  · have hblank' : ¬(trim (reindentedLine line options indentLevel state).1).isEmpty = true := by
      obtain ⟨w, w', hw, hw', hline, heq⟩ := reindentedLine_leading options indentLevel state line
      rw [heq, trim_append hw', ← trim_append hw, ← hline]
      exact hblank
    simp only [formatDymolaLine, if_neg hblank, if_neg hblank', reindentedLine_idem]

/-! ## Trimming -/

theorem scanLineLexicalState_leading {state : DymolaFormatState} (h : state.insideToken = false) {w : List Char}
    (hw : ∀ c ∈ w, isBlank c = true) (core : List Char) :
    scanLineLexicalState (w ++ core) state = scanLineLexicalState core state := by
  rw [DymolaFormatState.insideToken, Bool.or_eq_false_iff] at h
  obtain ⟨hquoted, hblock⟩ := h
  induction w with
  | nil => rfl
  | cons c w ih =>
    have hc := hw c List.mem_cons_self
    rw [isBlank, Bool.or_eq_true, decide_eq_true_eq, decide_eq_true_eq] at hc
    rw [← ih fun c hc => hw c (List.mem_cons_of_mem _ hc)]
    rcases hc with rfl | rfl <;>
      · rw [List.cons_append, scanLineLexicalState, hblock, hquoted]
        · rfl
        all_goals exact fun _ h => absurd h (by decide)

theorem updateFormatState_leading {state : DymolaFormatState} (h : state.insideToken = false) {w : List Char}
    (hw : ∀ c ∈ w, isBlank c = true) (core : List Char) :
    updateFormatState (w ++ core) state = updateFormatState core state := by
  have hsection : updateFormatSection (w ++ core) state = updateFormatSection core state := by
    simp only [updateFormatSection, trimStart_append hw]
  have hoff : (updateFormatSection core state).insideToken = false := by
    obtain ⟨hs, hq, hb, -⟩ := sameFlags_updateFormatSection core state
    rw [DymolaFormatState.insideToken, hs, hq, hb]
    exact h
  simp only [updateFormatState, hsection, isLayoutCommentLine, scanLineLexicalState_leading hoff hw, finishLineState,
    lineContinues, updateCommentAnchoredLayout, trimStart_append hw, trim_append hw]

theorem canTrimTrailingWhitespace_leading {w : List Char} (hw : ∀ c ∈ w, isBlank c = true) (core : List Char)
    (state : DymolaFormatState) :
    canTrimTrailingWhitespace (w ++ core) state = canTrimTrailingWhitespace core state := by
  unfold canTrimTrailingWhitespace
  cases h : state.insideToken with
  | true => rfl
  | false => rw [updateFormatState_leading h hw]

theorem trimEndMatches_idem (line : List Char) : trimEndMatches (trimEndMatches line) = trimEndMatches line :=
  List.rdropWhile_idempotent isBlank line

theorem trimEndMatches_append {core : List Char} (w : List Char) (hne : core ≠ []) (h : trimEndMatches core = core) :
    trimEndMatches (w ++ core) = w ++ core := by
  rw [trimEndMatches, List.rdropWhile_eq_self_iff] at h ⊢
  intro hw
  rw [List.getLast_append_of_ne_nil _ hne]
  exact h hne

theorem trimEndMatches_trimStartMatches {line : List Char} (h : trimEndMatches line = line) :
    trimEndMatches (trimStartMatches line) = trimStartMatches line := by
  rw [trimEndMatches, List.rdropWhile_eq_self_iff] at h ⊢
  intro hne
  have hsuffix : trimStartMatches line <:+ line := List.dropWhile_suffix isBlank
  rw [hsuffix.getLast hne]
  exact h (hsuffix.ne_nil hne)

theorem trimEndMatches_formatDymolaLine {line : List Char} (h : trimEndMatches line = line) :
    trimEndMatches (formatDymolaLine line options indentLevel state).1 =
      (formatDymolaLine line options indentLevel state).1 := by
  unfold formatDymolaLine
  split
  · split
    · exact h
    · rfl
  · rename_i hblank
    obtain ⟨w, w', -, -, -, heq⟩ := reindentedLine_leading options indentLevel state line
    show trimEndMatches (reindentedLine line options indentLevel state).1 = (reindentedLine line options indentLevel state).1
    rw [heq]
    exact trimEndMatches_append w' (trimStartMatches_ne_nil hblank) (trimEndMatches_trimStartMatches h)

theorem canTrim_formatDymolaLine (line : List Char) :
    (formatDymolaLine line options indentLevel state).1 = [] ∨
      canTrimTrailingWhitespace (formatDymolaLine line options indentLevel state).1 state =
        canTrimTrailingWhitespace line state := by
  unfold formatDymolaLine
  split
  · split
    · exact .inr rfl
    · exact .inl rfl
  · obtain ⟨w, w', hw, hw', hline, heq⟩ := reindentedLine_leading options indentLevel state line
    refine .inr ?_
    show canTrimTrailingWhitespace (reindentedLine line options indentLevel state).1 state = _
    rw [heq, canTrimTrailingWhitespace_leading hw', ← canTrimTrailingWhitespace_leading hw, ← hline]

theorem trimmedLine_idem {rawLine : List Char}
    (hlast : (formatDymolaLine (trimmedLine options rawLine state) options indentLevel state).1.getLast? ≠ some '\r') :
    trimmedLine options (formatDymolaLine (trimmedLine options rawLine state) options indentLevel state).1 state =
      (formatDymolaLine (trimmedLine options rawLine state) options indentLevel state).1 := by
  generalize hline : trimmedLine options rawLine state = line at hlast ⊢
  have hstrip := stripReturn_of_getLast? hlast
  simp only [trimmedLine, hstrip]
  split
  · rename_i htrim
    rw [Bool.and_eq_true] at htrim
    simp only [trimmedLine] at hline
    split at hline
    · refine trimEndMatches_formatDymolaLine options indentLevel state ?_
      rw [← hline, trimEndMatches_idem]
    · rename_i hkeep
      rcases canTrim_formatDymolaLine options indentLevel state line with hnil | hcan
      · rw [hnil]
        rfl
      · rw [Bool.and_eq_true] at hkeep
        rw [hcan, ← hline] at htrim
        exact absurd htrim hkeep
  · rfl

theorem formatLines_idem {lines : List (List Char)}
    (h : ∀ line ∈ formatLines options lines indentLevel state, line.getLast? ≠ some '\r') :
    formatLines options (formatLines options lines indentLevel state) indentLevel state =
      formatLines options lines indentLevel state := by
  induction lines generalizing indentLevel state with
  | nil => rfl
  | cons rawLine rest ih =>
    rw [formatLines_cons] at h ⊢
    have hfirst := trimmedLine_idem options indentLevel state (h _ List.mem_cons_self)
    have hrest := ih _ _ fun line hline => h line (List.mem_cons_of_mem _ hline)
    rw [formatLines_cons, hfirst, formatDymolaLine_idem]
    exact congrArg _ hrest

end Rumoca.Fmt
