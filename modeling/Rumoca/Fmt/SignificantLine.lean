import Rumoca.Fmt.Significant
/-!
# Significant characters of a line

A formatted line has the significant characters of the line it replaces, and
leaves the machine in the same kind of region: what the pass takes away or puts
in is blank, and stands outside strings, quoted identifiers and comments, or at
the end of a line comment.
-/

namespace Rumoca.Fmt

open Flatten (isWhiteSpace trim)

/-! ## Blanks -/

theorem isWhiteSpace_of_isGap {c : Char} (h : isGap c = true) : isWhiteSpace c = true := by
  simp only [isGap, isBlank, Bool.or_eq_true, decide_eq_true_eq] at h
  rcases h with (rfl | rfl) | rfl <;> decide

theorem isGap_of_isBlank {c : Char} (h : isBlank c = true) : isGap c = true := by rw [isGap, h, Bool.true_or]

theorem restBlank_cons (c : Char) (text : List Char) :
    restBlank (c :: text) = if c = '\n' then true else isGap c && restBlank text := by
  unfold restBlank
  by_cases hc : c = '\n'
  · rw [if_pos hc, List.takeWhile_cons_of_neg (by simpa using hc)]
    rfl
  · rw [if_neg hc, List.takeWhile_cons_of_pos (by simpa using hc)]
    rfl

theorem restBlank_append {b : List Char} (hb : restBlank b = true) (a : List Char) :
    restBlank (a ++ b) = restBlank a := by
  induction a with
  | nil => exact hb
  | cons c a ih => rw [List.cons_append, restBlank_cons, restBlank_cons, ih]

theorem restBlank_of_gaps {b : List Char} (hb : ∀ c ∈ b, isGap c = true) : restBlank b = true := by
  induction b with
  | nil => rfl
  | cons c b ih =>
    rw [restBlank_cons, hb c List.mem_cons_self, ih fun c hc => hb c (List.mem_cons_of_mem _ hc)]
    exact ite_self _

theorem skips_append {b : List Char} (hb : restBlank b = true) (r : Region) (c : Char) (a : List Char) :
    r.skips c (a ++ b) = r.skips c a := by
  cases r with
  | lineComment => exact restBlank_append hb (c :: a)
  | _ => rfl

theorem significantFrom_append {b : List Char} (hb : restBlank b = true) (r : Region) (a : List Char) :
    significantFrom r (a ++ b) = significantFrom r a ++ significantFrom (r.run a) b := by
  induction a generalizing r with
  | nil => rfl
  | cons c a ih =>
    rw [List.cons_append, significantFrom, significantFrom, skips_append hb, ih]
    split
    · rfl
    · rfl

theorem significantFrom_newline (r : Region) (a rest : List Char) :
    significantFrom r (a ++ '\n' :: rest) = significantFrom r a ++ significantFrom (r.run a) ('\n' :: rest) :=
  significantFrom_append (by rw [restBlank_cons, if_pos rfl]) r a

/-! ## Regions -/

theorem afterCode_whiteSpace {c : Char} (h : isWhiteSpace c = true) : Region.afterCode c = .code := by
  unfold Region.afterCode
  rw [if_neg (by rintro rfl; revert h; decide), if_neg (by rintro rfl; revert h; decide),
    if_neg (by rintro rfl; revert h; decide)]

theorem next_gap_of_not_isToken {r : Region} (hr : r.isToken = false) {c : Char} (hc : isGap c = true) :
    (r.next c).isToken = false := by
  have hspace := isWhiteSpace_of_isGap hc
  cases r with
  | code => rw [Region.next, afterCode_whiteSpace hspace]; rfl
  | slash =>
    rw [Region.next, if_neg (by rintro rfl; revert hc; decide), if_neg (by rintro rfl; revert hc; decide),
      afterCode_whiteSpace hspace]
    rfl
  | lineComment => rw [Region.next]; split <;> rfl
  | blockComment => cases hr
  | blockStar => cases hr
  | string => cases hr
  | stringEscape => cases hr
  | quoted => cases hr
  | quotedEscape => cases hr

theorem isToken_next_whiteSpace {r : Region} (hr : r.isToken = true) {c : Char} (hc : isWhiteSpace c = true) :
    (r.next c).isToken = true := by
  cases r with
  | code => cases hr
  | slash => cases hr
  | lineComment => cases hr
  | blockComment => rw [Region.next]; split <;> rfl
  | blockStar =>
    rw [Region.next, if_neg (by rintro rfl; revert hc; decide)]
    split <;> rfl
  | string =>
    rw [Region.next, if_neg (by rintro rfl; revert hc; decide), if_neg (by rintro rfl; revert hc; decide)]
    rfl
  | stringEscape => rfl
  | quoted =>
    rw [Region.next, if_neg (by rintro rfl; revert hc; decide), if_neg (by rintro rfl; revert hc; decide)]
    rfl
  | quotedEscape => rfl

theorem isToken_run_whiteSpace {r : Region} (hr : r.isToken = true) {b : List Char}
    (hb : ∀ c ∈ b, isWhiteSpace c = true) : (r.run b).isToken = true := by
  induction b generalizing r with
  | nil => exact hr
  | cons c b ih =>
    exact ih (isToken_next_whiteSpace hr (hb c List.mem_cons_self)) fun c hc => hb c (List.mem_cons_of_mem _ hc)

theorem significantFrom_gaps {r : Region} (hr : r.isToken = false) {b : List Char} (hb : ∀ c ∈ b, isGap c = true) :
    significantFrom r b = [] ∧ (r.run b).isToken = false := by
  induction b generalizing r with
  | nil => exact ⟨rfl, hr⟩
  | cons c b ih =>
    have hc := hb c List.mem_cons_self
    have hskips : r.skips c b = true := by
      cases r with
      | code => exact isWhiteSpace_of_isGap hc
      | slash => exact isWhiteSpace_of_isGap hc
      | lineComment => exact restBlank_of_gaps hb
      | blockComment => cases hr
      | blockStar => cases hr
      | string => cases hr
      | stringEscape => cases hr
      | quoted => cases hr
      | quotedEscape => cases hr
    rw [significantFrom, if_pos hskips]
    exact ih (next_gap_of_not_isToken hr hc) fun c hc => hb c (List.mem_cons_of_mem _ hc)

theorem run_code_whiteSpace {w : List Char} (hw : ∀ c ∈ w, isWhiteSpace c = true) (x : List Char) :
    Region.code.run (w ++ x) = Region.code.run x ∧ significantFrom .code (w ++ x) = significantFrom .code x := by
  induction w with
  | nil => exact ⟨rfl, rfl⟩
  | cons c w ih =>
    have hc := hw c List.mem_cons_self
    rw [List.cons_append, Region.run_cons, significantFrom, if_pos (show Region.code.skips c _ = true from hc),
      Region.next, afterCode_whiteSpace hc]
    exact ih fun c hc => hw c (List.mem_cons_of_mem _ hc)

/-! ## Formatted lines -/

/-- A line in place of another: its significant characters stay, and inside a token every character of its end. -/
structure LineKept (r : Region) (line formatted : List Char) : Prop where
  inside : (r.run line).isToken = true →
    r.run formatted = r.run line ∧ ∀ x, significantFrom r (formatted ++ x) = significantFrom r (line ++ x)
  outside : (r.run line).isToken = false →
    (r.run formatted).isToken = false ∧ significantFrom r formatted = significantFrom r line

theorem LineKept.refl (r : Region) (line : List Char) : LineKept r line line :=
  ⟨fun _ => ⟨rfl, fun _ => rfl⟩, fun h => ⟨h, rfl⟩⟩

theorem LineKept.trans {r : Region} {a b c : List Char} (hab : LineKept r a b) (hbc : LineKept r b c) :
    LineKept r a c := by
  refine ⟨fun h => ?_, fun h => ?_⟩
  · obtain ⟨hrun, hsig⟩ := hab.inside h
    obtain ⟨hrun', hsig'⟩ := hbc.inside (hrun ▸ h)
    exact ⟨hrun'.trans hrun, fun x => (hsig' x).trans (hsig x)⟩
  · obtain ⟨hrun, hsig⟩ := hab.outside h
    obtain ⟨hrun', hsig'⟩ := hbc.outside hrun
    exact ⟨hrun', hsig'.trans hsig⟩

theorem lineKept_of_eq {r : Region} {line formatted : List Char} (hrun : r.run formatted = r.run line)
    (hsig : ∀ x, significantFrom r (formatted ++ x) = significantFrom r (line ++ x)) : LineKept r line formatted :=
  ⟨fun _ => ⟨hrun, hsig⟩, fun h => ⟨hrun ▸ h, by simpa using hsig []⟩⟩

theorem lineKept_leading {w w' : List Char} (hw : ∀ c ∈ w, isBlank c = true) (hw' : ∀ c ∈ w', isBlank c = true)
    (core : List Char) : LineKept .code (w ++ core) (w' ++ core) := by
  have space : ∀ {v : List Char}, (∀ c ∈ v, isBlank c = true) → ∀ c ∈ v, isWhiteSpace c = true :=
    fun hv c hc => isWhiteSpace_of_isGap (isGap_of_isBlank (hv c hc))
  refine lineKept_of_eq ?_ fun x => ?_
  · rw [(run_code_whiteSpace (space hw') core).1, (run_code_whiteSpace (space hw) core).1]
  · rw [List.append_assoc, List.append_assoc, (run_code_whiteSpace (space hw') _).2,
      (run_code_whiteSpace (space hw) _).2]

theorem lineKept_trailing {r : Region} {core b : List Char} (hb : ∀ c ∈ b, isGap c = true)
    (h : (r.run (core ++ b)).isToken = false) : LineKept r (core ++ b) core := by
  have hcore : (r.run core).isToken = false := by
    rw [Region.run_append] at h
    refine Bool.eq_false_of_not_eq_true fun htoken => ?_
    rw [isToken_run_whiteSpace htoken fun c hc => isWhiteSpace_of_isGap (hb c hc)] at h
    cases h
  refine ⟨fun h' => absurd h' (by rw [h]; decide), fun _ => ⟨hcore, ?_⟩⟩
  rw [significantFrom_append (restBlank_of_gaps hb), (significantFrom_gaps hcore hb).1, List.append_nil]

theorem trimStartMatches_split (line : List Char) :
    ∃ w, (∀ c ∈ w, isBlank c = true) ∧ w ++ trimStartMatches line = line :=
  ⟨line.takeWhile isBlank, fun _ hc => List.mem_takeWhile_imp hc, List.takeWhile_append_dropWhile⟩

theorem trimEndMatches_split (line : List Char) :
    ∃ b, (∀ c ∈ b, isBlank c = true) ∧ trimEndMatches line ++ b = line :=
  ⟨line.rtakeWhile isBlank, fun _ hc => List.mem_rtakeWhile_imp hc, List.rdropWhile_append_rtakeWhile⟩

theorem indentUnit_blank (options : FormatOptions) : ∀ c ∈ indentUnit options, isBlank c = true := by
  intro c hc
  unfold indentUnit at hc
  split at hc
  · rw [List.mem_singleton.1 hc]
    rfl
  · rw [List.eq_of_mem_replicate hc]
    rfl

theorem indentedLine_split (trimmed : List Char) (options : FormatOptions) (visualIndent : Nat) :
    ∃ w, (∀ c ∈ w, isBlank c = true) ∧ indentedLine trimmed options visualIndent = w ++ trimmed := by
  refine ⟨_, fun c hc => ?_, rfl⟩
  obtain ⟨unit, hunit, hc⟩ := List.mem_flatten.1 hc
  rw [List.eq_of_mem_replicate hunit] at hc
  exact indentUnit_blank options c hc

theorem shouldPreserve_of_insideToken {state : DymolaFormatState} (h : state.insideToken = true) (trimmed : List Char) :
    shouldPreserveLeadingWhitespace trimmed state = true := by
  unfold DymolaFormatState.insideToken at h
  simp only [shouldPreserveLeadingWhitespace, h, Bool.true_or]

theorem reindentedLine_cases (line : List Char) (options : FormatOptions) (indentLevel : Nat)
    (state : DymolaFormatState) :
    (reindentedLine line options indentLevel state).1 = line ∨
      state.insideToken = false ∧ ∃ w, (∀ c ∈ w, isBlank c = true) ∧
        (reindentedLine line options indentLevel state).1 = w ++ trimStartMatches line := by
  have outside : ¬shouldPreserveLeadingWhitespace (trimStartMatches line) state = true → state.insideToken = false :=
    fun h => Bool.eq_false_of_not_eq_true fun htoken => h (shouldPreserve_of_insideToken htoken _)
  unfold reindentedLine
  split
  · simp only [normalizedIndentedLine]
    split
    · exact .inl rfl
    · split
      · exact .inl rfl
      · exact .inr ⟨outside ‹_›, indentedLine_split _ _ _⟩
  · split
    · simp only [repairMissingIndentedLine]
      split
      · exact .inl rfl
      · split
        · exact .inl rfl
        · exact .inr ⟨outside ‹_›, indentedLine_split _ _ _⟩
    · exact .inl rfl

theorem trimmedLine_cases (options : FormatOptions) (rawLine : List Char) (state : DymolaFormatState) :
    trimmedLine options rawLine state = stripReturn rawLine ∨
      canTrimTrailingWhitespace (stripReturn rawLine) state = true ∧
        trimmedLine options rawLine state = trimEndMatches (stripReturn rawLine) := by
  simp only [trimmedLine]
  split
  · rename_i h
    exact .inr ⟨(Bool.and_eq_true _ _ ▸ h).2, rfl⟩
  · exact .inl rfl

theorem isWhiteSpace_of_trim {line : List Char} (h : (trim line).isEmpty = true) :
    ∀ c ∈ line, isWhiteSpace c = true := by
  have hall : ∀ c ∈ line.dropWhile isWhiteSpace, isWhiteSpace c = true := by
    simpa [trim] using h
  intro c hc
  rw [← List.takeWhile_append_dropWhile (p := isWhiteSpace) (l := line)] at hc
  rcases List.mem_append.1 hc with hc | hc
  · exact List.mem_takeWhile_imp hc
  · exact hall c hc

/-! ## One line of the pass -/

variable {r : Region} {state : DymolaFormatState}

theorem Agrees.code_of_outside (h : Agrees r state) (hr : r.Settled) (houtside : state.insideToken = false) :
    r = .code :=
  hr.eq_code (h.insideToken.symm.trans houtside)

theorem newline_notMem_blanks {w : List Char} (hw : ∀ c ∈ w, isBlank c = true) : '\n' ∉ w :=
  fun hmem => absurd (hw _ hmem) (by decide)

theorem newline_notMem_stripReturn {line : List Char} (h : '\n' ∉ line) : '\n' ∉ stripReturn line :=
  fun hmem => h ((stripReturn_initial line).subset hmem)

theorem newline_notMem_trimmedLine {rawLine : List Char} (h : '\n' ∉ rawLine) (options : FormatOptions)
    (state : DymolaFormatState) : '\n' ∉ trimmedLine options rawLine state := by
  have hstrip := newline_notMem_stripReturn h
  rcases trimmedLine_cases options rawLine state with heq | ⟨-, heq⟩
  · rwa [heq]
  · rw [heq]
    exact fun hmem => hstrip ((List.rdropWhile_prefix isBlank _).subset hmem)

theorem newline_notMem_reindentedLine {line : List Char} (h : '\n' ∉ line) (options : FormatOptions)
    (indentLevel : Nat) (state : DymolaFormatState) :
    '\n' ∉ (reindentedLine line options indentLevel state).1 := by
  rcases reindentedLine_cases line options indentLevel state with heq | ⟨-, w, hw, heq⟩
  · rwa [heq]
  · rw [heq]
    exact fun hmem => (List.mem_append.1 hmem).elim (newline_notMem_blanks hw)
      fun hmem => h ((List.dropWhile_sublist _).subset hmem)

theorem trimmedLine_kept {rawLine : List Char} (hline : '\n' ∉ rawLine) (hr : r.Settled) (h : Agrees r state)
    (options : FormatOptions) : LineKept r (stripReturn rawLine) (trimmedLine options rawLine state) := by
  rcases trimmedLine_cases options rawLine state with heq | ⟨htrim, heq⟩
  · rw [heq]
    exact .refl r _
  · rw [heq]
    have hagrees := agrees_updateFormatState (newline_notMem_stripReturn hline) hr h
    have hend : (r.run (stripReturn rawLine)).isToken = false := by
      rw [canTrimTrailingWhitespace, Bool.and_eq_true, hagrees.insideToken] at htrim
      simpa using htrim.2
    obtain ⟨b, hb, hsplit⟩ := trimEndMatches_split (stripReturn rawLine)
    have hkept : LineKept r (trimEndMatches (stripReturn rawLine) ++ b) (trimEndMatches (stripReturn rawLine)) :=
      lineKept_trailing (fun c hc => isGap_of_isBlank (hb c hc)) (by rwa [hsplit])
    rwa [hsplit] at hkept

theorem reindentedLine_kept (hr : r.Settled) (h : Agrees r state) (line : List Char) (options : FormatOptions)
    (indentLevel : Nat) : LineKept r line (reindentedLine line options indentLevel state).1 := by
  rcases reindentedLine_cases line options indentLevel state with heq | ⟨houtside, w, hw, heq⟩
  · rw [heq]
    exact .refl r line
  · obtain rfl := h.code_of_outside hr houtside
    obtain ⟨w', hw', hsplit⟩ := trimStartMatches_split line
    rw [heq]
    conv => enter [2]; rw [← hsplit]
    exact lineKept_leading hw' hw _

theorem formatDymolaLine_kept {line : List Char} (hline : '\n' ∉ line) (hr : r.Settled) (h : Agrees r state)
    (options : FormatOptions) (indentLevel : Nat) :
    LineKept r line (formatDymolaLine line options indentLevel state).1 ∧
      Agrees (r.run (formatDymolaLine line options indentLevel state).1)
        (formatDymolaLine line options indentLevel state).2.2 := by
  unfold formatDymolaLine
  split
  · rename_i hblank
    split
    · exact ⟨.refl r line, agrees_updateFormatState hline hr h⟩
    · rename_i hinside
      obtain rfl := h.code_of_outside hr (Bool.eq_false_of_not_eq_true hinside)
      have hspace := run_code_whiteSpace (isWhiteSpace_of_trim hblank)
      refine ⟨lineKept_of_eq ?_ fun x => (hspace x).2.symm, h.string, h.quoted, h.block, nofun⟩
      simpa using (hspace []).1.symm
  · exact ⟨reindentedLine_kept hr h line options indentLevel,
      agrees_updateFormatState (newline_notMem_reindentedLine hline options indentLevel state) hr h⟩

end Rumoca.Fmt
