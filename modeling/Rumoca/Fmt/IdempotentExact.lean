import Rumoca.Fmt.Idempotent
/-!
# When the pass is idempotent

The pass reads its own output line by line as it wrote it, and picks the same
line ending again, when no line keeps a carriage return and the last line is
not lost. Otherwise the second run writes something else, unless it picks
another line ending.
-/

namespace Rumoca.Fmt

open Lib
open Flatten (isWhiteSpace trim)

/-- A line that still ends with a carriage return after the pass has trimmed it. -/
def keepsReturn (options : FormatOptions) (r : Region) (line : List Char) : Bool :=
  let kept :=
    if options.trimTrailingWhitespace && (!r.isToken && !(r.run line).isToken) then trimEndMatches line else line
  kept.getLast? = some '\r' && (r.isToken || !kept.all isWhiteSpace)

def linesKeepReturn (options : FormatOptions) : Region → List (List Char) → Bool
  | _, [] => false
  | r, rawLine :: rest =>
    keepsReturn options r (stripReturn rawLine) || linesKeepReturn options ((r.run rawLine).next '\n') rest

/-- The source does not end with a blank line behind another line, or the pass ends it with a line ending. -/
def KeepsLastLine (options : FormatOptions) (source : List Char) : Prop :=
  options.insertFinalNewline = true ∨ (sourceLines source).length ≤ 1 ∨
    ∀ last ∈ (sourceLines source).getLast?, ∃ c ∈ last, isWhiteSpace c = false

/-- No line keeps a carriage return, and the last line is kept. -/
structure ReadsBack (options : FormatOptions) (source : List Char) : Prop where
  returns : linesKeepReturn options .code (sourceLines source) = false
  lastLine : KeepsLastLine options source

/-! ## The line ending of a written text -/

theorem crlfCount_newline (rest : List Char) : crlfCount ('\n' :: rest) = crlfCount rest := by
  cases rest with
  | nil => rfl
  | cons c rest =>
    rw [crlfCount, List.tail_cons, List.zip_cons_cons, List.countP_cons_of_neg (by simp)]
    rfl

theorem crlfCount_cons {c d : Char} (h : d ≠ '\n') (rest : List Char) :
    crlfCount (c :: d :: rest) = crlfCount (d :: rest) := by
  rw [crlfCount, List.tail_cons, List.zip_cons_cons, List.countP_cons_of_neg (by simpa using fun _ => h)]
  rfl

theorem crlfCount_append {s : List Char} (hs : '\n' ∉ s) (rest : List Char) :
    crlfCount (s ++ '\n' :: rest) = (if s.getLast? = some '\r' then 1 else 0) + crlfCount rest := by
  induction s with
  | nil => rw [List.nil_append, crlfCount_newline]; simp
  | cons c s ih =>
    obtain ⟨hne, hrest⟩ := List.ne_and_not_mem_of_not_mem_cons hs
    cases s with
    | nil =>
      rw [List.singleton_append, crlfCount, List.tail_cons, List.zip_cons_cons, List.countP_cons]
      rw [show List.countP _ (('\n' :: rest).zip rest) = crlfCount rest from crlfCount_newline rest]
      by_cases hc : c = '\r' <;> simp [hc, Nat.add_comm]
    | cons d s =>
      have hd := (List.ne_and_not_mem_of_not_mem_cons hrest).1
      rw [List.cons_append, List.cons_append, crlfCount_cons hd.symm, ← List.cons_append, ih hrest,
        List.getLast?_cons_cons]

theorem crlfCount_of_notMem {s : List Char} (hs : '\n' ∉ s) : crlfCount s = 0 := by
  rw [crlfCount, List.countP_eq_zero]
  rintro ⟨c, d⟩ hmem heq
  rw [decide_eq_true_eq, Prod.mk.injEq] at heq
  exact hs (heq.2 ▸ List.mem_of_mem_tail (List.of_mem_zip hmem).2)

/-- The lines a text of segments counts, and those with a carriage return before the line feed. -/
theorem counts_joinSegments {ss : List (List Char)} {tail : List Char} (hss : ∀ s ∈ ss, '\n' ∉ s) (htail : '\n' ∉ tail) :
    (joinSegments '\n' ss tail).count '\n' = ss.length ∧
      crlfCount (joinSegments '\n' ss tail) = ss.countP fun s => s.getLast? = some '\r' := by
  induction ss with
  | nil => exact ⟨List.count_eq_zero.2 htail, crlfCount_of_notMem htail⟩
  | cons s ss ih =>
    have hs := hss s List.mem_cons_self
    obtain ⟨hcount, hcrlf⟩ := ih fun s hs => hss s (List.mem_cons_of_mem _ hs)
    rw [joinSegments_cons]
    constructor
    · rw [List.count_append, List.count_eq_zero.2 hs, List.count_cons_self, hcount, List.length_cons, Nat.zero_add]
    · rw [crlfCount_append hs, hcrlf, List.countP_cons, Nat.add_comm]
      simp only [decide_eq_true_eq]

theorem targetLineEnding_joinSegments {segs : List (List Char)} {tail : List Char} (hsegs : ∀ s ∈ segs, '\n' ∉ s)
    (hreturns : ∀ s ∈ segs, s.getLast? ≠ some '\r') (htail : '\n' ∉ tail) (hne : segs ≠ []) (source : List Char)
    (setting : LineEnding) :
    targetLineEnding (joinSegments '\n' (segs.map (· ++ endingReturns source setting)) tail) setting =
      targetLineEnding source setting := by
  cases setting with
  | lf => rfl
  | crlf => rfl
  | auto =>
    have hcases := endingReturns_cases source .auto
    rw [targetLineEnding_eq source]
    generalize endingReturns source .auto = returns at hcases
    have hwritten : ∀ s ∈ segs.map (· ++ returns), '\n' ∉ s := by
      intro s hs
      obtain ⟨line, hline, rfl⟩ := List.mem_map.1 hs
      rcases hcases with rfl | rfl
      · simpa using hsegs line hline
      · simpa using hsegs line hline
    obtain ⟨hcount, hcrlf⟩ := counts_joinSegments hwritten htail
    rw [targetLineEnding, hcount, hcrlf, List.length_map]
    have hpos : 0 < segs.length := List.length_pos_iff.2 hne
    rcases hcases with rfl | rfl
    · rw [List.countP_eq_zero.2]
      · rw [if_neg (Nat.not_lt_zero _)]
        rfl
      · intro s hs
        obtain ⟨line, hline, rfl⟩ := List.mem_map.1 hs
        simpa using hreturns line hline
    · rw [List.countP_eq_length.2, List.length_map, if_pos (by omega)]
      · rfl
      · intro s hs
        obtain ⟨line, -, rfl⟩ := List.mem_map.1 hs
        simp

/-! ## The lines of a written text -/

theorem sourceLines_joinSegments {ss : List (List Char)} {tail : List Char} (hss : ∀ s ∈ ss, '\n' ∉ s)
    (htail : '\n' ∉ tail) :
    sourceLines (joinSegments '\n' ss tail) = ss.map stripReturn ++ if tail.isEmpty then [] else [tail] := by
  rw [sourceLines, segments_joinSegments hss htail]

theorem newline_notMem_sourceLines {source line : List Char} (h : line ∈ sourceLines source) : '\n' ∉ line := by
  obtain ⟨-, hss, htail⟩ := segments_spec '\n' source
  rcases List.mem_append.1 h with h | h
  · obtain ⟨s, hs, rfl⟩ := List.mem_map.1 h
    exact newline_notMem_stripReturn (hss s hs)
  · split at h
    · cases h
    · rw [List.mem_singleton.1 h]
      exact htail

theorem newline_notMem_formatDymolaLine {line : List Char} (h : '\n' ∉ line) (options : FormatOptions)
    (indentLevel : Nat) (state : DymolaFormatState) :
    '\n' ∉ (formatDymolaLine line options indentLevel state).1 := by
  unfold formatDymolaLine
  split
  · split
    · exact h
    · exact List.not_mem_nil
  · exact newline_notMem_reindentedLine h options indentLevel state

variable {options : FormatOptions}

theorem newline_notMem_formatLines (options : FormatOptions) {lines : List (List Char)} (h : ∀ line ∈ lines, '\n' ∉ line) (indentLevel : Nat)
    (state : DymolaFormatState) : ∀ line ∈ formatLines options lines indentLevel state, '\n' ∉ line := by
  induction lines generalizing indentLevel state with
  | nil => exact fun line hline => absurd hline List.not_mem_nil
  | cons rawLine rest ih =>
    rw [formatLines_cons]
    rintro line (_ | ⟨_, hline⟩)
    · exact newline_notMem_formatDymolaLine
        (newline_notMem_trimmedLine (h rawLine List.mem_cons_self) options state) options indentLevel state
    · exact ih (fun line hline => h line (List.mem_cons_of_mem _ hline)) _ _ line hline

theorem length_formatLines (options : FormatOptions) (lines : List (List Char)) (indentLevel : Nat) (state : DymolaFormatState) :
    (formatLines options lines indentLevel state).length = lines.length := by
  induction lines generalizing indentLevel state with
  | nil => rfl
  | cons rawLine rest ih => rw [formatLines_cons, List.length_cons, List.length_cons, ih]

theorem stripReturn_append_returns {line returns : List Char} (hreturns : returns = [] ∨ returns = ['\r'])
    (hline : line.getLast? ≠ some '\r') : stripReturn (line ++ returns) = line := by
  rcases hreturns with rfl | rfl
  · rw [List.append_nil, stripReturn_of_getLast? hline]
  · exact stripReturn_concat line

theorem newline_notMem_append_returns {line returns : List Char} (hreturns : returns = [] ∨ returns = ['\r'])
    (hline : '\n' ∉ line) : '\n' ∉ line ++ returns := by
  rcases hreturns with rfl | rfl
  · rwa [List.append_nil]
  · simpa using hline

theorem newline_notMem_map_returns {lines : List (List Char)} {returns : List Char}
    (hreturns : returns = [] ∨ returns = ['\r']) (hlines : ∀ line ∈ lines, '\n' ∉ line) :
    ∀ s ∈ lines.map (· ++ returns), '\n' ∉ s := by
  intro s hs
  obtain ⟨line, hline, rfl⟩ := List.mem_map.1 hs
  exact newline_notMem_append_returns hreturns (hlines line hline)

/-! ## A second pass that reads the lines back -/

/-- Lines that keep no carriage return are read back from the text they are written to, with its line ending. -/
theorem readBack {lines : List (List Char)} (source : List Char) (hlines : ∀ line ∈ lines, '\n' ∉ line)
    (hreturns : ∀ line ∈ lines, line.getLast? ≠ some '\r')
    (hlast : options.insertFinalNewline = true ∨ lines.length ≤ 1 ∨ lines.getLast? ≠ some []) :
    let text := joinLines options lines (targetLineEnding source options.lineEnding)
    text = [] ∨ sourceLines text = lines ∧
      joinLines options lines (targetLineEnding text options.lineEnding) = text := by
  intro text
  have hendings := endingReturns_cases source options.lineEnding
  have hstrip : ∀ {segs : List (List Char)}, (∀ s ∈ segs, s.getLast? ≠ some '\r') →
      (segs.map (· ++ endingReturns source options.lineEnding)).map stripReturn = segs := by
    intro segs hsegs
    rw [List.map_map]
    exact (List.map_congr_left fun s hs => stripReturn_append_returns hendings (hsegs s hs)).trans (List.map_id segs)
  cases hinsert : options.insertFinalNewline with
  | true =>
    have htext : text = joinSegments '\n' (lines.map (· ++ endingReturns source options.lineEnding)) [] := by
      rw [← joinLines_insert hinsert, ← targetLineEnding_eq]
    by_cases hne : lines = []
    · exact .inl (by rw [htext, hne]; rfl)
    · refine .inr ⟨?_, ?_⟩
      · rw [htext, sourceLines_joinSegments (newline_notMem_map_returns hendings hlines) List.not_mem_nil, hstrip hreturns]
        exact List.append_nil lines
      · rw [htext, targetLineEnding_joinSegments hlines hreturns List.not_mem_nil hne, ← htext]
  | false =>
    rcases List.eq_nil_or_concat' lines with rfl | ⟨init, last, rfl⟩
    · exact .inl (joinLines_nil options _)
    · have htext : text = joinSegments '\n' (init.map (· ++ endingReturns source options.lineEnding)) last := by
        rw [← joinLines_drop hinsert, ← targetLineEnding_eq]
      have hinit : ∀ line ∈ init, '\n' ∉ line := fun line hline => hlines line (List.mem_append_left _ hline)
      have hinit' : ∀ line ∈ init, line.getLast? ≠ some '\r' := fun line hline =>
        hreturns line (List.mem_append_left _ hline)
      have hlastLine : '\n' ∉ last := hlines last (List.mem_append_right _ List.mem_cons_self)
      by_cases hempty : last = []
      · -- Only a text of one line may end with an empty one.
        have hnil : init = [] := by
          rcases hlast with h | h | h
          · rw [hinsert] at h
            cases h
          · rw [List.length_append, List.length_singleton] at h
            exact List.length_eq_zero_iff.1 (by omega)
          · exact absurd (by rw [List.getLast?_concat, hempty]) h
        exact .inl (by rw [htext, hnil, hempty]; rfl)
      · refine .inr ⟨?_, ?_⟩
        · rw [htext, sourceLines_joinSegments (newline_notMem_map_returns hendings hinit) hlastLine, hstrip hinit',
            if_neg (by simpa using hempty)]
        · by_cases hne : init = []
          · rw [targetLineEnding_eq text, joinLines_drop hinsert, htext, hne]
            rfl
          · rw [htext, targetLineEnding_joinSegments hinit hinit' hlastLine hne, ← htext]

theorem formatDymolaSource_of_lines (source : List Char)
    (hreturns : ∀ line ∈ formatLines options (sourceLines source) 0 .initial, line.getLast? ≠ some '\r')
    (hlast : options.insertFinalNewline = true ∨ (formatLines options (sourceLines source) 0 .initial).length ≤ 1 ∨
      (formatLines options (sourceLines source) 0 .initial).getLast? ≠ some []) :
    formatDymolaSource (formatDymolaSource source options) options = formatDymolaSource source options := by
  have hlines := newline_notMem_formatLines options
    (fun line (hline : line ∈ sourceLines source) => newline_notMem_sourceLines hline) 0 .initial
  rcases readBack source hlines hreturns hlast with hnil | ⟨hread, hjoin⟩
  · rw [show formatDymolaSource source options = [] from hnil]
    exact joinLines_nil options _
  · rw [formatDymolaSource, show sourceLines (formatDymolaSource source options) = _ from hread,
      formatLines_idem options 0 .initial hreturns]
    exact hjoin

/-! ## A second pass that reads other lines -/

theorem trimStartMatches_length_le {a b : List Char} (h : a <+: b) :
    (trimStartMatches a).length ≤ (trimStartMatches b).length := by
  obtain ⟨tail, rfl⟩ := h
  unfold trimStartMatches
  rw [List.dropWhile_append]
  split
  · rename_i hnil
    rw [List.isEmpty_iff.1 hnil]
    exact Nat.zero_le _
  · rw [List.length_append]
    exact Nat.le_add_right _ _

theorem trimStartMatches_return (line : List Char) :
    (trimStartMatches (line ++ ['\r'])).length = (trimStartMatches line).length + 1 := by
  unfold trimStartMatches
  rw [List.dropWhile_append]
  split
  · rename_i hnil
    rw [List.isEmpty_iff.1 hnil]
    rfl
  · rw [List.length_append]
    rfl

theorem trimmedLine_initial (options : FormatOptions) (rawLine : List Char) (state : DymolaFormatState) :
    trimmedLine options rawLine state <+: stripReturn rawLine := by
  rcases trimmedLine_cases options rawLine state with heq | ⟨-, heq⟩
  · rw [heq]
  · rw [heq]
    exact List.rdropWhile_prefix isBlank _

theorem formatDymolaLine_length_le (options : FormatOptions) (rawLine : List Char) (indentLevel : Nat) (state : DymolaFormatState) :
    (trimStartMatches (formatDymolaLine (trimmedLine options rawLine state) options indentLevel state).1).length ≤
      (trimStartMatches (stripReturn rawLine)).length := by
  have hpre := trimStartMatches_length_le (trimmedLine_initial options rawLine state)
  refine le_trans ?_ hpre
  unfold formatDymolaLine
  split
  · split
    · exact le_rfl
    · exact Nat.zero_le _
  · exact (congrArg List.length (trimStartMatches_reindentedLine options indentLevel state _)).le

theorem formatDymolaLine_ne_of_return {line returns : List Char} (hreturns : returns = [] ∨ returns = ['\r'])
    (hline : line.getLast? = some '\r') {rawLine : List Char} (hraw : rawLine = line ∨ rawLine = stripReturn (line ++ returns))
    (indentLevel : Nat) (state : DymolaFormatState) :
    (formatDymolaLine (trimmedLine options rawLine state) options indentLevel state).1 ≠ line := by
  obtain ⟨body, rfl⟩ := List.getLast?_eq_some_iff.1 hline
  intro heq
  have hpre : stripReturn rawLine <+: body := by
    rcases hraw with rfl | rfl
    · rw [stripReturn_concat]
    · rcases hreturns with rfl | rfl
      · rw [List.append_nil, stripReturn_concat]
        exact stripReturn_initial body
      · rw [stripReturn_concat, stripReturn_concat]
  have h1 := formatDymolaLine_length_le options rawLine indentLevel state
  have h2 := trimStartMatches_length_le hpre
  rw [heq, trimStartMatches_return] at h1
  omega

theorem returns_of_formatLines_eq {returns : List Char} (hreturns : returns = [] ∨ returns = ['\r'])
    {raws lines : List (List Char)}
    (hraws : List.Forall₂ (fun raw line => raw = line ∨ raw = stripReturn (line ++ returns)) raws lines)
    {indentLevel : Nat} {state : DymolaFormatState} (h : formatLines options raws indentLevel state = lines) :
    ∀ line ∈ lines, line.getLast? ≠ some '\r' := by
  induction hraws generalizing indentLevel state with
  | nil => exact fun line hline => absurd hline List.not_mem_nil
  | cons hraw _ ih =>
    rw [formatLines_cons] at h
    obtain ⟨hfirst, hrest⟩ := List.cons.inj h
    rintro line (_ | ⟨_, hline⟩)
    · exact fun hlast => formatDymolaLine_ne_of_return hreturns hlast hraw indentLevel state hfirst
    · exact ih hrest line hline

theorem map_returns_injective (returns : List Char) :
    Function.Injective (List.map fun line : List Char => line ++ returns) :=
  List.map_injective_iff.2 fun _ _ h => List.append_cancel_right h

theorem read_of_written {returns : List Char} (lines : List (List Char)) :
    List.Forall₂ (fun raw line => raw = line ∨ raw = stripReturn (line ++ returns))
      ((lines.map (· ++ returns)).map stripReturn) lines := by
  rw [List.map_map]
  exact List.forall₂_map_left_iff.2 (List.forall₂_same.2 fun line _ => .inr rfl)

/-- Lines that a pass over their text writes again keep no carriage return, and the last one is read back. -/
theorem lines_of_written {lines : List (List Char)} {returns text : List Char}
    (hreturns : returns = [] ∨ returns = ['\r']) (hlines : ∀ line ∈ lines, '\n' ∉ line)
    (htext : text = joinLines options lines (returns ++ ['\n'])) {indentLevel : Nat} {state : DymolaFormatState}
    (hagain : joinLines options (formatLines options (sourceLines text) indentLevel state) (returns ++ ['\n']) = text) :
    (∀ line ∈ lines, line.getLast? ≠ some '\r') ∧
      (options.insertFinalNewline = true ∨ lines.length ≤ 1 ∨ lines.getLast? ≠ some []) := by
  have hlines2 := newline_notMem_formatLines options
    (fun line (hline : line ∈ sourceLines text) => newline_notMem_sourceLines hline) indentLevel state
  have hlength := length_formatLines options (sourceLines text) indentLevel state
  cases hinsert : options.insertFinalNewline with
  | true =>
    rw [joinLines_insert hinsert] at htext hagain
    have hread := sourceLines_joinSegments (newline_notMem_map_returns hreturns hlines) (List.not_mem_nil (a := '\n'))
    rw [← htext, List.isEmpty_nil, if_pos rfl, List.append_nil] at hread
    have hsegments := congrArg (segments '\n') (hagain.trans htext)
    rw [segments_joinSegments (newline_notMem_map_returns hreturns hlines2) List.not_mem_nil,
      segments_joinSegments (newline_notMem_map_returns hreturns hlines) List.not_mem_nil, Prod.mk.injEq] at hsegments
    have heq := map_returns_injective returns hsegments.1
    rw [hread] at heq
    exact ⟨returns_of_formatLines_eq hreturns (read_of_written lines) heq, .inl rfl⟩
  | false =>
    rcases List.eq_nil_or_concat' lines with rfl | ⟨init, last, rfl⟩
    · exact ⟨fun line hline => absurd hline List.not_mem_nil, .inr (.inl (Nat.zero_le 1))⟩
    · have hinit : ∀ line ∈ init, '\n' ∉ line := fun line hline => hlines line (List.mem_append_left _ hline)
      have hlastLine : '\n' ∉ last := hlines last (List.mem_append_right _ List.mem_cons_self)
      rw [joinLines_drop hinsert] at htext
      have hread := sourceLines_joinSegments (newline_notMem_map_returns hreturns hinit) hlastLine
      rw [← htext] at hread
      have hsegments := congrArg (segments '\n') htext
      rw [segments_joinSegments (newline_notMem_map_returns hreturns hinit) hlastLine] at hsegments
      rcases List.eq_nil_or_concat' (formatLines options (sourceLines text) indentLevel state) with
        hnil | ⟨init2, last2, hsecond⟩
      · -- Nothing is written for the text, so it is empty.
        rw [hnil, joinLines_nil] at hagain
        rw [← hagain] at hsegments
        obtain ⟨hinitNil, hlastNil⟩ := Prod.mk.inj hsegments
        rw [List.map_eq_nil_iff.1 hinitNil.symm, ← hlastNil]
        exact ⟨by simp, .inr (.inl le_rfl)⟩
      · rw [hsecond] at hlength hlines2
        rw [hsecond, joinLines_drop hinsert] at hagain
        have hinit2 : ∀ line ∈ init2, '\n' ∉ line := fun line hline => hlines2 line (List.mem_append_left _ hline)
        have hlast2 : '\n' ∉ last2 := hlines2 last2 (List.mem_append_right _ List.mem_cons_self)
        rw [← hagain, segments_joinSegments (newline_notMem_map_returns hreturns hinit2) hlast2, Prod.mk.injEq] at hsegments
        have hinitEq := map_returns_injective returns hsegments.1
        by_cases hempty : last = []
        · -- An empty last line is not read back.
          rw [hread, hempty, hinitEq] at hlength
          simp at hlength
        · rw [if_neg (by simpa using hempty)] at hread
          rw [hread, hinitEq, hsegments.2] at hsecond
          refine ⟨returns_of_formatLines_eq hreturns ?_ hsecond, .inr (.inr ?_)⟩
          · exact List.rel_append (read_of_written init) (List.Forall₂.cons (.inl rfl) .nil)
          · rw [List.getLast?_concat]
            exact fun h => hempty (Option.some.inj h)

/-! ## The lines of a closed text -/

/-- Lines with what is written for them, each read from a region its state agrees with, up to the end outside tokens. -/
inductive PassRun (options : FormatOptions) : Region → List (List Char) → List (List Char) → Prop where
  | nil {r : Region} : r.isToken = false → PassRun options r [] []
  | cons {r : Region} {rawLine : List Char} {rest lines : List (List Char)} {indentLevel : Nat}
      {state : DymolaFormatState} : r.Settled → Agrees r state → '\n' ∉ rawLine →
      PassRun options ((r.run rawLine).next '\n') rest lines →
      PassRun options r (rawLine :: rest)
        ((formatDymolaLine (trimmedLine options rawLine state) options indentLevel state).1 :: lines)

theorem next_newline_stripReturn (r : Region) (s : List Char) : (r.run (stripReturn s)).next '\n' = (r.run s).next '\n' := by
  obtain ⟨count, -, hsplit, -⟩ := stripReturn_replicate s
  conv_rhs => rw [hsplit]
  rw [Region.run_append, next_newline_returns]

theorem passRun_formatLines {ss : List (List Char)} {tail : List Char} {r : Region} {state : DymolaFormatState}
    {indentLevel : Nat} (hss : ∀ s ∈ ss, '\n' ∉ s) (htail : '\n' ∉ tail) (hr : r.Settled) (h : Agrees r state)
    (hclosed : closedFrom r (joinSegments '\n' ss tail) = true) :
    PassRun options r (ss.map stripReturn ++ if tail.isEmpty then [] else [tail])
      (formatLines options (ss.map stripReturn ++ if tail.isEmpty then [] else [tail]) indentLevel state) := by
  induction ss generalizing r state indentLevel with
  | nil =>
    have hend := closedFrom_run hclosed
    rw [show joinSegments '\n' [] tail = tail from rfl] at hend
    cases tail with
    | nil => exact .nil hend
    | cons c tail =>
      refine .cons hr h htail (.nil ?_)
      rw [next_newline_of_not_isToken hend]
      rfl
  | cons s ss ih =>
    rw [joinSegments_cons] at hclosed
    have hs := hss s List.mem_cons_self
    obtain ⟨-, hnext, hrestClosed⟩ := kept_line options hs hr h hclosed indentLevel
    refine .cons hr h (newline_notMem_stripReturn hs) ?_
    rw [next_newline_stripReturn]
    exact ih (fun s hs => hss s (List.mem_cons_of_mem _ hs)) (settled_next_newline _) hnext hrestClosed

theorem passRun_sourceLines (options : FormatOptions) {source : List Char} (h : Closed source) :
    PassRun options .code (sourceLines source) (formatLines options (sourceLines source) 0 .initial) := by
  obtain ⟨hjoin, hss, htail⟩ := segments_spec '\n' source
  exact passRun_formatLines hss htail Region.settled_code agrees_initial (by rw [hjoin]; exact h)

theorem getLast?_reindentedLine {line : List Char} (h : ¬(trim line).isEmpty = true) (indentLevel : Nat)
    (state : DymolaFormatState) : (reindentedLine line options indentLevel state).1.getLast? = line.getLast? := by
  obtain ⟨w, w', -, -, hline, heq⟩ := reindentedLine_leading options indentLevel state line
  have hne := trimStartMatches_ne_nil h
  rw [heq]
  conv_rhs => rw [hline]
  rw [List.getLast?_append_of_ne_nil _ hne, List.getLast?_append_of_ne_nil _ hne]

theorem trimmedLine_eq {r : Region} {state : DymolaFormatState} {rawLine : List Char} (hr : r.Settled)
    (h : Agrees r state) (hline : '\n' ∉ rawLine) :
    trimmedLine options rawLine state =
      if options.trimTrailingWhitespace && (!r.isToken && !(r.run (stripReturn rawLine)).isToken) then
        trimEndMatches (stripReturn rawLine) else stripReturn rawLine := by
  have hagrees := agrees_updateFormatState (newline_notMem_stripReturn hline) hr h
  simp only [trimmedLine, canTrimTrailingWhitespace, h.insideToken, hagrees.insideToken]

theorem keepsReturn_iff {r : Region} {state : DymolaFormatState} {rawLine : List Char} (hr : r.Settled)
    (h : Agrees r state) (hline : '\n' ∉ rawLine) (indentLevel : Nat) :
    keepsReturn options r (stripReturn rawLine) = true ↔
      (formatDymolaLine (trimmedLine options rawLine state) options indentLevel state).1.getLast? = some '\r' := by
  simp only [keepsReturn]
  rw [← trimmedLine_eq hr h hline, ← h.insideToken]
  generalize trimmedLine options rawLine state = line
  have hall : line.all isWhiteSpace = true ↔ (trim line).isEmpty = true := by
    rw [trim_isEmpty_iff, List.all_eq_true]
  by_cases hblank : (trim line).isEmpty = true
  · cases hinside : state.insideToken with
    | true => simp [formatDymolaLine, hblank, hinside]
    | false => simp [formatDymolaLine, hblank, hinside, hall.2 hblank]
  · have hsome : line.all isWhiteSpace = false := Bool.eq_false_of_not_eq_true fun hspace => hblank (hall.1 hspace)
    simp only [formatDymolaLine, if_neg hblank, getLast?_reindentedLine hblank, hsome]
    simp

theorem PassRun.linesKeepReturn_iff {r : Region} {raws lines : List (List Char)} (h : PassRun options r raws lines) :
    linesKeepReturn options r raws = false ↔ ∀ line ∈ lines, line.getLast? ≠ some '\r' := by
  induction h with
  | nil _ => exact iff_of_true rfl fun line hline => absurd hline List.not_mem_nil
  | cons hr hagrees hline _ ih =>
    rw [linesKeepReturn, Bool.or_eq_false_iff, ih, List.forall_mem_cons, ← Bool.not_eq_true,
      keepsReturn_iff hr hagrees hline]

theorem formatDymolaLine_blank {r : Region} {state : DymolaFormatState} {rawLine : List Char} (h : Agrees r state)
    (hend : ((r.run rawLine).next '\n').isToken = false) (indentLevel : Nat) :
    (formatDymolaLine (trimmedLine options rawLine state) options indentLevel state).1 = [] ↔
      ∀ c ∈ rawLine, isWhiteSpace c = true := by
  have hpre : ∀ c ∈ trimmedLine options rawLine state, c ∈ rawLine := fun c hc =>
    (stripReturn_initial rawLine).subset ((trimmedLine_initial options rawLine state).subset hc)
  constructor
  · intro hnil c hc
    by_contra hspace
    -- A character that is no white space is still in the trimmed line, and behind its leading blanks.
    have hmem : c ∈ trimmedLine options rawLine state := by
      have hstrip : c ∈ stripReturn rawLine := by
        rcases stripReturn_cases rawLine with heq | ⟨heq, -⟩
        · rw [heq] at hc
          rcases List.mem_append.1 hc with hc | hc
          · exact hc
          · rw [List.mem_singleton.1 hc] at hspace
            exact absurd (by decide) hspace
        · rwa [heq]
      rcases trimmedLine_cases options rawLine state with heq | ⟨-, heq⟩
      · rwa [heq]
      · rw [heq]
        obtain ⟨b, hb, hsplit⟩ := trimEndMatches_split (stripReturn rawLine)
        rw [← hsplit] at hstrip
        rcases List.mem_append.1 hstrip with hc | hc
        · exact hc
        · exact absurd (isWhiteSpace_of_isGap (isGap_of_isBlank (hb c hc))) hspace
    have hblank : ¬(trim (trimmedLine options rawLine state)).isEmpty = true :=
      fun h => hspace ((trim_isEmpty_iff _).1 h c hmem)
    simp only [formatDymolaLine, if_neg hblank] at hnil
    obtain ⟨w, w', -, -, -, heq⟩ := reindentedLine_leading options indentLevel state (trimmedLine options rawLine state)
    rw [heq] at hnil
    exact trimStartMatches_ne_nil hblank (List.append_eq_nil_iff.1 hnil).2
  · intro hspace
    have hoff : r.isToken = false := by
      refine Bool.eq_false_of_not_eq_true fun htoken => ?_
      rw [isToken_next_whiteSpace (isToken_run_whiteSpace htoken hspace) (by decide)] at hend
      cases hend
    have hblank : (trim (trimmedLine options rawLine state)).isEmpty = true :=
      (trim_isEmpty_iff _).2 fun c hc => hspace c (hpre c hc)
    simp [formatDymolaLine, hblank, h.insideToken, hoff]

theorem PassRun.getLast?_iff {r : Region} {raws lines : List (List Char)} (h : PassRun options r raws lines) :
    lines.getLast? ≠ some [] ↔ ∀ last ∈ raws.getLast?, ∃ c ∈ last, isWhiteSpace c = false := by
  induction h with
  | nil _ => exact iff_of_true nofun nofun
  | @cons r rawLine rest lines indentLevel state _ hagrees _ hrest ih =>
    cases hrest with
    | nil hend =>
      rw [List.getLast?_singleton, List.getLast?_singleton, ne_eq, Option.some.injEq,
        formatDymolaLine_blank hagrees hend indentLevel]
      simp
    | cons _ _ _ _ =>
      rw [List.getLast?_cons_cons, List.getLast?_cons_cons]
      exact ih

/-- A second pass changes nothing when the lines are read back; with the same line ending, only then. -/
theorem formatDymolaSource_idem_iff (source : List Char) (options : FormatOptions) (h : Closed source) :
    (ReadsBack options source →
        formatDymolaSource (formatDymolaSource source options) options = formatDymolaSource source options) ∧
      (targetLineEnding (formatDymolaSource source options) options.lineEnding =
          targetLineEnding source options.lineEnding →
        (formatDymolaSource (formatDymolaSource source options) options = formatDymolaSource source options ↔
          ReadsBack options source)) := by
  have hrun := passRun_sourceLines options h
  have hreads : ReadsBack options source ↔
      (∀ line ∈ formatLines options (sourceLines source) 0 .initial, line.getLast? ≠ some '\r') ∧
        (options.insertFinalNewline = true ∨ (formatLines options (sourceLines source) 0 .initial).length ≤ 1 ∨
          (formatLines options (sourceLines source) 0 .initial).getLast? ≠ some []) := by
    rw [← hrun.linesKeepReturn_iff, hrun.getLast?_iff, length_formatLines]
    exact ⟨fun h => ⟨h.returns, h.lastLine⟩, fun h => ⟨h.1, h.2⟩⟩
  have hsufficient : ReadsBack options source →
      formatDymolaSource (formatDymolaSource source options) options = formatDymolaSource source options := by
    intro hread
    obtain ⟨hreturns, hlast⟩ := hreads.1 hread
    exact formatDymolaSource_of_lines source hreturns hlast
  refine ⟨hsufficient, fun hsame => ⟨fun hidem => hreads.2 ?_, hsufficient⟩⟩
  have hlines := newline_notMem_formatLines options
    (fun line (hline : line ∈ sourceLines source) => newline_notMem_sourceLines hline) 0 .initial
  have htext : formatDymolaSource source options = joinLines options
      (formatLines options (sourceLines source) 0 .initial) (endingReturns source options.lineEnding ++ ['\n']) := by
    rw [← targetLineEnding_eq]
    rfl
  have hagain : joinLines options
      (formatLines options (sourceLines (formatDymolaSource source options)) 0 .initial)
      (endingReturns source options.lineEnding ++ ['\n']) = formatDymolaSource source options := by
    rw [← targetLineEnding_eq, ← hsame]
    exact hidem
  exact lines_of_written (endingReturns_cases source options.lineEnding) hlines htext hagain

def FormatOptions.dymolaWithoutFinalNewline : FormatOptions := { FormatOptions.dymola with insertFinalNewline := false }

/-- A blank last line goes with each run. -/
theorem formatDymolaSource_idem_iff_blank :
    (ReadsBack .dymolaWithoutFinalNewline "model M\nend M;\n\n".toList →
        formatDymolaSource (formatDymolaSource "model M\nend M;\n\n".toList .dymolaWithoutFinalNewline)
            .dymolaWithoutFinalNewline =
          formatDymolaSource "model M\nend M;\n\n".toList .dymolaWithoutFinalNewline) ∧
      (formatDymolaSource (formatDymolaSource "model M\nend M;\n\n".toList .dymolaWithoutFinalNewline)
            .dymolaWithoutFinalNewline =
          formatDymolaSource "model M\nend M;\n\n".toList .dymolaWithoutFinalNewline ↔
        ReadsBack .dymolaWithoutFinalNewline "model M\nend M;\n\n".toList) := by
  obtain ⟨hsufficient, hiff⟩ :=
    formatDymolaSource_idem_iff "model M\nend M;\n\n".toList .dymolaWithoutFinalNewline (by decide)
  exact ⟨hsufficient, hiff (by decide +kernel)⟩

theorem formatDymolaSource_not_idem :
    ¬∀ (source : List Char) (options : FormatOptions), Closed source →
      formatDymolaSource (formatDymolaSource source options) options = formatDymolaSource source options := by
  intro h
  have hblank := h "model M\nend M;\n\n".toList .dymolaWithoutFinalNewline (by decide)
  revert hblank
  decide +kernel

end Rumoca.Fmt
