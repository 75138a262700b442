import Rumoca.Fmt.SignificantLine
/-!
# What the line pass preserves

The pass writes the target line ending at every line's end, inside strings,
quoted identifiers and block comments as well. The significant characters
survive exactly when each of those regions already breaks its lines that way.
-/

namespace Rumoca.Fmt

open Lib
open Flatten (isWhiteSpace)

/-- A line break inside a token has the given carriage returns before its line feed. -/
def BreaksMatch (r : Region) (returns text : List Char) : Prop :=
  ∀ before after, text = before ++ '\n' :: after → (r.run before).isToken = true →
    before.rtakeWhile (· = '\r') = returns

/-! ## Carriage returns -/

theorem stripReturn_replicate (s : List Char) : ∃ count ≤ 1, s = stripReturn s ++ List.replicate count '\r' ∧
    (count = 0 → s.getLast? ≠ some '\r') := by
  rcases stripReturn_cases s with h | ⟨h, hlast⟩
  · exact ⟨1, le_rfl, h, nofun⟩
  · exact ⟨0, Nat.zero_le _, by rw [h]; simp, fun _ => hlast⟩

theorem rtakeWhile_replicate (line : List Char) (count : Nat) :
    (line ++ List.replicate count '\r').rtakeWhile (· = '\r') =
      line.rtakeWhile (· = '\r') ++ List.replicate count '\r' := by
  induction count with
  | zero => simp
  | succ count ih =>
    rw [List.replicate_succ', ← List.append_assoc, List.rtakeWhile_concat_pos _ _ _ (by simp), ih, List.append_assoc]

theorem rtakeWhile_of_getLast? {line : List Char} (h : line.getLast? ≠ some '\r') :
    line.rtakeWhile (· = '\r') = [] := by
  rcases List.eq_nil_or_concat' line with rfl | ⟨init, last, rfl⟩
  · rfl
  · refine List.rtakeWhile_concat_neg _ _ _ fun hlast => h ?_
    simpa using hlast

/-- The two carriage returns taken off a line tell whether its break is the target's. -/
theorem strip_two (s : List Char) : ∃ count, s = stripReturn (stripReturn s) ++ List.replicate count '\r' ∧
    ∀ returns, returns = [] ∨ returns = ['\r'] →
      (s.rtakeWhile (· = '\r') = returns ↔ List.replicate count '\r' = returns) := by
  obtain ⟨n, hn, hs, hzero⟩ := stripReturn_replicate s
  obtain ⟨m, hm, hs', hzero'⟩ := stripReturn_replicate (stripReturn s)
  have hsplit : s = stripReturn (stripReturn s) ++ List.replicate (m + n) '\r' := by
    rw [List.replicate_add, ← List.append_assoc, ← hs', ← hs]
  refine ⟨m + n, hsplit, fun returns hreturns => ?_⟩
  have htake : s.rtakeWhile (· = '\r') =
      (stripReturn (stripReturn s)).rtakeWhile (· = '\r') ++ List.replicate (m + n) '\r' := by
    conv_lhs => rw [hsplit]
    exact rtakeWhile_replicate _ _
  by_cases hlast : (stripReturn (stripReturn s)).getLast? = some '\r'
  · -- Two were taken and one more stands before them.
    obtain ⟨init, hinit⟩ := List.getLast?_eq_some_iff.1 hlast
    have hm1 : m = 1 := by
      refine Nat.le_antisymm hm (Nat.pos_of_ne_zero fun hm0 => hzero' hm0 ?_)
      rw [hs', hm0, List.replicate_zero, List.append_nil]
      exact hlast
    have hlen : 2 ≤ (s.rtakeWhile (· = '\r')).length := by
      rw [htake, hinit, List.rtakeWhile_concat_pos _ _ _ (by simp)]
      simp only [List.length_append, List.length_singleton, List.length_replicate]
      omega
    have hn1 : n = 1 := by
      refine Nat.le_antisymm hn (Nat.pos_of_ne_zero fun hn0 => hzero hn0 ?_)
      rw [hs, hn0, List.replicate_zero, List.append_nil, hs', hm1]
      simp
    rcases hreturns with rfl | rfl
    · exact ⟨fun h => absurd hlen (by rw [h]; decide), fun h => absurd (congrArg List.length h) (by simp [hm1])⟩
    · exact ⟨fun h => absurd hlen (by rw [h]; decide), fun h => absurd (congrArg List.length h) (by simp [hm1, hn1])⟩
  · rw [htake, rtakeWhile_of_getLast? hlast, List.nil_append]

/-! ## Line ends -/

theorem isGap_replicate_return (count : Nat) : ∀ c ∈ List.replicate count '\r', isGap c = true := by
  intro c hc
  rw [List.eq_of_mem_replicate hc]
  rfl

theorem restBlank_returns (count : Nat) : restBlank (List.replicate count '\r') = true :=
  restBlank_of_gaps (isGap_replicate_return count)

theorem next_newline_returns (r : Region) (count : Nat) :
    (r.run (List.replicate count '\r')).next '\n' = r.next '\n' := by
  induction count generalizing r with
  | zero => rfl
  | succ count ih =>
    rw [List.replicate_succ, Region.run_cons, ih]
    cases r <;> rfl

theorem next_newline_of_not_isToken {r : Region} (h : r.isToken = false) : r.next '\n' = .code := by
  cases r <;> first | rfl | cases h

theorem settled_next_newline (r : Region) : (r.next '\n').Settled := by
  cases r <;> decide

theorem Agrees.next_newline {r : Region} {state : DymolaFormatState} (h : Agrees r state)
    (hescape : r.isEscape = false) : Agrees (r.next '\n') state := by
  obtain ⟨hs, hq, hb, he⟩ := h
  cases r with
  | stringEscape => cases hescape
  | quotedEscape => cases hescape
  | string => exact ⟨hs, hq, hb, fun _ => he rfl⟩
  | quoted => exact ⟨hs, hq, hb, fun _ => he rfl⟩
  | _ => exact ⟨hs, hq, hb, nofun⟩

theorem isEscape_of_closedFrom {r : Region} {a b : List Char} {c : Char}
    (h : closedFrom r (a ++ c :: b) = true) (hc : c = '\n' ∨ c = '\r') : (r.run a).isEscape = false := by
  have hrest := closedFrom_append h
  rw [closedFrom, Bool.and_eq_true] at hrest
  refine Bool.eq_false_of_not_eq_true fun hescape => ?_
  rw [hescape] at hrest
  rcases hc with rfl | rfl <;> exact absurd hrest.1 (by decide)

theorem significantFrom_newline_outside {r : Region} (h : r.isToken = false) (rest : List Char) :
    significantFrom r ('\n' :: rest) = significantFrom .code rest := by
  have hskips : r.skips '\n' rest = true := by
    cases r <;> first | rfl | cases h
  rw [significantFrom, if_pos hskips, next_newline_of_not_isToken h]

theorem significantFrom_token {r : Region} (h : r.isToken = true) (c : Char) (rest : List Char) :
    significantFrom r (c :: rest) = (r, c) :: significantFrom (r.next c) rest := by
  have hskips : r.skips c rest = false := by
    cases r <;> first | rfl | cases h
  rw [significantFrom, hskips]
  exact if_neg Bool.false_ne_true

theorem significantFrom_break {r : Region} (h : r.isToken = true) (count : Nat) :
    ∃ taken, taken.map Prod.snd = List.replicate count '\r' ++ ['\n'] ∧
      ∀ rest, significantFrom r (List.replicate count '\r' ++ '\n' :: rest) =
        taken ++ significantFrom (r.next '\n') rest := by
  induction count generalizing r with
  | zero => exact ⟨[(r, '\n')], rfl, fun rest => significantFrom_token h '\n' rest⟩
  | succ count ih =>
    obtain ⟨taken, hmap, hall⟩ := ih (isToken_next_whiteSpace h (show isWhiteSpace '\r' = true by decide))
    rw [show (r.next '\r').next '\n' = r.next '\n' from next_newline_returns r 1] at hall
    refine ⟨(r, '\r') :: taken, ?_, fun rest => ?_⟩
    · rw [List.map_cons, hmap]
      rfl
    · rw [List.replicate_succ, List.cons_append, significantFrom_token h, hall]
      rfl

theorem rtakeWhile_newline (s before : List Char) :
    (s ++ '\n' :: before).rtakeWhile (· = '\r') = before.rtakeWhile (· = '\r') := by
  have hstop : ('\n' :: s.reverse).takeWhile (· = '\r') = [] := rfl
  rw [List.rtakeWhile, List.rtakeWhile, List.reverse_append, List.reverse_cons, List.append_assoc,
    List.singleton_append, List.takeWhile_append, hstop, List.append_nil]
  split
  · rename_i hfull
    rw [(List.takeWhile_prefix _).eq_of_length hfull]
  · rfl

theorem breaksMatch_append {s : List Char} (hs : '\n' ∉ s) (r : Region) (returns rest : List Char) :
    BreaksMatch r returns (s ++ '\n' :: rest) ↔
      ((r.run s).isToken = true → s.rtakeWhile (· = '\r') = returns) ∧
        BreaksMatch ((r.run s).next '\n') returns rest := by
  constructor
  · intro h
    refine ⟨h s rest rfl, fun before after heq htoken => ?_⟩
    rw [← rtakeWhile_newline s before]
    refine h (s ++ '\n' :: before) after (by rw [heq, List.append_assoc]; rfl) ?_
    rw [Region.run_append]
    exact htoken
  · rintro ⟨hfirst, hrest⟩ before after heq htoken
    rcases List.append_eq_append_iff.1 heq with ⟨tail, rfl, htail⟩ | ⟨tail, rfl, htail⟩
    · cases tail with
      | nil =>
        rw [List.append_nil] at htoken ⊢
        exact hfirst htoken
      | cons c tail =>
        obtain ⟨rfl, hsplit⟩ := List.cons.inj htail
        rw [Region.run_append] at htoken
        rw [rtakeWhile_newline]
        exact hrest tail after hsplit htoken
    · cases tail with
      | nil =>
        rw [List.append_nil] at hfirst
        exact hfirst htoken
      | cons c tail =>
        obtain ⟨rfl, -⟩ := List.cons.inj htail
        exact absurd (List.mem_append_right before List.mem_cons_self) hs

/-! ## The pass -/

/-- The text written for lines, each ended with the carriage returns and a line feed. -/
def writtenLines (options : FormatOptions) (returns : List Char) (lines : List (List Char)) (indentLevel : Nat)
    (state : DymolaFormatState) : List Char :=
  joinSegments '\n' ((formatLines options lines indentLevel state).map (· ++ returns)) []

theorem writtenLines_cons (options : FormatOptions) (returns rawLine : List Char) (rest : List (List Char))
    (indentLevel : Nat) (state : DymolaFormatState) :
    writtenLines options returns (rawLine :: rest) indentLevel state =
      (formatDymolaLine (trimmedLine options rawLine state) options indentLevel state).1 ++ returns ++ '\n' ::
        writtenLines options returns rest
          (formatDymolaLine (trimmedLine options rawLine state) options indentLevel state).2.1
          (formatDymolaLine (trimmedLine options rawLine state) options indentLevel state).2.2 := by
  rw [writtenLines, formatLines, List.map_cons, joinSegments_cons]
  rfl

/-- What the pass keeps of a text: it ends outside tokens, and the significant characters stay when the breaks match. -/
structure TextKept (r : Region) (returns text written : List Char) : Prop where
  ends : (r.run written).isToken = false
  significant : significantFrom r written = significantFrom r text ↔ BreaksMatch r returns text

theorem restBlank_break (count : Nat) (rest : List Char) :
    restBlank (List.replicate count '\r' ++ '\n' :: rest) = true := by
  have hnewline : restBlank ('\n' :: rest) = true := by rw [restBlank_cons, if_pos rfl]
  rw [restBlank_append hnewline, restBlank_returns]

theorem significantFrom_line_outside {r : Region} {line : List Char} (h : (r.run line).isToken = false) (count : Nat)
    (rest : List Char) :
    significantFrom r (line ++ (List.replicate count '\r' ++ '\n' :: rest)) =
      significantFrom r line ++ significantFrom .code rest := by
  obtain ⟨hnone, hoff⟩ := significantFrom_gaps h (isGap_replicate_return count)
  rw [significantFrom_append (restBlank_break count rest), significantFrom_newline, hnone, List.nil_append,
    significantFrom_newline_outside hoff]

theorem significantFrom_line_inside {r : Region} {line : List Char} (h : (r.run line).isToken = true) (count : Nat) :
    ∃ taken, taken.map Prod.snd = List.replicate count '\r' ++ ['\n'] ∧
      ∀ rest, significantFrom r (line ++ (List.replicate count '\r' ++ '\n' :: rest)) =
        significantFrom r line ++ (taken ++ significantFrom ((r.run line).next '\n') rest) := by
  obtain ⟨taken, hmap, htaken⟩ := significantFrom_break h count
  exact ⟨taken, hmap, fun rest => by rw [significantFrom_append (restBlank_break count rest), htaken]⟩

theorem run_line (r : Region) (line : List Char) (count : Nat) (rest : List Char) :
    r.run (line ++ (List.replicate count '\r' ++ '\n' :: rest)) = ((r.run line).next '\n').run rest := by
  rw [Region.run_append, Region.run_append, Region.run_cons, next_newline_returns]

theorem replicate_return_inj {m n : Nat} {a b : List Char}
    (h : List.replicate m '\r' ++ '\n' :: a = List.replicate n '\r' ++ '\n' :: b) : m = n := by
  have htake : ∀ (k : Nat) (c : List Char),
      (List.replicate k '\r' ++ '\n' :: c).takeWhile (· = '\r') = List.replicate k '\r' := by
    intro k c
    rw [List.takeWhile_append_of_pos fun d hd => by rw [List.eq_of_mem_replicate hd]; rfl]
    exact List.append_nil _
  have := congrArg (List.length ∘ List.takeWhile (· = '\r')) h
  simpa [htake] using this

theorem next_newline_kept {r : Region} {s formatted : List Char}
    (hkept : LineKept r (stripReturn (stripReturn s)) formatted) :
    (r.run formatted).next '\n' = (r.run s).next '\n' := by
  obtain ⟨count, hsplit, -⟩ := strip_two s
  have hnext : (r.run s).next '\n' = (r.run (stripReturn (stripReturn s))).next '\n' := by
    conv_lhs => rw [hsplit]
    rw [Region.run_append, next_newline_returns]
  rw [hnext]
  cases hline : (r.run (stripReturn (stripReturn s))).isToken with
  | true => rw [(hkept.inside hline).1]
  | false => rw [next_newline_of_not_isToken hline, next_newline_of_not_isToken (hkept.outside hline).1]

theorem isEscape_kept {r : Region} {s formatted rest : List Char}
    (hkept : LineKept r (stripReturn (stripReturn s)) formatted)
    (hclosed : closedFrom r (s ++ '\n' :: rest) = true) : (r.run formatted).isEscape = false := by
  obtain ⟨count, hsplit, -⟩ := strip_two s
  cases hline : (r.run (stripReturn (stripReturn s))).isToken with
  | true =>
    rw [(hkept.inside hline).1]
    rw [hsplit, List.append_assoc] at hclosed
    cases count with
    | zero => exact isEscape_of_closedFrom hclosed (.inl rfl)
    | succ count => exact isEscape_of_closedFrom hclosed (.inr rfl)
  | false =>
    have hoff := (hkept.outside hline).1
    revert hoff
    generalize r.run formatted = t
    cases t <;> decide

theorem textKept_line {r : Region} {returns s formatted rest written : List Char}
    (hreturns : returns = [] ∨ returns = ['\r']) (hs : '\n' ∉ s)
    (hkept : LineKept r (stripReturn (stripReturn s)) formatted)
    (hrest : TextKept ((r.run s).next '\n') returns rest written) :
    TextKept r returns (s ++ '\n' :: rest) (formatted ++ returns ++ '\n' :: written) := by
  have hnextEq := next_newline_kept hkept
  obtain ⟨count, hsplit, hcount⟩ := strip_two s
  obtain ⟨n, hn⟩ : ∃ n, returns = List.replicate n '\r' := by
    rcases hreturns with rfl | rfl
    · exact ⟨0, rfl⟩
    · exact ⟨1, rfl⟩
  have hbreak := hcount returns hreturns
  generalize stripReturn (stripReturn s) = line at hkept hsplit
  have hnext : (r.run s).next '\n' = (r.run line).next '\n' := by
    rw [hsplit, Region.run_append, next_newline_returns]
  have hsource : s ++ '\n' :: rest = line ++ (List.replicate count '\r' ++ '\n' :: rest) := by
    conv_lhs => rw [hsplit]
    exact List.append_assoc _ _ _
  have hwritten : formatted ++ returns ++ '\n' :: written =
      formatted ++ (List.replicate n '\r' ++ '\n' :: written) := by rw [hn, List.append_assoc]
  have hstoken : (r.run s).isToken = (r.run line).isToken := by
    rw [hsplit, Region.run_append]
    cases hline : (r.run line).isToken with
    | true =>
      exact isToken_run_whiteSpace hline fun c hc => isWhiteSpace_of_isGap (isGap_replicate_return count c hc)
    | false => exact (significantFrom_gaps hline (isGap_replicate_return count)).2
  rw [hnext] at hrest hnextEq
  refine ⟨?_, ?_⟩
  · rw [hwritten, run_line, hnextEq]
    exact hrest.ends
  · rw [breaksMatch_append hs, hnext, ← hrest.significant, hsource, hwritten, hstoken]
    cases hline : (r.run line).isToken with
    | false =>
      obtain ⟨hoff, hsig⟩ := hkept.outside hline
      rw [significantFrom_line_outside hline, significantFrom_line_outside hoff, hsig,
        List.append_cancel_left_eq, next_newline_of_not_isToken hline]
      exact ⟨fun h => ⟨nofun, h⟩, And.right⟩
    | true =>
      obtain ⟨hrun, hsig⟩ := hkept.inside hline
      obtain ⟨taken, hmap, htaken⟩ := significantFrom_line_inside hline count
      obtain ⟨taken', hmap', htaken'⟩ := significantFrom_line_inside hline n
      rw [hsig, htaken, htaken', List.append_cancel_left_eq, hbreak, hn]
      have taken_eq : n = count → taken' = taken := by
        intro hnum
        have h1 := htaken []
        have h2 := htaken' []
        rw [hnum] at h2
        exact List.append_cancel_right (List.append_cancel_left (h2.symm.trans h1))
      constructor
      · intro h
        have hchars := congrArg (List.map Prod.snd) h
        rw [List.map_append, List.map_append, hmap, hmap', List.append_assoc, List.append_assoc] at hchars
        have hnum : n = count := replicate_return_inj hchars
        rw [taken_eq hnum, List.append_cancel_left_eq] at h
        exact ⟨fun _ => by rw [hnum], h⟩
      · rintro ⟨heq, h⟩
        have hnum : count = n := by simpa using congrArg List.length (heq rfl)
        rw [taken_eq hnum.symm, h]

theorem textKept_tail {r : Region} {returns tail formatted : List Char} (hreturns : returns = [] ∨ returns = ['\r'])
    (htail : '\n' ∉ tail) (hkept : LineKept r (stripReturn tail) formatted) (hend : (r.run tail).isToken = false) :
    TextKept r returns tail (formatted ++ returns ++ ['\n']) := by
  obtain ⟨count, -, hsplit, -⟩ := stripReturn_replicate tail
  obtain ⟨n, hn⟩ : ∃ n, returns = List.replicate n '\r' := by
    rcases hreturns with rfl | rfl
    · exact ⟨0, rfl⟩
    · exact ⟨1, rfl⟩
  have htailKept : LineKept r tail (stripReturn tail) := by
    have hkept' : LineKept r (stripReturn tail ++ List.replicate count '\r') (stripReturn tail) :=
      lineKept_trailing (isGap_replicate_return count) (by rwa [← hsplit])
    rwa [← hsplit] at hkept'
  obtain ⟨hoff, hsig⟩ := (htailKept.trans hkept).outside hend
  have hwritten : formatted ++ returns ++ ['\n'] = formatted ++ (List.replicate n '\r' ++ ['\n']) := by
    rw [hn, List.append_assoc]
  refine ⟨?_, iff_of_true ?_ ?_⟩
  · rw [hwritten, run_line, next_newline_of_not_isToken hoff]
    rfl
  · rw [hwritten, significantFrom_line_outside hoff, hsig]
    exact List.append_nil _
  · rintro before after rfl -
    exact absurd (List.mem_append_right before List.mem_cons_self) htail

theorem kept_line (options : FormatOptions) {r : Region} {s rest : List Char} {state : DymolaFormatState}
    (hs : '\n' ∉ s) (hr : r.Settled) (h : Agrees r state) (hclosed : closedFrom r (s ++ '\n' :: rest) = true)
    (indentLevel : Nat) :
    let result := formatDymolaLine (trimmedLine options (stripReturn s) state) options indentLevel state
    LineKept r (stripReturn (stripReturn s)) result.1 ∧ Agrees ((r.run s).next '\n') result.2.2 ∧
      closedFrom ((r.run s).next '\n') rest = true := by
  intro result
  have hstrip := newline_notMem_stripReturn hs
  have hline := newline_notMem_trimmedLine hstrip options state
  obtain ⟨hformatted, hagrees⟩ := formatDymolaLine_kept hline hr h options indentLevel
  have hkept : LineKept r (stripReturn (stripReturn s)) result.1 := (trimmedLine_kept hstrip hr h options).trans hformatted
  have hnext : Agrees ((r.run result.1).next '\n') result.2.2 := hagrees.next_newline (isEscape_kept hkept hclosed)
  rw [next_newline_kept hkept] at hnext
  have hrest := closedFrom_append hclosed
  rw [closedFrom, Bool.and_eq_true] at hrest
  exact ⟨hkept, hnext, hrest.2⟩

theorem textKept_writtenLines (options : FormatOptions) {returns : List Char}
    (hreturns : returns = [] ∨ returns = ['\r']) {ss : List (List Char)} {tail : List Char} {r : Region}
    {state : DymolaFormatState} (indentLevel : Nat) (hss : ∀ s ∈ ss, '\n' ∉ s) (htail : '\n' ∉ tail) (hr : r.Settled)
    (h : Agrees r state) (hclosed : closedFrom r (joinSegments '\n' ss tail) = true) :
    TextKept r returns (joinSegments '\n' ss tail)
      (writtenLines options returns (ss.map stripReturn ++ if tail.isEmpty then [] else [tail]) indentLevel state) := by
  induction ss generalizing r state indentLevel with
  | nil =>
    have hend := closedFrom_run hclosed
    rw [show joinSegments '\n' [] tail = tail from rfl] at hend ⊢
    cases tail with
    | nil => exact ⟨hend, iff_of_true rfl fun before after heq => absurd heq (by simp)⟩
    | cons c tail =>
      have hline := newline_notMem_trimmedLine htail options state
      have hkept := (trimmedLine_kept htail hr h options).trans (formatDymolaLine_kept hline hr h options indentLevel).1
      rw [List.map_nil, List.nil_append, List.isEmpty_cons, if_neg Bool.false_ne_true, writtenLines_cons]
      exact textKept_tail hreturns htail hkept hend
  | cons s ss ih =>
    rw [joinSegments_cons] at hclosed ⊢
    have hs := hss s List.mem_cons_self
    obtain ⟨hkept, hnext, hrestClosed⟩ := kept_line options hs hr h hclosed indentLevel
    rw [List.map_cons, List.cons_append, writtenLines_cons]
    exact textKept_line hreturns hs hkept
      (ih _ (fun s hs => hss s (List.mem_cons_of_mem _ hs)) (settled_next_newline _) hnext hrestClosed)

theorem significant_without_ending {text returns : List Char} (hreturns : returns = [] ∨ returns = ['\r'])
    (hend : (Region.code.run (text ++ (returns ++ ['\n']))).isToken = false) :
    significant (text ++ (returns ++ ['\n'])) = significant text := by
  obtain ⟨n, hn⟩ : ∃ n, returns = List.replicate n '\r' := by
    rcases hreturns with rfl | rfl
    · exact ⟨0, rfl⟩
    · exact ⟨1, rfl⟩
  have hoff : (Region.code.run text).isToken = false := by
    refine Bool.eq_false_of_not_eq_true fun htoken => ?_
    rw [Region.run_append, isToken_run_whiteSpace htoken] at hend
    · cases hend
    · intro c hc
      rcases List.mem_append.1 hc with hc | hc
      · exact isWhiteSpace_of_isGap (isGap_replicate_return n c (hn ▸ hc))
      · rw [List.mem_singleton.1 hc]
        decide
  rw [hn]
  exact (significantFrom_line_outside hoff n []).trans (List.append_nil _)

theorem formatDymolaSource_eq (source : List Char) (options : FormatOptions) :
    let returns := endingReturns source options.lineEnding
    let written := writtenLines options returns (sourceLines source) 0 .initial
    formatDymolaSource source options = written ∨ written = formatDymolaSource source options ++ (returns ++ ['\n']) := by
  intro returns written
  have hwritten : written = joinSegments '\n'
      ((formatLines options (sourceLines source) 0 .initial).map (· ++ returns)) [] := rfl
  rw [formatDymolaSource, targetLineEnding_eq]
  cases h : options.insertFinalNewline with
  | true => exact .inl (joinLines_insert h _ _)
  | false =>
    rcases List.eq_nil_or_concat' (formatLines options (sourceLines source) 0 .initial) with hnil | ⟨init, last, hlast⟩
    · rw [hwritten, hnil, joinLines_nil]
      exact .inl rfl
    · rw [hwritten, hlast, joinLines_drop h, List.map_append, List.map_singleton]
      exact .inr (by simp [joinSegments, returns])

/-- The pass keeps the significant characters of a closed text exactly when the breaks inside its tokens are the target's. -/
theorem significant_formatDymolaSource_iff (source : List Char) (options : FormatOptions) (h : Closed source) :
    significant (formatDymolaSource source options) = significant source ↔
      BreaksMatch .code (endingReturns source options.lineEnding) source := by
  obtain ⟨hjoin, hss, htail⟩ := segments_spec '\n' source
  have hreturns := endingReturns_cases source options.lineEnding
  have hkept : TextKept .code (endingReturns source options.lineEnding) source
      (writtenLines options (endingReturns source options.lineEnding) (sourceLines source) 0 .initial) := by
    have hclosed : closedFrom .code (joinSegments '\n' (segments '\n' source).1 (segments '\n' source).2) = true := by
      rw [hjoin]
      exact h
    have hrun := textKept_writtenLines options hreturns 0 hss htail Region.settled_code agrees_initial hclosed
    rwa [hjoin] at hrun
  rw [← hkept.significant]
  rcases formatDymolaSource_eq source options with heq | heq
  · rw [heq]
    rfl
  · have hends := hkept.ends
    rw [heq] at hends ⊢
    exact (congrArg (· = significant source) (significant_without_ending hreturns hends)).to_iff.symm

/-- A block comment with a break of its own, before lines that end otherwise. -/
theorem significant_formatDymolaSource_iff_comment :
    significant (formatDymolaSource "/* a\r\nb */\nmodel M\nend M;\n".toList .dymola) =
        significant "/* a\r\nb */\nmodel M\nend M;\n".toList ↔
      BreaksMatch .code (endingReturns "/* a\r\nb */\nmodel M\nend M;\n".toList .auto)
        "/* a\r\nb */\nmodel M\nend M;\n".toList :=
  significant_formatDymolaSource_iff _ .dymola (by decide)

/-- The comment's carriage return goes. -/
theorem significant_not_preserved :
    ¬∀ (source : List Char) (options : FormatOptions), Closed source →
      significant (formatDymolaSource source options) = significant source := by
  intro h
  have hcomment := h "/* a\r\nb */\nmodel M\nend M;\n".toList .dymola (by decide)
  revert hcomment
  decide +kernel

end Rumoca.Fmt
