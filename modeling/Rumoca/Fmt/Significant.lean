import Rumoca.Fmt.LinePass
/-!
# Significant characters

A text is read by a machine with one state for each kind of region: code,
strings, quoted identifiers and the two comments. Its significant characters
are those that are neither white space outside a region nor trailing blanks of
a line comment, each with the state it is read in. The line pass reads each
line with flags of its own, which agree with the machine's state.
-/

namespace Rumoca.Fmt

open Flatten (isWhiteSpace trim)

/-! ## The machine -/

/-- What the next character belongs to. -/
inductive Region where
  | code | slash | lineComment | blockComment | blockStar | string | stringEscape | quoted | quotedEscape
deriving DecidableEq, Repr

namespace Region

def afterCode (c : Char) : Region :=
  if c = '"' then string else if c = '\'' then quoted else if c = '/' then slash else code

def next : Region → Char → Region
  | code, c => afterCode c
  | slash, c => if c = '/' then lineComment else if c = '*' then blockComment else afterCode c
  | lineComment, c => if c = '\n' then code else lineComment
  | blockComment, c => if c = '*' then blockStar else blockComment
  | blockStar, c => if c = '/' then code else if c = '*' then blockStar else blockComment
  | string, c => if c = '\\' then stringEscape else if c = '"' then code else string
  | stringEscape, _ => string
  | quoted, c => if c = '\\' then quotedEscape else if c = '\'' then code else quoted
  | quotedEscape, _ => quoted

def isString (r : Region) : Bool := r = string || r = stringEscape

def isQuoted (r : Region) : Bool := r = quoted || r = quotedEscape

def isBlock (r : Region) : Bool := r = blockComment || r = blockStar

def isEscape (r : Region) : Bool := r = stringEscape || r = quotedEscape

/-- A string, a quoted identifier or a block comment is open. -/
def isToken (r : Region) : Bool := r.isString || r.isQuoted || r.isBlock

/-- No comment mark is half read, and no line comment is open. -/
def Settled (r : Region) : Prop := r ≠ slash ∧ r ≠ lineComment ∧ r ≠ blockStar

instance (r : Region) : Decidable r.Settled := inferInstanceAs (Decidable (_ ∧ _))

theorem Settled.eq_blockComment {r : Region} (h : r.Settled) (hr : r.isBlock = true) : r = blockComment := by
  cases r <;> simp_all [Settled, isBlock]

theorem Settled.eq_code {r : Region} (h : r.Settled) (hr : r.isToken = false) : r = code := by
  cases r <;> simp_all [Settled, isToken, isString, isQuoted, isBlock]

theorem settled_next {r : Region} (hr : r.isString || r.isQuoted) (c : Char) : (r.next c).Settled := by
  cases r with
  | code => cases hr
  | slash => cases hr
  | lineComment => cases hr
  | blockComment => cases hr
  | blockStar => cases hr
  | string =>
    rw [next]
    split
    · decide
    · split <;> decide
  | stringEscape => exact (by decide : string.Settled)
  | quoted =>
    rw [next]
    split
    · decide
    · split <;> decide
  | quotedEscape => exact (by decide : quoted.Settled)

theorem settled_code : code.Settled := by decide

def run (r : Region) (text : List Char) : Region := text.foldl next r

@[simp] theorem run_nil (r : Region) : r.run [] = r := rfl

@[simp] theorem run_cons (r : Region) (c : Char) (text : List Char) : r.run (c :: text) = (r.next c).run text := rfl

theorem run_append (r : Region) (a b : List Char) : r.run (a ++ b) = (r.run a).run b := List.foldl_append

end Region

def isGap (c : Char) : Bool := isBlank c || c = '\r'

def restBlank (text : List Char) : Bool := (text.takeWhile (· ≠ '\n')).all isGap

def Region.skips : Region → Char → List Char → Bool
  | .code, c, _ => isWhiteSpace c
  | .slash, c, _ => isWhiteSpace c
  | .lineComment, c, rest => restBlank (c :: rest)
  | _, _, _ => false

def significantFrom : Region → List Char → List (Region × Char)
  | _, [] => []
  | r, c :: rest =>
    if r.skips c rest then significantFrom (r.next c) rest else (r, c) :: significantFrom (r.next c) rest

def significant (text : List Char) : List (Region × Char) := significantFrom .code text

/-- Strings, quoted identifiers and block comments are closed, and no escape reaches over a line's end. -/
def closedFrom : Region → List Char → Bool
  | r, [] => !r.isToken
  | r, c :: rest => !(r.isEscape && (c = '\n' || c = '\r')) && closedFrom (r.next c) rest

def Closed (text : List Char) : Prop := closedFrom .code text = true

instance (text : List Char) : Decidable (Closed text) := inferInstanceAs (Decidable (_ = true))

theorem closedFrom_append {a b : List Char} {r : Region} (h : closedFrom r (a ++ b) = true) :
    closedFrom (r.run a) b = true := by
  induction a generalizing r with
  | nil => exact h
  | cons c a ih =>
    rw [List.cons_append, closedFrom, Bool.and_eq_true] at h
    exact ih h.2

theorem closedFrom_run {text : List Char} {r : Region} (h : closedFrom r text = true) :
    (r.run text).isToken = false := by
  induction text generalizing r with
  | nil => simpa [closedFrom] using h
  | cons c text ih =>
    rw [closedFrom, Bool.and_eq_true] at h
    exact ih h.2

/-! ## The scan of a line -/

/-- The flags of the line pass say what the machine says. -/
structure Agrees (r : Region) (state : DymolaFormatState) : Prop where
  string : state.inString = r.isString
  quoted : state.inQuotedIdentifier = r.isQuoted
  block : state.inBlockComment = r.isBlock
  escaped : r.isString || r.isQuoted → state.escaped = r.isEscape

theorem Agrees.insideToken {r : Region} {state : DymolaFormatState} (h : Agrees r state) :
    state.insideToken = r.isToken := by
  rw [DymolaFormatState.insideToken, h.string, h.quoted, h.block]
  rfl

theorem agrees_initial : Agrees .code .initial := ⟨rfl, rfl, rfl, nofun⟩

/-- The flags of two states are the same. -/
structure SameFlags (a b : DymolaFormatState) : Prop where
  string : a.inString = b.inString
  quoted : a.inQuotedIdentifier = b.inQuotedIdentifier
  block : a.inBlockComment = b.inBlockComment
  escaped : a.escaped = b.escaped

theorem Agrees.of_sameFlags {r : Region} {a b : DymolaFormatState} (h : Agrees r a) (hab : SameFlags b a) :
    Agrees r b :=
  ⟨hab.string.trans h.string, hab.quoted.trans h.quoted, hab.block.trans h.block,
    fun hr => hab.escaped.trans (h.escaped hr)⟩

theorem sameFlags_updateDelimiterDepth (c : Char) (state : DymolaFormatState) :
    SameFlags (updateDelimiterDepth c state) state := by
  unfold updateDelimiterDepth
  split <;> exact ⟨rfl, rfl, rfl, rfl⟩

theorem sameFlags_updateFormatSection (line : List Char) (state : DymolaFormatState) :
    SameFlags (updateFormatSection line state) state := by
  simp only [updateFormatSection]
  repeat' split
  all_goals exact ⟨rfl, rfl, rfl, rfl⟩

theorem sameFlags_finishLineState (line : List Char) (state : DymolaFormatState) :
    SameFlags (finishLineState line state) state := ⟨rfl, rfl, rfl, rfl⟩

theorem sameFlags_updateCommentAnchoredLayout (line : List Char) (state : DymolaFormatState) (was started : Bool) :
    SameFlags (updateCommentAnchoredLayout line state was started) state := by
  unfold updateCommentAnchoredLayout
  repeat' split
  all_goals exact ⟨rfl, rfl, rfl, rfl⟩

theorem agrees_advanceQuotedState {r : Region} {state : DymolaFormatState} (h : Agrees r state)
    (hr : r.isString || r.isQuoted) (c : Char) : Agrees (r.next c) (advanceQuotedState c state) := by
  obtain ⟨hs, hq, hb, he⟩ := h
  have he := he hr
  unfold advanceQuotedState
  cases r with
  | code => cases hr
  | slash => cases hr
  | lineComment => cases hr
  | blockComment => cases hr
  | blockStar => cases hr
  | stringEscape =>
    rw [if_pos (show state.escaped = true from he)]
    exact ⟨hs, hq, hb, fun _ => rfl⟩
  | quotedEscape =>
    rw [if_pos (show state.escaped = true from he)]
    exact ⟨hs, hq, hb, fun _ => rfl⟩
  | string =>
    rw [if_neg (show ¬state.escaped = true from fun h => Bool.false_ne_true (he.symm.trans h)), Region.next]
    by_cases h1 : c = '\\'
    · rw [if_pos h1, if_pos h1]
      exact ⟨hs, hq, hb, fun _ => rfl⟩
    · by_cases h2 : c = '"'
      · rw [if_neg h1, if_neg h1, if_pos (show c = '"' ∧ state.inString = true from ⟨h2, hs⟩), if_pos h2]
        exact ⟨rfl, hq, hb, nofun⟩
      · rw [if_neg h1, if_neg h1, if_neg (show ¬(c = '"' ∧ state.inString = true) from fun h => h2 h.1), if_neg h2,
          if_neg (show ¬(c = '\'' ∧ state.inQuotedIdentifier = true) from
            fun h => Bool.false_ne_true (hq.symm.trans h.2))]
        exact ⟨hs, hq, hb, fun _ => he⟩
  | quoted =>
    rw [if_neg (show ¬state.escaped = true from fun h => Bool.false_ne_true (he.symm.trans h)), Region.next]
    by_cases h1 : c = '\\'
    · rw [if_pos h1, if_pos h1]
      exact ⟨hs, hq, hb, fun _ => rfl⟩
    · rw [if_neg h1, if_neg h1, if_neg (show ¬(c = '"' ∧ state.inString = true) from
        fun h => Bool.false_ne_true (hs.symm.trans h.2))]
      by_cases h2 : c = '\''
      · rw [if_pos (show c = '\'' ∧ state.inQuotedIdentifier = true from ⟨h2, hq⟩), if_pos h2]
        exact ⟨hs, rfl, hb, nofun⟩
      · rw [if_neg (show ¬(c = '\'' ∧ state.inQuotedIdentifier = true) from fun h => h2 h.1), if_neg h2]
        exact ⟨hs, hq, hb, fun _ => he⟩

theorem agrees_run_slash {rest : List Char} {state : DymolaFormatState} (h1 : ∀ tail, rest ≠ '/' :: tail)
    (h2 : ∀ tail, rest ≠ '*' :: tail) (h : Agrees (Region.code.run rest) state) :
    Agrees (Region.slash.run rest) state := by
  cases rest with
  | nil => exact ⟨h.string, h.quoted, h.block, nofun⟩
  | cons c rest =>
    rw [Region.run_cons, Region.next, if_neg (by rintro rfl; exact h1 rest rfl),
      if_neg (by rintro rfl; exact h2 rest rfl)]
    exact h

theorem agrees_run_blockStar {rest : List Char} {state : DymolaFormatState} (h1 : ∀ tail, rest ≠ '/' :: tail)
    (h : Agrees (Region.blockComment.run rest) state) : Agrees (Region.blockStar.run rest) state := by
  cases rest with
  | nil => exact ⟨h.string, h.quoted, h.block, nofun⟩
  | cons c rest =>
    rw [Region.run_cons, Region.next, if_neg (by rintro rfl; exact h1 rest rfl)]
    exact h

theorem run_lineComment {rest : List Char} (h : '\n' ∉ rest) : Region.lineComment.run rest = .lineComment := by
  induction rest with
  | nil => rfl
  | cons c rest ih =>
    obtain ⟨hne, hrest⟩ := List.ne_and_not_mem_of_not_mem_cons h
    rw [Region.run_cons, Region.next, if_neg (Ne.symm hne), ih hrest]

theorem Agrees.eq_code {r : Region} {state : DymolaFormatState} (h : Agrees r state) (hr : r.Settled)
    (hblock : ¬state.inBlockComment = true) (hquoted : ¬(state.inString || state.inQuotedIdentifier) = true) :
    r = .code := by
  refine hr.eq_code ?_
  rw [h.block] at hblock
  rw [h.string, h.quoted] at hquoted
  rw [Region.isToken, Bool.eq_false_of_not_eq_true hblock, Bool.eq_false_of_not_eq_true hquoted]
  rfl

theorem agrees_scanLineLexicalState {line : List Char} {r : Region} {state : DymolaFormatState}
    (hline : '\n' ∉ line) (hr : r.Settled) (h : Agrees r state) :
    Agrees (r.run line) (scanLineLexicalState line state) := by
  fun_induction scanLineLexicalState line state generalizing r with
  | case1 state => exact h
  | case2 state hblock rest ih =>
    obtain rfl := hr.eq_blockComment (h.block.symm.trans hblock)
    have hrest : '\n' ∉ rest := fun hmem => hline (List.mem_cons_of_mem _ (List.mem_cons_of_mem _ hmem))
    exact ih hrest Region.settled_code ⟨h.string, h.quoted, rfl, nofun⟩
  | case3 c state hblock rest hclose ih =>
    have hrest : '\n' ∉ rest := fun hmem => hline (List.mem_cons_of_mem _ hmem)
    have hih := ih hrest hr h
    obtain rfl := hr.eq_blockComment (h.block.symm.trans hblock)
    rw [Region.run_cons, Region.next]
    split
    · exact agrees_run_blockStar (fun tail => hclose tail ‹c = '*'›) hih
    · exact hih
  | case4 c rest state _ hquoted ih =>
    have hrest : '\n' ∉ rest := fun hmem => hline (List.mem_cons_of_mem _ hmem)
    have htoken : (r.isString || r.isQuoted) = true := by rwa [h.string, h.quoted] at hquoted
    exact ih hrest (Region.settled_next htoken c) (agrees_advanceQuotedState h htoken c)
  | case5 rest state hblock hquoted ih =>
    have hrest : '\n' ∉ rest := fun hmem => hline (List.mem_cons_of_mem _ hmem)
    obtain rfl := h.eq_code hr hblock hquoted
    exact ih hrest (by decide : Region.string.Settled) ⟨rfl, h.quoted, h.block, fun _ => rfl⟩
  | case6 rest state hblock hquoted _ ih =>
    have hrest : '\n' ∉ rest := fun hmem => hline (List.mem_cons_of_mem _ hmem)
    obtain rfl := h.eq_code hr hblock hquoted
    exact ih hrest (by decide : Region.quoted.Settled) ⟨h.string, rfl, h.block, fun _ => rfl⟩
  | case7 state hblock hquoted tail _ _ =>
    have htail : '\n' ∉ tail := fun hmem => hline (List.mem_cons_of_mem _ (List.mem_cons_of_mem _ hmem))
    obtain rfl := h.eq_code hr hblock hquoted
    rw [show Region.code.run ('/' :: '/' :: tail) = Region.lineComment.run tail from rfl, run_lineComment htail]
    exact ⟨h.string, h.quoted, h.block, nofun⟩
  | case8 state hblock hquoted rest _ _ ih =>
    have hrest : '\n' ∉ rest := fun hmem => hline (List.mem_cons_of_mem _ (List.mem_cons_of_mem _ hmem))
    obtain rfl := h.eq_code hr hblock hquoted
    exact ih hrest (by decide : Region.blockComment.Settled) ⟨h.string, h.quoted, rfl, nofun⟩
  | case9 state hblock hquoted c rest hline' hblock' hc1 hc2 ih =>
    have hrest : '\n' ∉ rest := fun hmem => hline (List.mem_cons_of_mem _ hmem)
    have hih := ih hrest hr (h.of_sameFlags (sameFlags_updateDelimiterDepth c state))
    obtain rfl := h.eq_code hr hblock hquoted
    rw [Region.run_cons, Region.next, Region.afterCode, if_neg hc1, if_neg hc2]
    split
    · exact agrees_run_slash (fun tail => hline' tail ‹c = '/'›) (fun tail => hblock' tail ‹c = '/'›) hih
    · exact hih

theorem agrees_updateFormatState {line : List Char} {r : Region} {state : DymolaFormatState}
    (hline : '\n' ∉ line) (hr : r.Settled) (h : Agrees r state) :
    Agrees (r.run line) (updateFormatState line state) :=
  (((agrees_scanLineLexicalState hline hr (h.of_sameFlags (sameFlags_updateFormatSection line state))).of_sameFlags
    (sameFlags_finishLineState line _))).of_sameFlags (sameFlags_updateCommentAnchoredLayout line _ _ _)

end Rumoca.Fmt
