import Mathlib.Data.List.Infix
import Mathlib.Tactic.FinCases
import Rumoca.Machine
/-!
# Text positions

Compiler spans use UTF-8 byte offsets, editors zero-based lines and UTF-16
columns. The two conversions scan the text from its start; they are inverse on
character boundaries, and monotone.
-/

namespace Rumoca.Core

/-- A zero-based line and UTF-16 column. -/
structure TextPosition where
  line : Nat
  character : Nat
deriving DecidableEq, Repr

/-- `char::len_utf16`. -/
def lenUtf16 (ch : Char) : Nat := if ch.toNat < 65536 then 1 else 2

def utf8Length (text : List Char) : Nat := (text.map Char.utf8Size).sum

def utf16Length (text : List Char) : Nat := (text.map lenUtf16).sum

/-- `u32::saturating_add`. -/
def saturatingAddU32 (a b : Nat) : Nat := min (a + b) (u32Limit - 1)

namespace TextPosition

def advance (cursor : TextPosition) (ch : Char) : TextPosition :=
  if ch = '\n' then ⟨saturatingAddU32 cursor.line 1, 0⟩
  else ⟨cursor.line, saturatingAddU32 cursor.character (lenUtf16 ch)⟩

/-- The scan of `byte_offset_to_position`, with the offset and the position of the next character. -/
def scanToOffset (clamped : Nat) : List Char → (idx : Nat) → TextPosition → TextPosition
  | [], _, cursor => cursor
  | ch :: rest, idx, cursor =>
    if clamped ≤ idx then cursor else scanToOffset clamped rest (idx + ch.utf8Size) (cursor.advance ch)

def byteOffsetToPosition (source : List Char) (byteOffset : Nat) : TextPosition :=
  scanToOffset (min byteOffset (utf8Length source)) source 0 ⟨0, 0⟩

def Reached (position cursor : TextPosition) : Prop :=
  position.line < cursor.line ∨ cursor.line = position.line ∧ position.character ≤ cursor.character

instance (position cursor : TextPosition) : Decidable (Reached position cursor) := inferInstanceAs (Decidable (_ ∨ _))

/-- The scan of `position_to_byte_offset`. -/
def scanToPosition (position : TextPosition) : List Char → (idx : Nat) → TextPosition → Nat
  | [], idx, _ => idx
  | ch :: rest, idx, cursor =>
    if Reached position cursor then idx
    else if ch = '\n' ∧ cursor.line = position.line then idx
    else scanToPosition position rest (idx + ch.utf8Size) (cursor.advance ch)

def positionToByteOffset (source : List Char) (position : TextPosition) : Nat :=
  scanToPosition position source 0 ⟨0, 0⟩

/-! ## Positions without bounds -/

def step (cursor : TextPosition) (ch : Char) : TextPosition :=
  if ch = '\n' then ⟨cursor.line + 1, 0⟩ else ⟨cursor.line, cursor.character + lenUtf16 ch⟩

def past (cursor : TextPosition) (text : List Char) : TextPosition := text.foldl step cursor

/-- Every position of the text fits `u32`. -/
def Fits (cursor : TextPosition) (text : List Char) : Prop :=
  ∀ pre, pre <+: text → (cursor.past pre).line < u32Limit ∧ (cursor.past pre).character < u32Limit

def AtOrBefore (position other : TextPosition) : Prop := Reached position other

theorem past_append (cursor : TextPosition) (text more : List Char) :
    cursor.past (text ++ more) = (cursor.past text).past more := List.foldl_append

theorem lenUtf16_pos (ch : Char) : 0 < lenUtf16 ch := by
  unfold lenUtf16
  split <;> decide

theorem Fits.cons {cursor : TextPosition} {ch : Char} {rest : List Char} (h : cursor.Fits (ch :: rest)) :
    cursor.advance ch = cursor.step ch ∧ (cursor.step ch).Fits rest := by
  refine ⟨?_, fun pre hpre => h (ch :: pre) (List.cons_prefix_cons.2 ⟨rfl, hpre⟩)⟩
  have hstep : (cursor.step ch).line < u32Limit ∧ (cursor.step ch).character < u32Limit :=
    h [ch] (List.cons_prefix_cons.2 ⟨rfl, List.nil_prefix⟩)
  unfold advance step saturatingAddU32 at *
  split_ifs at hstep ⊢
  · rw [min_eq_left (Nat.le_sub_one_of_lt hstep.1)]
  · rw [min_eq_left (Nat.le_sub_one_of_lt hstep.2)]

theorem atOrBefore_refl (position : TextPosition) : position.AtOrBefore position := .inr ⟨rfl, le_refl _⟩

theorem AtOrBefore.trans {a b c : TextPosition} (h : a.AtOrBefore b) (h' : b.AtOrBefore c) : a.AtOrBefore c := by
  unfold AtOrBefore Reached at *
  omega

theorem not_reached_step {cursor position : TextPosition} {ch : Char} (h : (cursor.step ch).AtOrBefore position) :
    ¬Reached position cursor := by
  have hpos := lenUtf16_pos ch
  unfold AtOrBefore Reached step at *
  split_ifs at h <;> dsimp only at h <;> omega

theorem atOrBefore_past (cursor : TextPosition) (text : List Char) : cursor.AtOrBefore (cursor.past text) := by
  induction text generalizing cursor with
  | nil => exact cursor.atOrBefore_refl
  | cons ch rest ih =>
    refine AtOrBefore.trans ?_ (ih (cursor.step ch))
    unfold AtOrBefore Reached step
    split_ifs <;> dsimp only <;> omega

/-! ## From offsets to positions -/

theorem atOrBefore_scanToOffset {clamped idx : Nat} {cursor : TextPosition} {text : List Char} (h : cursor.Fits text) :
    cursor.AtOrBefore (scanToOffset clamped text idx cursor) := by
  induction text generalizing idx cursor with
  | nil => exact cursor.atOrBefore_refl
  | cons ch rest ih =>
    unfold scanToOffset
    obtain ⟨hadvance, hrest⟩ := h.cons
    split_ifs
    · exact cursor.atOrBefore_refl
    · rw [hadvance]
      exact (cursor.atOrBefore_past [ch]).trans (ih hrest)

theorem scanToOffset_mono {clamped clamped' idx : Nat} {cursor : TextPosition} {text : List Char}
    (h : cursor.Fits text) (hle : clamped ≤ clamped') :
    (scanToOffset clamped text idx cursor).AtOrBefore (scanToOffset clamped' text idx cursor) := by
  induction text generalizing idx cursor with
  | nil => exact cursor.atOrBefore_refl
  | cons ch rest ih =>
    obtain ⟨hadvance, hrest⟩ := h.cons
    by_cases hstop : clamped ≤ idx
    · rw [show scanToOffset clamped (ch :: rest) idx cursor = cursor by simp [scanToOffset, hstop]]
      exact atOrBefore_scanToOffset h
    · have hstop' : ¬clamped' ≤ idx := fun hle' => hstop (hle.trans hle')
      simp only [scanToOffset, hstop, hstop', if_false, hadvance]
      exact ih hrest

theorem utf8Length_cons (ch : Char) (text : List Char) : utf8Length (ch :: text) = ch.utf8Size + utf8Length text := by
  simp [utf8Length]

theorem utf8Length_append (text more : List Char) : utf8Length (text ++ more) = utf8Length text + utf8Length more := by
  simp [utf8Length]

theorem scanToOffset_boundary {pre post : List Char} {idx : Nat} {cursor : TextPosition}
    (h : cursor.Fits (pre ++ post)) :
    scanToOffset (idx + utf8Length pre) (pre ++ post) idx cursor = cursor.past pre := by
  induction pre generalizing idx cursor with
  | nil =>
    cases post with
    | nil => rfl
    | cons ch post => simp [scanToOffset, utf8Length, past]
  | cons ch pre ih =>
    obtain ⟨hadvance, hrest⟩ := h.cons
    have hpos := ch.utf8Size_pos
    rw [List.cons_append, scanToOffset, if_neg (by rw [utf8Length_cons]; omega), hadvance, utf8Length_cons,
      ← Nat.add_assoc, ih hrest]
    rfl

theorem byteOffsetToPosition_boundary {pre post : List Char} (h : Fits ⟨0, 0⟩ (pre ++ post)) :
    byteOffsetToPosition (pre ++ post) (utf8Length pre) = past ⟨0, 0⟩ pre := by
  unfold byteOffsetToPosition
  rw [min_eq_left (by rw [utf8Length_append]; omega)]
  have hscan : scanToOffset (0 + utf8Length pre) (pre ++ post) 0 ⟨0, 0⟩ = past ⟨0, 0⟩ pre := scanToOffset_boundary h
  rwa [Nat.zero_add] at hscan

theorem byteOffsetToPosition_mono {source : List Char} {offset offset' : Nat} (h : Fits ⟨0, 0⟩ source)
    (hle : offset ≤ offset') :
    (byteOffsetToPosition source offset).AtOrBefore (byteOffsetToPosition source offset') :=
  scanToOffset_mono h (min_le_min_right _ hle)

/-! ## From positions to offsets -/

def Stops (position cursor : TextPosition) (ch : Char) : Prop :=
  Reached position cursor ∨ ch = '\n' ∧ cursor.line = position.line

theorem scanToPosition_cons (position cursor : TextPosition) (ch : Char) (rest : List Char) (idx : Nat) :
    (Stops position cursor ch ∧ scanToPosition position (ch :: rest) idx cursor = idx) ∨
      ¬Stops position cursor ch ∧ scanToPosition position (ch :: rest) idx cursor =
        scanToPosition position rest (idx + ch.utf8Size) (cursor.advance ch) := by
  unfold Stops
  rw [scanToPosition]
  split_ifs with hreached hnewline
  · exact .inl ⟨.inl hreached, rfl⟩
  · exact .inl ⟨.inr hnewline, rfl⟩
  · exact .inr ⟨not_or.2 ⟨hreached, hnewline⟩, rfl⟩

theorem scanToPosition_of_stops {position cursor : TextPosition} {ch : Char} {rest : List Char} {idx : Nat}
    (h : Stops position cursor ch) : scanToPosition position (ch :: rest) idx cursor = idx := by
  rcases scanToPosition_cons position cursor ch rest idx with ⟨-, heq⟩ | ⟨hnot, -⟩
  · exact heq
  · exact absurd h hnot

theorem scanToPosition_of_not_stops {position cursor : TextPosition} {ch : Char} {rest : List Char} {idx : Nat}
    (h : ¬Stops position cursor ch) : scanToPosition position (ch :: rest) idx cursor =
      scanToPosition position rest (idx + ch.utf8Size) (cursor.advance ch) := by
  rcases scanToPosition_cons position cursor ch rest idx with ⟨hstops, -⟩ | ⟨-, heq⟩
  · exact absurd hstops h
  · exact heq

theorem not_stops_step {cursor position : TextPosition} {ch : Char} (h : (cursor.step ch).AtOrBefore position) :
    ¬Stops position cursor ch := by
  rintro (hreached | ⟨rfl, hline⟩)
  · exact not_reached_step h hreached
  · have hnext : (cursor.step '\n').line = cursor.line + 1 := rfl
    unfold AtOrBefore Reached at h
    omega

theorem scanToPosition_past {position : TextPosition} {pre post : List Char} {idx : Nat} {cursor : TextPosition}
    (h : cursor.Fits (pre ++ post)) (hbefore : (cursor.past pre).AtOrBefore position) :
    scanToPosition position (pre ++ post) idx cursor =
      scanToPosition position post (idx + utf8Length pre) (cursor.past pre) := by
  induction pre generalizing idx cursor with
  | nil => rfl
  | cons ch pre ih =>
    obtain ⟨hadvance, hrest⟩ := h.cons
    have hstep : (cursor.step ch).AtOrBefore position := (atOrBefore_past _ pre).trans hbefore
    rw [List.cons_append, scanToPosition_of_not_stops (not_stops_step hstep), hadvance, utf8Length_cons,
      ← Nat.add_assoc]
    exact ih hrest hbefore

theorem scanToPosition_reached {position cursor : TextPosition} {text : List Char} {idx : Nat}
    (h : Reached position cursor) : scanToPosition position text idx cursor = idx := by
  cases text with
  | nil => rfl
  | cons ch rest => exact scanToPosition_of_stops (.inl h)

theorem positionToByteOffset_past {position : TextPosition} {pre post : List Char} (h : Fits ⟨0, 0⟩ (pre ++ post))
    (hbefore : (past ⟨0, 0⟩ pre).AtOrBefore position) :
    positionToByteOffset (pre ++ post) position =
      scanToPosition position post (utf8Length pre) (past ⟨0, 0⟩ pre) := by
  rw [positionToByteOffset, scanToPosition_past h hbefore, Nat.zero_add]

theorem positionToByteOffset_boundary {pre post : List Char} (h : Fits ⟨0, 0⟩ (pre ++ post)) :
    positionToByteOffset (pre ++ post) (past ⟨0, 0⟩ pre) = utf8Length pre := by
  rw [positionToByteOffset_past h (atOrBefore_refl _), scanToPosition_reached (atOrBefore_refl _)]

theorem scanToPosition_prefix (position : TextPosition) (text : List Char) (idx : Nat) (cursor : TextPosition) :
    ∃ pre, pre <+: text ∧ scanToPosition position text idx cursor = idx + utf8Length pre := by
  induction text generalizing idx cursor with
  | nil => exact ⟨[], List.nil_prefix, rfl⟩
  | cons ch rest ih =>
    rcases scanToPosition_cons position cursor ch rest idx with ⟨-, heq⟩ | ⟨-, heq⟩
    · exact ⟨[], List.nil_prefix, heq⟩
    · obtain ⟨pre, hpre, hscan⟩ := ih (idx + ch.utf8Size) (cursor.advance ch)
      refine ⟨ch :: pre, List.cons_prefix_cons.2 ⟨rfl, hpre⟩, ?_⟩
      rw [heq, hscan, utf8Length_cons, Nat.add_assoc]

theorem Stops.of_later {position later cursor : TextPosition} {ch : Char} (hle : position.AtOrBefore later)
    (h : Stops later cursor ch) : Stops position cursor ch := by
  rcases h with hreached | ⟨rfl, hline⟩
  · exact .inl (hle.trans hreached)
  · rcases hle with hless | ⟨heq, -⟩
    · exact .inl (.inl (hline ▸ hless))
    · exact .inr ⟨rfl, hline.trans heq⟩

theorem scanToPosition_mono {position later : TextPosition} (hle : position.AtOrBefore later) (text : List Char)
    (idx : Nat) (cursor : TextPosition) :
    scanToPosition position text idx cursor ≤ scanToPosition later text idx cursor := by
  induction text generalizing idx cursor with
  | nil => exact le_refl _
  | cons ch rest ih =>
    by_cases hstops : Stops position cursor ch
    · obtain ⟨pre, -, hpre⟩ := scanToPosition_prefix later (ch :: rest) idx cursor
      rw [scanToPosition_of_stops hstops, hpre]
      exact Nat.le_add_right _ _
    · have hlater : ¬Stops later cursor ch := fun h => hstops (h.of_later hle)
      rw [scanToPosition_of_not_stops hstops, scanToPosition_of_not_stops hlater]
      exact ih _ _

/-! ## Lines -/

def EndsLine (pre : List Char) : Prop := pre = [] ∨ ∃ body, pre = body ++ ['\n']

theorem past_line {line : List Char} (hline : '\n' ∉ line) (cursor : TextPosition) :
    cursor.past line = ⟨cursor.line, cursor.character + utf16Length line⟩ := by
  induction line generalizing cursor with
  | nil => rfl
  | cons ch rest ih =>
    obtain ⟨hch, hrest⟩ := not_or.1 (mt List.mem_cons.2 hline)
    have hstep : cursor.step ch = ⟨cursor.line, cursor.character + lenUtf16 ch⟩ := if_neg (Ne.symm hch)
    have hpast : cursor.past (ch :: rest) = (cursor.step ch).past rest := rfl
    rw [hpast, hstep, ih hrest]
    simp only [utf16Length, List.map_cons, List.sum_cons, Nat.add_assoc]

theorem past_line_count (text : List Char) (cursor : TextPosition) :
    (cursor.past text).line = cursor.line + text.count '\n' := by
  induction text generalizing cursor with
  | nil => rfl
  | cons ch rest ih =>
    have hpast : cursor.past (ch :: rest) = (cursor.step ch).past rest := rfl
    rw [hpast, ih, List.count_cons]
    unfold step
    by_cases hch : ch = '\n'
    · simp only [hch, if_true, beq_self_eq_true]
      omega
    · simp only [hch, if_false, beq_iff_eq]
      omega

theorem EndsLine.past {pre : List Char} (h : EndsLine pre) : past ⟨0, 0⟩ pre = ⟨pre.count '\n', 0⟩ := by
  have hcharacter : (TextPosition.past ⟨0, 0⟩ pre).character = 0 := by
    rcases h with rfl | ⟨body, rfl⟩
    · rfl
    · rw [past_append]
      rfl
  have hline := past_line_count pre ⟨0, 0⟩
  rw [Nat.zero_add] at hline
  exact TextPosition.mk.injEq .. ▸ ⟨hline, hcharacter⟩

theorem EndsLine.past_line {pre left : List Char} (h : EndsLine pre) (hleft : '\n' ∉ left) :
    TextPosition.past ⟨0, 0⟩ (pre ++ left) = ⟨pre.count '\n', utf16Length left⟩ := by
  rw [past_append, h.past, TextPosition.past_line hleft]
  simp only [Nat.zero_add]

theorem positionToByteOffset_line_end {pre line post : List Char} {column : Nat}
    (h : Fits ⟨0, 0⟩ (pre ++ line ++ post)) (hpre : EndsLine pre) (hline : '\n' ∉ line)
    (hpost : post = [] ∨ ∃ rest, post = '\n' :: rest) (hcolumn : utf16Length line ≤ column) :
    positionToByteOffset (pre ++ line ++ post) ⟨pre.count '\n', column⟩ = utf8Length (pre ++ line) := by
  have hend := hpre.past_line hline
  have hbefore : (past ⟨0, 0⟩ (pre ++ line)).AtOrBefore ⟨pre.count '\n', column⟩ := by
    rw [hend]
    exact .inr ⟨rfl, hcolumn⟩
  rw [positionToByteOffset_past h hbefore]
  rcases hpost with rfl | ⟨rest, rfl⟩
  · rfl
  · exact scanToPosition_of_stops (.inr ⟨rfl, by rw [hend]⟩)

theorem positionToByteOffset_inside {pre left post : List Char} {ch : Char} {column : Nat}
    (h : Fits ⟨0, 0⟩ (pre ++ left ++ ch :: post)) (hpre : EndsLine pre) (hleft : '\n' ∉ left) (hch : ch ≠ '\n')
    (habove : utf16Length left < column) (hbelow : column < utf16Length left + lenUtf16 ch) :
    positionToByteOffset (pre ++ left ++ ch :: post) ⟨pre.count '\n', column⟩ =
      utf8Length (pre ++ left ++ [ch]) := by
  have hstart := hpre.past_line hleft
  have hbefore : (past ⟨0, 0⟩ (pre ++ left)).AtOrBefore ⟨pre.count '\n', column⟩ := by
    rw [hstart]
    exact .inr ⟨rfl, habove.le⟩
  have hnot : ¬Stops ⟨pre.count '\n', column⟩ (past ⟨0, 0⟩ (pre ++ left)) ch := by
    rw [hstart]
    rintro ((hless | ⟨-, hle⟩) | ⟨hnewline, -⟩)
    · exact lt_irrefl _ hless
    · exact absurd habove (not_lt.2 hle)
    · exact hch hnewline
  have hadvance : (past ⟨0, 0⟩ (pre ++ left)).advance ch = ⟨pre.count '\n', utf16Length left + lenUtf16 ch⟩ := by
    have hfits : (past ⟨0, 0⟩ (pre ++ left)).Fits (ch :: post) := fun more hmore => by
      rw [← past_append]
      exact h _ (List.prefix_append_right_inj _ |>.2 hmore)
    rw [hfits.cons.1, hstart]
    exact if_neg hch
  have hreached : Reached ⟨pre.count '\n', column⟩ ⟨pre.count '\n', utf16Length left + lenUtf16 ch⟩ :=
    .inr ⟨rfl, hbelow.le⟩
  rw [positionToByteOffset_past h hbefore, scanToPosition_of_not_stops hnot, hadvance, scanToPosition_reached hreached,
    utf8Length_append _ [ch]]
  simp [utf8Length]

/-! ## The conversions together -/

/-- The two conversions of a text whose positions fit `u32`. -/
theorem conversions_agree (source : List Char) (h : Fits ⟨0, 0⟩ source) :
    (∀ pre, pre <+: source →
        positionToByteOffset source (byteOffsetToPosition source (utf8Length pre)) = utf8Length pre) ∧
      (∀ position, ∃ pre, pre <+: source ∧ positionToByteOffset source position = utf8Length pre) ∧
      (∀ position later : TextPosition, position.AtOrBefore later →
        positionToByteOffset source position ≤ positionToByteOffset source later) ∧
      (∀ pre line post column, source = pre ++ line ++ post → EndsLine pre → '\n' ∉ line →
        (post = [] ∨ ∃ rest, post = '\n' :: rest) → utf16Length line ≤ column →
        positionToByteOffset source ⟨pre.count '\n', column⟩ = utf8Length (pre ++ line)) ∧
      (∀ pre left ch post column, source = pre ++ left ++ ch :: post → EndsLine pre → '\n' ∉ left → ch ≠ '\n' →
        utf16Length left < column → column < utf16Length left + lenUtf16 ch →
        positionToByteOffset source ⟨pre.count '\n', column⟩ = utf8Length (pre ++ left ++ [ch])) ∧
      ∀ offset offset', offset ≤ offset' →
        (byteOffsetToPosition source offset).AtOrBefore (byteOffsetToPosition source offset') := by
  refine ⟨?_, ?_, ?_, ?_, ?_, fun _ _ hle => byteOffsetToPosition_mono h hle⟩
  · rintro pre ⟨post, rfl⟩
    rw [byteOffsetToPosition_boundary h, positionToByteOffset_boundary h]
  · intro position
    obtain ⟨pre, hpre, hscan⟩ := scanToPosition_prefix position source 0 ⟨0, 0⟩
    exact ⟨pre, hpre, by rw [positionToByteOffset, hscan, Nat.zero_add]⟩
  · exact fun position later hle => scanToPosition_mono hle source 0 ⟨0, 0⟩
  · rintro pre line post column rfl hpre hline hpost hcolumn
    exact positionToByteOffset_line_end h hpre hline hpost hcolumn
  · rintro pre left ch post column rfl hpre hleft hch habove hbelow
    exact positionToByteOffset_inside h hpre hleft hch habove hbelow

/-- A text of characters of four and one bytes. -/
theorem conversions_agree_astral :
    positionToByteOffset ['𝔸', 'x', '\n'] ⟨0, 1⟩ = 4 ∧
      positionToByteOffset ['𝔸', 'x', '\n'] (byteOffsetToPosition ['𝔸', 'x', '\n'] 4) = 4 := by
  have hfits : Fits ⟨0, 0⟩ ['𝔸', 'x', '\n'] := by
    intro pre hpre
    have hmem : pre ∈ ['𝔸', 'x', '\n'].inits := List.mem_inits _ _ |>.2 hpre
    fin_cases hmem <;> decide
  have h := conversions_agree ['𝔸', 'x', '\n'] hfits
  exact ⟨h.2.2.2.2.1 [] [] '𝔸' ['x', '\n'] 1 rfl (.inl rfl) (by decide) (by decide) (by decide) (by decide),
    h.1 ['𝔸'] ⟨['x', '\n'], rfl⟩⟩

end TextPosition

end Rumoca.Core
