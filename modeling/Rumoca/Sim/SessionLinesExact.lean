import Rumoca.Sim.SessionLines
/-!
# One result for each line

A bounded read collects the first line up to its limit, and skipping the rest
of a line leaves what follows it. So a call answers the first line of the
bytes left, whatever the chunks, and the calls answer all lines in order.
-/

namespace Rumoca.Sim

open Lib

variable {delimiter : UInt8}

theorem Take.used_of_notMem {t : Take} (h : delimiter ∉ t.fillBuf) : t.used delimiter = t.fillBuf.length := by
  unfold Take.used
  rw [List.idxOf?_eq_none_iff.2 h]

theorem Take.used_of_mem {t : Take} (h : delimiter ∈ t.fillBuf) : ∃ body rest, delimiter ∉ body ∧
    t.fillBuf = body ++ delimiter :: rest ∧ t.used delimiter = (body ++ [delimiter]).length := by
  unfold Take.used
  cases hidx : t.fillBuf.idxOf? delimiter with
  | none => exact absurd h (List.idxOf?_eq_none_iff.1 hidx)
  | some position =>
    obtain ⟨body, rest, hbody, hfill, rfl⟩ := idxOf?_split hidx
    exact ⟨body, rest, hbody, hfill, by rw [List.length_append]; rfl⟩

theorem Take.fillBuf_eq (t : Take) : t.fillBuf = t.inner.fillBuf.take t.limit := by
  unfold Take.fillBuf
  split_ifs with h
  · rw [h, List.take_zero]
  · rfl

theorem Take.bytes_eq (t : Take) : ∃ rest, t.inner.bytes = t.fillBuf ++ rest := by
  obtain ⟨rest, hrest⟩ := t.inner.fillBuf_prefix
  rw [t.fillBuf_eq, ← hrest]
  exact ⟨t.inner.fillBuf.drop t.limit ++ rest, by rw [← List.append_assoc, List.take_append_drop]⟩

theorem Take.bytes_consume {t : Take} {amount : Nat} (h : amount ≤ t.fillBuf.length) :
    (t.consume amount).inner.bytes = t.inner.bytes.drop amount ∧ (t.consume amount).limit = t.limit - amount := by
  have hle : amount ≤ t.limit := h.trans t.fillBuf_length_le
  have hinner : amount ≤ t.inner.fillBuf.length := by
    rw [t.fillBuf_eq, List.length_take] at h
    omega
  unfold Take.consume
  rw [Nat.min_eq_left hle]
  exact ⟨Reader.bytes_consume hinner, rfl⟩

theorem readUntil_spec (delimiter : UInt8) (t : Take) (buffer : List UInt8) (read : Nat) : ∃ t',
    Take.readUntil delimiter t buffer read =
      (t', buffer ++ (cutLine delimiter t.inner.bytes).1.take t.limit,
        read + ((cutLine delimiter t.inner.bytes).1.take t.limit).length) ∧
      t'.inner.bytes = t.inner.bytes.drop ((cutLine delimiter t.inner.bytes).1.take t.limit).length := by
  induction hlimit : t.limit using Nat.strongRecOn generalizing t buffer read with
  | _ limit ih =>
    subst hlimit
    obtain ⟨after, hafter⟩ := t.bytes_eq
    have hfill := t.fillBuf_length_le
    unfold Take.readUntil
    dsimp only
    by_cases hmem : delimiter ∈ t.fillBuf
    · -- the line ends in the chunk
      obtain ⟨body, rest, hbody, hchunk, hused⟩ := Take.used_of_mem hmem
      have hline : (cutLine delimiter t.inner.bytes).1 = body ++ [delimiter] := by
        rw [hafter, hchunk, List.append_assoc, List.cons_append, cutLine_stop hbody]
      have htake : (body ++ [delimiter]).take t.limit = body ++ [delimiter] := by
        refine List.take_of_length_le (le_trans ?_ hfill)
        rw [hchunk, List.length_append, List.length_append]
        simp
      have hchunk' : t.fillBuf.take (t.used delimiter) = body ++ [delimiter] := by
        rw [hused, hchunk, show body ++ delimiter :: rest = (body ++ [delimiter]) ++ rest by simp, List.take_left]
      rw [dif_pos (.inl hmem), hline, htake, hchunk', ← hused]
      exact ⟨_, rfl, (Take.bytes_consume (t.used_le delimiter)).1⟩
    · have hused := Take.used_of_notMem hmem
      have hline : (cutLine delimiter t.inner.bytes).1 = t.fillBuf ++ (cutLine delimiter after).1 := by
        rw [hafter, cutLine_append_of_notMem hmem]
      rw [hused, List.take_length]
      by_cases hempty : t.fillBuf.length = 0
      · -- the limit or the end of the stream
        rw [dif_pos (.inr hempty)]
        have hnil := List.eq_nil_of_length_eq_zero hempty
        have htake : (cutLine delimiter t.inner.bytes).1.take t.limit = [] := by
          rcases Nat.eq_zero_or_pos t.limit with hzero | hpos
          · rw [hzero, List.take_zero]
          · have hend : t.inner.fillBuf = [] := by
              have := t.fillBuf_eq
              rw [hnil] at this
              exact (List.take_eq_nil_iff.1 this.symm).resolve_left (Nat.ne_of_gt hpos)
            rw [Reader.fillBuf_eq_nil.1 hend]
            exact List.take_nil
        rw [htake, hnil]
        exact ⟨_, rfl, (Take.bytes_consume (t := t) (Nat.zero_le _)).1⟩
      · rw [dif_neg (not_or.2 ⟨hmem, hempty⟩)]
        obtain ⟨hbytes, hlimit⟩ := Take.bytes_consume (t := t) le_rfl
        rw [hafter, List.drop_left] at hbytes
        obtain ⟨t', hread, hrest⟩ := ih (t.consume t.fillBuf.length).limit (by omega) (t.consume t.fillBuf.length)
          (buffer ++ t.fillBuf) (read + t.fillBuf.length) rfl
        rw [hbytes, hlimit] at hread hrest
        have htake : (cutLine delimiter t.inner.bytes).1.take t.limit =
            t.fillBuf ++ (cutLine delimiter after).1.take (t.limit - t.fillBuf.length) := by
          rw [hline, List.take_append, List.take_of_length_le hfill]
        rw [htake, List.length_append]
        refine ⟨t', ?_, ?_⟩
        · rw [hread, List.append_assoc, Nat.add_assoc]
        · rw [hrest, hafter, List.drop_append]
          simp

theorem bytes_discardRestOfLine (reader : Reader) :
    (discardRestOfLine reader).bytes = (cutLine newline reader.bytes).2 := by
  induction hlength : reader.bytes.length using Nat.strongRecOn generalizing reader with
  | _ length ih =>
    subst hlength
    unfold discardRestOfLine
    obtain ⟨after, hafter⟩ := reader.fillBuf_prefix
    split_ifs with hend
    · rw [Reader.fillBuf_eq_nil.1 hend]
      rfl
    · cases hidx : reader.fillBuf.idxOf? newline with
      | some position =>
        obtain ⟨body, rest, hbody, hchunk, rfl⟩ := idxOf?_split hidx
        dsimp only
        have hle : body.length + 1 ≤ reader.fillBuf.length := by
          rw [hchunk, List.length_append, List.length_cons]
          omega
        rw [Reader.bytes_consume hle, ← hafter, hchunk, List.append_assoc, List.cons_append, cutLine_stop hbody]
        rw [show body ++ newline :: (rest ++ after) = (body ++ [newline]) ++ (rest ++ after) by simp]
        exact List.drop_left' (by simp)
      | none =>
        have hnot := List.idxOf?_eq_none_iff.1 hidx
        dsimp only
        have hbytes : (reader.consume reader.fillBuf.length).bytes = after := by
          rw [Reader.bytes_consume le_rfl, ← hafter, List.drop_left]
        have hlt : (reader.consume reader.fillBuf.length).bytes.length < reader.bytes.length := by
          have hpos := List.length_pos_iff.2 hend
          rw [hbytes, ← hafter, List.length_append]
          omega
        rw [ih _ hlt _ rfl, hbytes, ← hafter, cutLine_append_of_notMem hnot]

/-! ## Answers -/

section
variable {describe : List UInt8 → String} {maxLineBytes : Nat}

def content (line : List UInt8) : List UInt8 := if line.getLast? = some newline then line.dropLast else line

def lineAnswer (describe : List UInt8 → String) (maxLineBytes : Nat) (line : List UInt8) : Except String String :=
  if (content line).length ≤ maxLineBytes then lineFromUtf8 describe line else .error (lineTooLong maxLineBytes)

def Fits (maxLineBytes : Nat) (stream : List UInt8) : Prop :=
  maxLineBytes + 1 < usizeLimit ∨ stream.length < usizeLimit

/-- A line ends at its newline, or nothing follows it. -/
inductive IsLine : (line rest : List UInt8) → Prop
  | ended {body rest : List UInt8} (clean : newline ∉ body) : IsLine (body ++ [newline]) rest
  | tail {line : List UInt8} (clean : newline ∉ line) : IsLine line []

theorem isLine_cutLine (bytes : List UInt8) : IsLine (cutLine newline bytes).1 (cutLine newline bytes).2 := by
  rcases cutLine_cases newline bytes with ⟨body, rest, hbody, -, hcut⟩ | ⟨hnot, hcut⟩
  · rw [hcut]
    exact .ended hbody
  · rw [hcut]
    exact .tail hnot

variable {line rest : List UInt8}

theorem IsLine.getLast?_take (h : IsLine line rest) {count : Nat} (hlt : count < line.length) :
    (line.take count).getLast? ≠ some newline := by
  have hclean : newline ∉ line.take count := by
    cases h with
    | ended clean =>
      rw [List.length_append] at hlt
      rw [List.take_append_of_le_length (Nat.lt_succ_iff.1 hlt)]
      exact fun hmem => clean (List.mem_of_mem_take hmem)
    | tail clean => exact fun hmem => clean (List.mem_of_mem_take hmem)
  exact fun hlast => hclean (List.mem_of_getLast? hlast)

theorem IsLine.content_length (h : IsLine line rest) :
    (line.getLast? = some newline ∧ (content line).length + 1 = line.length) ∨
      (line.getLast? ≠ some newline ∧ content line = line ∧ rest = []) := by
  unfold content
  cases h with
  | ended clean =>
    refine .inl ⟨List.getLast?_concat, ?_⟩
    rw [if_pos List.getLast?_concat, List.dropLast_concat, List.length_append]
    rfl
  | tail clean =>
    have hlast : line.getLast? ≠ some newline := fun hlast => clean (List.mem_of_getLast? hlast)
    exact .inr ⟨hlast, if_neg hlast, rfl⟩

/-- A call answers the first line and leaves the bytes after it; at the end of the stream it answers nothing. -/
theorem nextCommandLine_spec (describe : List UInt8 → String) {reader : Reader} (hfits : Fits maxLineBytes reader.bytes) :
    (reader.bytes = [] → (nextCommandLine describe maxLineBytes reader).2 = none) ∧
      (reader.bytes ≠ [] → ∃ reader', nextCommandLine describe maxLineBytes reader =
          (reader', some (lineAnswer describe maxLineBytes (cutLine newline reader.bytes).1)) ∧
        reader'.bytes = (cutLine newline reader.bytes).2) := by
  obtain ⟨limit, hlimit⟩ : ∃ limit, limit = min (maxLineBytes + 1) (usizeLimit - 1) := ⟨_, rfl⟩
  have hlimits : 1 < usizeLimit := by decide
  obtain ⟨t', hread, hbytes⟩ := readUntil_spec newline ⟨reader, limit⟩ [] 0
  dsimp only at hread hbytes
  rw [List.nil_append, Nat.zero_add] at hread
  unfold nextCommandLine
  rw [← hlimit]
  simp only [hread]
  have happend := cutLine_append newline reader.bytes
  have hshape := isLine_cutLine reader.bytes
  have hdrop := cutLine_drop newline reader.bytes
  constructor
  · intro hnil
    have htake : (cutLine newline reader.bytes).1.take limit = [] := by
      rw [hnil]
      exact List.take_nil
    rw [htake]
    rfl
  · intro hne
    generalize (cutLine newline reader.bytes).1 = line at happend hbytes hshape hdrop ⊢
    generalize (cutLine newline reader.bytes).2 = rest at happend hshape hdrop ⊢
    have hpos : 0 < line.length := by
      cases hshape with
      | ended clean => simp
      | tail clean =>
        rw [List.append_nil] at happend
        exact List.length_pos_iff.2 (happend ▸ hne)
    have hsome : ¬(line.take limit).length = 0 := by
      rw [List.length_take]
      omega
    rw [if_neg hsome]
    unfold lineAnswer
    have hcontent := hshape.content_length
    rcases Nat.lt_or_ge limit line.length with hlong | hshort
    · -- the read stopped inside the line
      have hline : line.length ≤ reader.bytes.length := by
        rw [← happend, List.length_append]
        exact Nat.le_add_right _ _
      have hmax : limit = maxLineBytes + 1 := by
        rcases hfits with hfits | hfits
        · omega
        · omega
      have hlength : (line.take limit).length = limit := by
        rw [List.length_take]
        omega
      have hover : ¬(content line).length ≤ maxLineBytes := by
        rcases hcontent with ⟨-, hcontent⟩ | ⟨-, hcontent, -⟩
        · omega
        · rw [hcontent]
          omega
      rw [if_pos ⟨hshape.getLast?_take hlong, by omega⟩, if_neg hover]
      refine ⟨_, rfl, ?_⟩
      rw [bytes_discardRestOfLine, hbytes, hlength]
      exact hdrop limit hlong
    · rw [List.take_of_length_le hshort] at hbytes ⊢
      rw [← happend, List.drop_left] at hbytes
      rcases hcontent with ⟨hlast, hcontent⟩ | ⟨hlast, hcontent, hrest⟩
      · rw [if_neg fun h => h.1 hlast, if_pos (by omega)]
        exact ⟨_, rfl, hbytes⟩
      · rw [hcontent]
        by_cases hover : maxLineBytes < line.length
        · rw [if_pos ⟨hlast, hover⟩, if_neg (Nat.not_le.2 hover)]
          refine ⟨_, rfl, ?_⟩
          rw [bytes_discardRestOfLine, hbytes, hrest]
          rfl
        · rw [if_neg fun h => hover h.2, if_pos (Nat.not_lt.1 hover)]
          exact ⟨_, rfl, hbytes⟩

theorem Fits.after {stream : List UInt8} (h : Fits maxLineBytes stream) :
    Fits maxLineBytes (cutLine newline stream).2 := by
  refine h.imp id fun hlt => Nat.lt_of_le_of_lt ?_ hlt
  have happend := congrArg List.length (cutLine_append newline stream)
  rw [List.length_append] at happend
  omega

/-- However the bytes are split into chunks, repeated calls end after the last line, and answer each line in order with
nothing but that line consumed. -/
theorem commandLines_exact (describe : List UInt8 → String) (maxLineBytes : Nat) {reader : Reader}
    (hfits : Fits maxLineBytes reader.bytes) {calls : Nat}
    (hcalls : (linesWithRest newline reader.bytes).length < calls) :
    commandLines describe maxLineBytes calls reader =
      some ((linesWithRest newline reader.bytes).map fun entry => (lineAnswer describe maxLineBytes entry.1, entry.2)) := by
  induction calls generalizing reader with
  | zero => exact absurd hcalls (Nat.not_lt_zero _)
  | succ calls ih =>
    obtain ⟨hend, hline⟩ := nextCommandLine_spec describe hfits
    unfold commandLines
    by_cases hnil : reader.bytes = []
    · have hnone := hend hnil
      rw [hnil, linesWithRest_nil]
      split
      · rfl
      · rename_i heq
        rw [heq] at hnone
        cases hnone
    · obtain ⟨reader', hnext, hbytes⟩ := hline hnil
      rw [linesWithRest_of_ne_nil hnil] at hcalls ⊢
      simp only [hnext]
      rw [ih (hbytes ▸ hfits.after) (by rw [hbytes]; simpa using hcalls), hbytes]
      rfl

end

def twoChunks : Reader := ⟨[[104], [10, 105]], by decide⟩

theorem linesWithRest_twoChunks :
    linesWithRest newline twoChunks.bytes = [([104, 10], [105]), ([105], [])] := by
  rw [show twoChunks.bytes = [104, 10, 105] from rfl, linesWithRest_of_ne_nil (by decide),
    show cutLine newline [104, 10, 105] = ([104, 10], [105]) by decide, linesWithRest_of_ne_nil (by decide),
    show cutLine newline [105] = ([105], []) by decide, linesWithRest_nil]

theorem commandLines_exact_twoChunks : commandLines (fun _ => "") 1 3 twoChunks =
    some [(lineAnswer (fun _ => "") 1 [104, 10], [105]), (lineAnswer (fun _ => "") 1 [105], [])] := by
  have hcalls : (linesWithRest newline twoChunks.bytes).length < 3 := by
    rw [linesWithRest_twoChunks]
    decide
  have h := commandLines_exact (fun _ => "") 1 (.inl (by decide)) hcalls
  rwa [linesWithRest_twoChunks] at h

end Rumoca.Sim
