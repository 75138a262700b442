import Rumoca.Structural.AssignmentMax
import Rumoca.Structural.Offsets
/-!
# The sweeps reach the least offsets

A sweep is the round of `rowRound` on lists, so `n` sweeps reach the least
offsets and one more sees that nothing changes. The least offsets are a dual
solution exact on the matching, which is what the certificate checks.
-/

namespace Rumoca.Structural

open Rumoca.Lib

section
variable {rows : List (List SignatureEntry)} {c lower : Fin rows.length → Nat}

theorem getElem?_ofFn {α : Type} {n : Nat} (f : Fin n → α) (i : Fin n) : (List.ofFn f)[(i : Nat)]? = some (f i) := by
  simp

theorem set_ofFn {α : Type} {n : Nat} (f : Fin n → α) (i : Fin n) (x : α) :
    (List.ofFn f).set i x = List.ofFn (Function.update f i x) := by
  refine List.ext_getElem (by simp) fun k h1 h2 => ?_
  rw [List.length_set, List.length_ofFn] at h1
  rw [List.getElem_set, List.getElem_ofFn, List.getElem_ofFn]
  by_cases h : (i : Nat) = k
  · subst h
    simp
  · rw [if_neg h, Function.update_of_ne]
    exact fun hk => h (Fin.ext_iff.1 hk).symm

theorem replicate_getD {n column : Nat} : ((List.replicate n false)[column]?).getD false = false := by
  rw [List.getElem?_replicate]
  split <;> rfl

/-! ## Raising the columns -/

/-- The columns after some entries asked for their orders. -/
structure Raising (rows : List (List SignatureEntry)) (lower c : Fin rows.length → Nat)
    (placed : Nat → SignatureEntry → Prop) (d : Fin rows.length → Nat) : Prop where
  lower_le : ∀ j, lower j ≤ d j
  order_le : ∀ i j : Fin rows.length, ∀ entry, placed i entry → entry.column = j → c i + entry.order ≤ d j
  reason : ∀ j, d j = lower j ∨ ∃ i : Fin rows.length, ∃ entry, placed i entry ∧ entry.column = j ∧
    d j = c i + entry.order

theorem signatureOrder_eq (hsig : Signature rows rows.length) {i j : Fin rows.length} {entry : SignatureEntry}
    (he : Assignment.Entry rows i entry) (hj : entry.column = j) : signatureOrder rows i j = entry.order := by
  unfold signatureOrder
  rw [← hj]
  exact orderAt_eq (hsig.distinct i) he

theorem Raising.isDemand (hsig : Signature rows rows.length) {d : Fin rows.length → Nat}
    (h : Raising rows lower c (Assignment.Entry rows) d) :
    IsDemand (SignatureEdge rows) (signatureOrder rows) lower c d := by
  refine ⟨h.lower_le, fun i j hij => ?_, fun j => ?_⟩
  · obtain ⟨entry, he, hj⟩ := hij
    rw [signatureOrder_eq hsig he hj]
    exact h.order_le i j entry he hj
  · rcases h.reason j with heq | ⟨i, entry, he, hj, heq⟩
    · exact .inl heq
    · exact .inr ⟨i, ⟨entry, he, hj⟩, by rw [signatureOrder_eq hsig he hj]; exact heq⟩

def FitsU32 (rows : List (List SignatureEntry)) (c : Fin rows.length → Nat) : Prop :=
  ∀ i : Fin rows.length, ∀ entry, Assignment.Entry rows i entry → c i + entry.order < u32Limit

theorem relaxEntry_spec (hsig : Signature rows rows.length) (hfits : FitsU32 rows c) {row : Fin rows.length}
    {done : List SignatureEntry} {entry : SignatureEntry} (he : Assignment.Entry rows row entry)
    {d : Fin rows.length → Nat} (h : Raising rows lower c (Assignment.Placed rows row done) d) :
    ∃ d', relaxEntry (List.ofFn c) (List.replicate rows.length false) row (List.ofFn d) entry = pure (List.ofFn d') ∧
      Raising rows lower c (Assignment.Placed rows row (done ++ [entry])) d' := by
  have hvalue : checkedU32 (c row + entry.order) = some (c row + entry.order) :=
    checkedU32_eq_some.2 ⟨rfl, hfits row entry he⟩
  let column : Fin rows.length := ⟨entry.column, hsig.column_lt row entry he⟩
  have htarget : (List.ofFn d)[entry.column]? = some (d column) := getElem?_ofFn d column
  refine ⟨Function.update d column (max (d column) (c row + entry.order)), ?_, ?_⟩
  · simp only [relaxEntry, replicate_getD, Bool.false_eq_true, if_false, getElem?_ofFn c row, orPanic_some, pure_bind,
      hvalue, orError_some, htarget]
    rw [← set_ofFn]
  · have hle : ∀ j, d j ≤ Function.update d column (max (d column) (c row + entry.order)) j := by
      intro j
      by_cases hj : j = column
      · subst hj
        simp
      · rw [Function.update_of_ne hj]
    refine ⟨fun j => (h.lower_le j).trans (hle j), fun i j e hp hj => ?_, fun j => ?_⟩
    · unfold Assignment.Placed at hp
      rw [List.mem_append, List.mem_singleton] at hp
      by_cases hnew : (i : Nat) = row ∧ e = entry
      · obtain ⟨hi, rfl⟩ := hnew
        obtain rfl := Fin.ext hi
        have hjc : j = column := Fin.ext hj.symm
        rw [hjc, Function.update_self]
        exact le_max_right _ _
      · refine (h.order_le i j e ?_ hj).trans (hle j)
        unfold Assignment.Placed
        tauto
    · have hmono : ∀ i e, Assignment.Placed rows row done i e → Assignment.Placed rows row (done ++ [entry]) i e := by
        unfold Assignment.Placed
        intro i e hp
        rw [List.mem_append]
        tauto
      by_cases hj : j = column
      · subst hj
        rw [Function.update_self]
        rcases le_total (c row + entry.order) (d column) with hmax | hmax
        · rw [max_eq_left hmax]
          exact (h.reason column).imp id fun ⟨i, e, hp, hrest⟩ => ⟨i, e, hmono i e hp, hrest⟩
        · rw [max_eq_right hmax]
          exact .inr ⟨row, entry, .inr ⟨rfl, by simp⟩, rfl, rfl⟩
      · rw [Function.update_of_ne hj]
        exact (h.reason j).imp id fun ⟨i, e, hp, hrest⟩ => ⟨i, e, hmono i e hp, hrest⟩

theorem relaxVariableOffsets_spec (hsig : Signature rows rows.length) (hfits : FitsU32 rows c) :
    relaxVariableOffsets (List.ofFn c) (List.ofFn lower) rows (List.replicate rows.length false) =
      pure (List.ofFn (demand (SignatureEdge rows) (signatureOrder rows) lower c)) := by
  have hstart : Raising rows lower c (Assignment.Placed rows 0 []) lower :=
    ⟨fun _ => le_rfl, fun i j entry hp _ => by simp [Assignment.Placed] at hp, fun _ => .inl rfl⟩
  obtain ⟨out, hrun, d, rfl, hd⟩ := foldlM_fallible (l := rows.zipIdx)
    (f := fun variableOrders (indexed : List SignatureEntry × Nat) => indexed.1.foldlM
      (relaxEntry (List.ofFn c) (List.replicate rows.length false) indexed.2) variableOrders)
    (fun done (variableOrders : List Nat) => ∃ d, variableOrders = List.ofFn d ∧
      Raising rows lower c (Assignment.Placed rows done.length []) d)
    (fun done row rest variableOrders heq hinv => by
      obtain ⟨d, rfl, hd⟩ := hinv
      have hget : rows.zipIdx[done.length]? = some row := by rw [heq]; simp
      rw [List.getElem?_zipIdx, Option.map_eq_some_iff] at hget
      obtain ⟨entries, hentries, rfl⟩ := hget
      have hk : done.length < rows.length := (List.getElem?_eq_some_iff.1 hentries).1
      have hrow : signatureRow rows done.length = entries := by rw [signatureRow, hentries]; rfl
      obtain ⟨out, hout, d', rfl, hd'⟩ := foldlM_fallible (l := entries)
        (f := relaxEntry (List.ofFn c) (List.replicate rows.length false) (⟨done.length, hk⟩ : Fin rows.length))
        (fun passed (variableOrders : List Nat) => ∃ d, variableOrders = List.ofFn d ∧
          Raising rows lower c (Assignment.Placed rows done.length passed) d)
        (fun passed entry left variableOrders hsplit hinner => by
          obtain ⟨d, rfl, hd⟩ := hinner
          have he : Assignment.Entry rows (⟨done.length, hk⟩ : Fin rows.length) entry := by
            rw [Assignment.Entry, hrow, hsplit]
            simp
          obtain ⟨d', hd', hraise⟩ := relaxEntry_spec hsig hfits he hd
          exact ⟨_, hd', d', rfl, hraise⟩) (s := List.ofFn d) ⟨d, rfl, hd⟩
      refine ⟨_, by simpa using hout, d', rfl, ?_⟩
      have hplaced : Assignment.Placed rows (done ++ [(entries, 0 + done.length)]).length [] =
          Assignment.Placed rows done.length entries := by
        funext i e
        simp only [Assignment.Placed, List.length_append, List.length_singleton, List.not_mem_nil, and_false, or_false]
        refine propext ⟨fun h => ?_, fun h => ?_⟩
        · by_cases hi : i = done.length
          · exact .inr ⟨hi, by rw [← hrow, ← hi]; exact h.2⟩
          · exact .inl ⟨by omega, h.2⟩
        · rcases h with h | ⟨rfl, h⟩
          · exact ⟨by omega, h.2⟩
          · exact ⟨by omega, by rw [hrow]; exact h⟩
      rw [hplaced]
      exact hd') (s := List.ofFn lower) ⟨lower, rfl, hstart⟩
  have hall : Raising rows lower c (Assignment.Entry rows) d := by
    have hplaced : ∀ i : Fin rows.length, ∀ e, Assignment.Placed rows rows.zipIdx.length [] i e ↔
        Assignment.Entry rows i e := by
      intro i e
      have := i.2
      simp only [Assignment.Placed, List.length_zipIdx, List.not_mem_nil, and_false, or_false, Assignment.Entry]
      exact and_iff_right this
    refine ⟨hd.lower_le, fun i j e hp hj => hd.order_le i j e ((hplaced i e).2 hp) hj, fun j => ?_⟩
    refine (hd.reason j).imp id ?_
    rintro ⟨i, e, hp, hrest⟩
    exact ⟨i, e, (hplaced i e).1 hp, hrest⟩
  rw [(isDemand_demand _ _ _ _).unique (hall.isDemand hsig)]
  exact hrun

/-! ## A sweep -/

variable {σ : Equiv.Perm (Fin rows.length)}

theorem find?_matched (hsig : Signature rows rows.length) {row column : Fin rows.length}
    (h : SignatureEdge rows row column) : ∃ entries entry, rows[(row : Nat)]? = some entries ∧
      (entries.find? fun entry => entry.column = (column : Nat)) = some entry ∧ Assignment.Entry rows row entry ∧
        entry.order = signatureOrder rows row column := by
  have hrow : signatureRow rows row = rows[(row : Nat)] := by
    rw [signatureRow, List.getElem?_eq_getElem row.2]
    rfl
  obtain ⟨entry, he, hcol⟩ := h
  cases hfind : rows[(row : Nat)].find? fun entry => entry.column = (column : Nat) with
  | none =>
    have := List.find?_eq_none.1 hfind entry (hrow ▸ he)
    simp [hcol] at this
  | some found =>
    have hmem : Assignment.Entry rows row found := by
      rw [Assignment.Entry, hrow]
      exact List.mem_of_find?_eq_some hfind
    have hstop := List.find?_some hfind
    exact ⟨_, found, List.getElem?_eq_getElem row.2, hfind, hmem,
      (signatureOrder_eq hsig hmem (of_decide_eq_true hstop)).symm⟩

/-- The row offsets of a round in the rows before `k`. -/
noncomputable def roundUpTo (rows : List (List SignatureEntry)) (lower : Fin rows.length → Nat) (σ : Equiv.Perm (Fin rows.length))
    (c : Fin rows.length → Nat) (k : Nat) (row : Fin rows.length) : Nat :=
  if (row : Nat) < k then rowRound (SignatureEdge rows) (signatureOrder rows) lower σ c row else c row

theorem roundUpTo_succ (row : Fin rows.length) : roundUpTo rows lower σ c (row + 1) =
    Function.update (roundUpTo rows lower σ c row) row
      (rowRound (SignatureEdge rows) (signatureOrder rows) lower σ c row) := by
  funext i
  by_cases hi : i = row
  · subst hi
    simp [roundUpTo]
  · have hne : (i : Nat) ≠ row := fun h => hi (Fin.ext h)
    rw [Function.update_of_ne hi]
    unfold roundUpTo
    by_cases hlt : (i : Nat) < row
    · rw [if_pos hlt, if_pos (by omega)]
    · rw [if_neg hlt, if_neg (by omega)]

theorem sweepRow_spec (lower c : Fin rows.length → Nat) (hsig : Signature rows rows.length) (hσ : ∀ row, SignatureEdge rows row (σ row))
    (row : Fin rows.length) (changed : Bool) :
    sweepRow rows (List.ofFn (demand (SignatureEdge rows) (signatureOrder rows) lower c))
        (List.ofFn (roundUpTo rows lower σ c row), changed) (σ row, row) =
      pure (List.ofFn (roundUpTo rows lower σ c (row + 1)),
        changed || rowRound (SignatureEdge rows) (signatureOrder rows) lower σ c row != c row) := by
  obtain ⟨entries, entry, hentries, hfind, -, horder⟩ := find?_matched hsig (hσ row)
  have hround := rowRound_add (o := signatureOrder rows) lower hσ c row
  have hraise := (differenceRound_rowRound (signatureOrder rows) lower hσ).le_self c row
  have hself : roundUpTo rows lower σ c row row = c row := if_neg (lt_irrefl _)
  have hsub : (if entry.order ≤ demand (SignatureEdge rows) (signatureOrder rows) lower c (σ row) then
      some (demand (SignatureEdge rows) (signatureOrder rows) lower c (σ row) - entry.order) else none) =
        some (rowRound (SignatureEdge rows) (signatureOrder rows) lower σ c row) := by
    rw [horder, ← hround, if_pos (Nat.le_add_left _ _), Nat.add_sub_cancel]
  simp only [sweepRow, hentries, orPanic_some, pure_bind, hfind, orError_some, getElem?_ofFn, hsub, hself]
  rw [if_neg (by omega), roundUpTo_succ, set_ofFn]

theorem sweepRows_spec (lower c : Fin rows.length → Nat) (hsig : Signature rows rows.length) (hσ : ∀ row, SignatureEdge rows row (σ row)) :
    ∃ changed, (matchingColumns σ).zipIdx.foldlM
        (sweepRow rows (List.ofFn (demand (SignatureEdge rows) (signatureOrder rows) lower c))) (List.ofFn c, false) =
      pure (List.ofFn (rowRound (SignatureEdge rows) (signatureOrder rows) lower σ c), changed) ∧
        (changed = true ↔ rowRound (SignatureEdge rows) (signatureOrder rows) lower σ c ≠ c) := by
  obtain ⟨⟨out, changed⟩, hrun, hout, hchanged⟩ := foldlM_fallible (l := (matchingColumns σ).zipIdx)
    (f := sweepRow rows (List.ofFn (demand (SignatureEdge rows) (signatureOrder rows) lower c)))
    (fun done s => s.1 = List.ofFn (roundUpTo rows lower σ c done.length) ∧ (s.2 = true ↔
      ∃ row : Fin rows.length, (row : Nat) < done.length ∧
        rowRound (SignatureEdge rows) (signatureOrder rows) lower σ c row ≠ c row))
    (fun done indexed rest s heq hinv => by
      obtain ⟨out, changed⟩ := s
      obtain ⟨hout, hchanged⟩ := hinv
      simp only at hout hchanged
      have hget : (matchingColumns σ).zipIdx[done.length]? = some indexed := by rw [heq]; simp
      rw [List.getElem?_zipIdx, Option.map_eq_some_iff] at hget
      obtain ⟨column, hcolumn, rfl⟩ := hget
      have hk : done.length < rows.length := by
        have := (List.getElem?_eq_some_iff.1 hcolumn).1
        rwa [matchingColumns, List.length_ofFn] at this
      have hmatched := getElem?_ofFn (fun row => (σ row : Nat)) ⟨done.length, hk⟩
      rw [matchingColumns, hmatched, Option.some.injEq] at hcolumn
      subst hcolumn
      have hstep := sweepRow_spec lower c hsig hσ ⟨done.length, hk⟩ changed
      refine ⟨_, by rw [hout, Nat.zero_add]; exact hstep, by rw [List.length_append, List.length_singleton], ?_⟩
      simp only [Bool.or_eq_true, bne_iff_ne, hchanged, List.length_append, List.length_singleton]
      constructor
      · rintro (⟨row, hlt, hne⟩ | hne)
        · exact ⟨row, by omega, hne⟩
        · exact ⟨⟨done.length, hk⟩, by simp, hne⟩
      · rintro ⟨row, hlt, hne⟩
        by_cases hrow : (row : Nat) < done.length
        · exact .inl ⟨row, hrow, hne⟩
        · have heq : row = ⟨done.length, hk⟩ := Fin.ext (by simp only; omega)
          exact .inr (heq ▸ hne)) (s := (List.ofFn c, false))
    ⟨congrArg List.ofFn (funext fun _ => (if_neg (Nat.not_lt_zero _)).symm), by simp⟩
  have hlen : (matchingColumns σ).zipIdx.length = rows.length := by simp [matchingColumns]
  rw [hlen] at hout hchanged
  have hround : roundUpTo rows lower σ c rows.length =
      rowRound (SignatureEdge rows) (signatureOrder rows) lower σ c := funext fun row => if_pos row.2
  simp only at hout hchanged
  refine ⟨changed, by rw [hrun, hout, hround], hchanged.trans ?_⟩
  rw [Ne, funext_iff, not_forall]
  constructor
  · rintro ⟨row, -, hne⟩
    exact ⟨row, hne⟩
  · rintro ⟨row, hne⟩
    exact ⟨row, row.2, hne⟩

/-! ## The sweeps -/

theorem leastOffsetsWithLowerBounds_spec (hsig : Signature rows rows.length)
    (hσ : ∀ row, SignatureEdge rows row (σ row)) {d : Fin rows.length → Nat}
    (h : IsLeastOffsets (SignatureEdge rows) (signatureOrder rows) lower σ c d) (hfits : ∀ j, d j < u32Limit) :
    leastOffsetsWithLowerBounds rows (matchingColumns σ) (List.ofFn lower) (List.replicate rows.length false) =
      pure (List.ofFn c, List.ofFn d) := by
  set round := rowRound (SignatureEdge rows) (signatureOrder rows) lower σ with hround
  have hdr := differenceRound_rowRound (signatureOrder rows) lower hσ
  have hleast := (isLeastOffsets_iff.1 h).1
  have hfitsAt : ∀ c', (∀ i, c' i ≤ c i) → FitsU32 rows c' := by
    intro c' hc' i entry he
    let column : Fin rows.length := ⟨entry.column, hsig.column_lt i entry he⟩
    have h1 := h.order_le i column ⟨entry, he, rfl⟩
    rw [signatureOrder_eq hsig he rfl] at h1
    have := hfits column
    have := hc' i
    omega
  have hlast : round^[rows.length] (fun _ => 0) = c := by
    have := hdr.iterate_eq_least hleast
    rwa [Fintype.card_fin] at this
  have hle : ∀ t i, round^[t] (fun _ => 0) i ≤ c i := by
    intro t
    induction t with
    | zero => exact fun i => Nat.zero_le _
    | succ t ih =>
      rw [Function.iterate_succ_apply']
      exact hdr.le_solution hleast.1 ih
  have hfixed : round c = c := funext fun i => le_antisymm (hdr.le_solution hleast.1 (fun _ => le_rfl) i) (hdr.le_self c i)
  have hsweep : ∀ left t, t + left = rows.length →
      sweepOffsets rows (matchingColumns σ) (List.ofFn lower) (List.replicate rows.length false) (left + 1)
        (List.ofFn (round^[t] fun _ => 0)) = pure (List.ofFn c, List.ofFn d) := by
    intro left
    induction left with
    | zero =>
      intro t ht
      rw [Nat.add_zero] at ht
      obtain ⟨changed, hrun, hchanged⟩ := sweepRows_spec lower c hsig hσ
      have hno : changed = false := by simpa [hfixed, ← hround] using hchanged
      obtain ⟨-, hd⟩ := eq_least_of_fixed h hσ (fun _ => le_rfl) hfixed
      rw [ht, hlast, sweepOffsets, relaxVariableOffsets_spec hsig (hfitsAt c fun _ => le_rfl), pure_bind, hrun,
        pure_bind]
      simp only [hno, Bool.false_eq_true, if_false, ← hround, hfixed, hd]
    | succ left ih =>
      intro t ht
      set c' := round^[t] fun _ => 0 with hc'
      obtain ⟨changed, hrun, hchanged⟩ := sweepRows_spec lower c' hsig hσ
      rw [sweepOffsets, relaxVariableOffsets_spec hsig (hfitsAt c' (hle t)), pure_bind, hrun, pure_bind]
      by_cases hfix : round c' = c'
      · have hno : changed = false := by simpa [hfix, ← hround] using hchanged
        obtain ⟨hc, hd⟩ : c' = c ∧ demand _ _ lower c' = d := eq_least_of_fixed h hσ (hle t) hfix
        simp only [hno, Bool.false_eq_true, if_false, ← hround, hfix, hd]
        rw [hc]
      · have hyes : changed = true := hchanged.2 hfix
        have hnext : round^[t + 1] (fun _ => 0) = round c' := Function.iterate_succ_apply' _ _ _
        simp only [hyes, if_true, ← hround, ← hnext]
        exact ih (t + 1) (by omega)
  have hzero : List.replicate rows.length 0 = List.ofFn fun _ : Fin rows.length => 0 := by
    rw [List.ofFn_const]
  rw [leastOffsetsWithLowerBounds, if_neg (by simp [matchingColumns]), if_neg (by simp), if_neg (by simp), hzero]
  exact hsweep rows.length 0 (Nat.zero_add _)

/-! ## The certificate -/

theorem checkedSum_eq {values : List Nat} (h : values.sum < usizeLimit) : checkedSum values = some values.sum := by
  obtain ⟨total, hrun, rfl⟩ := foldlM_spec (l := values) (f := fun total value => checkedUsize (total + value))
    (fun done total => total = done.sum) (fun done value rest total heq htotal => by
      refine ⟨total + value, checkedUsize_eq_some.2 ⟨rfl, ?_⟩, by simp [htotal]⟩
      rw [heq, List.sum_append, List.sum_cons] at h
      omega) (s := 0) rfl
  exact hrun

theorem checkedSum_eq_none {values : List Nat} (h : usizeLimit ≤ values.sum) : checkedSum values = none := by
  cases hrun : checkedSum values with
  | none => rfl
  | some total =>
    have hinv := foldlM_inv (l := values) (f := fun total value => checkedUsize (total + value))
      (fun done total => total = done.sum ∧ total < usizeLimit) (fun done value rest total total' _ htotal hstep => by
        obtain ⟨rfl, hlt⟩ := checkedUsize_eq_some.1 hstep
        exact ⟨by simp [htotal.1], hlt⟩) (s := 0) ⟨rfl, by unfold usizeLimit; omega⟩ hrun
    omega

theorem forM_eq_some {α : Type} {l : List α} {f : α → Option Unit} (h : ∀ a ∈ l, f a = some ()) :
    l.forM f = some () := by
  induction l with
  | nil => rfl
  | cons a l ih =>
    rw [List.forM_eq_forM, List.forM_cons, h a (by simp)]
    exact ih fun b hb => h b (List.mem_cons_of_mem _ hb)

theorem certifyRow_spec (hsig : Signature rows rows.length) (hσ : ∀ row, SignatureEdge rows row (σ row))
    {d : Fin rows.length → Nat} (h : IsOffsets (SignatureEdge rows) (signatureOrder rows) lower σ c d)
    (row : Fin rows.length) {seen : List Bool} {objective : Nat} (hseen : seen[(σ row : Nat)]? = some false)
    (hobjective : objective + signatureOrder rows row (σ row) < usizeLimit) :
    certifyRow (matchingColumns σ) (List.ofFn c) (List.ofFn d) (List.replicate rows.length false) (seen, objective)
        (signatureRow rows row, row) =
      some (seen.set (σ row) true, objective + signatureOrder rows row (σ row)) := by
  obtain ⟨entries, entry, hentries, hfind, -, horder⟩ := find?_matched hsig (hσ row)
  have hrow : signatureRow rows row = entries := by rw [signatureRow, hentries]; rfl
  have hcheck : entries.forM (certifyEntry (List.ofFn d) (List.replicate rows.length false) (c row)) = some () := by
    refine forM_eq_some fun e he => ?_
    have he : Assignment.Entry rows row e := by rwa [Assignment.Entry, hrow]
    let column : Fin rows.length := ⟨e.column, hsig.column_lt row e he⟩
    have hd : (List.ofFn d)[e.column]? = some (d column) := getElem?_ofFn d column
    have hinvariant : (List.replicate rows.length false)[e.column]? = some false := by
      rw [List.getElem?_replicate, if_pos column.2]
    have hle := h.order_le row column ⟨e, he, rfl⟩
    rw [signatureOrder_eq hsig he rfl] at hle
    simp only [certifyEntry, hinvariant, Option.bind_eq_bind, Option.bind_some, Bool.false_eq_true, if_false, hd]
    exact if_pos ⟨by omega, by omega⟩
  have hmatched := getElem?_ofFn (fun row => (σ row : Nat)) row
  have hexact := h.exact_on row
  have hcolumn : (List.ofFn d)[(σ row : Nat)]? = some (d (σ row)) := getElem?_ofFn d (σ row)
  simp only [certifyRow, hrow, matchingColumns, hmatched, hseen, Option.bind_eq_bind, Option.bind_some, hfind, hcolumn,
    getElem?_ofFn, Bool.false_eq_true, if_false]
  rw [if_neg (by rw [not_not, horder]; omega), horder, checkedUsize_eq_some.2 ⟨rfl, hobjective⟩, Option.bind_some]
  rw [hcheck]
  rfl

theorem certify_spec (hsig : Signature rows rows.length) (hσ : ∀ row, SignatureEdge rows row (σ row))
    {d : Fin rows.length → Nat} (h : IsOffsets (SignatureEdge rows) (signatureOrder rows) lower σ c d)
    (hsum : ∑ j, d j < usizeLimit) :
    certify rows (matchingColumns σ) (List.ofFn c) (List.ofFn d) (List.replicate rows.length false) =
      some (weight (signatureOrder rows) σ) := by
  set orders := List.ofFn fun row => signatureOrder rows row (σ row) with horders
  have htotal : ∑ i, c i + weight (signatureOrder rows) σ = ∑ j, d j := by
    rw [weight, ← Finset.sum_add_distrib, ← Equiv.sum_comp σ d]
    exact Finset.sum_congr rfl fun row _ => h.exact_on row
  have hweight : orders.sum = weight (signatureOrder rows) σ := List.sum_ofFn
  obtain ⟨⟨seen, objective⟩, hrun, -, hobjective⟩ := foldlM_spec (l := rows.zipIdx)
    (f := certifyRow (matchingColumns σ) (List.ofFn c) (List.ofFn d) (List.replicate rows.length false))
    (fun done s => (∀ row : Fin rows.length, done.length ≤ row → s.1[(σ row : Nat)]? = some false) ∧
      s.2 = (orders.take done.length).sum)
    (fun done indexed rest s heq hinv => by
      obtain ⟨seen, objective⟩ := s
      obtain ⟨hseen, hobjective⟩ := hinv
      simp only at hseen hobjective
      have hget : rows.zipIdx[done.length]? = some indexed := by rw [heq]; simp
      rw [List.getElem?_zipIdx, Option.map_eq_some_iff] at hget
      obtain ⟨entries, hentries, rfl⟩ := hget
      have hk : done.length < rows.length := (List.getElem?_eq_some_iff.1 hentries).1
      let row : Fin rows.length := ⟨done.length, hk⟩
      have hrow : entries = signatureRow rows row := by rw [signatureRow, hentries]; rfl
      have htake : (orders.take (done.length + 1)).sum = objective + signatureOrder rows row (σ row) := by
        rw [List.sum_take_succ _ _ (by simpa [horders] using hk), hobjective]
        congr 1
        simp [horders, row]
      have hlt : objective + signatureOrder rows row (σ row) < usizeLimit := by
        have hle := (List.take_sublist (done.length + 1) orders).sum_le_sum fun _ _ => Nat.zero_le _
        omega
      have hstep := certifyRow_spec hsig hσ h row (hseen row le_rfl) hlt
      refine ⟨_, by rw [hrow, Nat.zero_add]; exact hstep, fun row' hle => ?_, ?_⟩
      · rw [List.length_append, List.length_singleton] at hle
        have hne : (σ row : Nat) ≠ σ row' := by
          intro hσeq
          have := congrArg Fin.val (σ.injective (Fin.ext hσeq))
          simp only [row] at this
          omega
        rw [List.getElem?_set_ne hne]
        exact hseen row' (by omega)
      · rw [List.length_append, List.length_singleton, htake])
    (s := (List.replicate rows.length false, 0))
    ⟨fun row _ => by rw [List.getElem?_replicate, if_pos (σ row).2], by simp⟩
  simp only at hobjective
  rw [List.length_zipIdx, List.take_of_length_le (by simp [horders]), hweight] at hobjective
  have hd : checkedSum (List.ofFn d) = some (∑ j, d j) := by
    rw [checkedSum_eq (by rwa [List.sum_ofFn]), List.sum_ofFn]
  have hc : checkedSum (List.ofFn c) = some (∑ i, c i) := by
    rw [checkedSum_eq (by rw [List.sum_ofFn]; omega), List.sum_ofFn]
  rw [certify, if_neg (by simp [matchingColumns])]
  simp only [hrun, Option.bind_eq_bind, Option.bind_some, hd, hc, hobjective]
  rw [if_pos ⟨by omega, by omega⟩]

theorem certify_eq_none {matching equationOrders variableOrders : List Nat} {invariantColumns : List Bool}
    (h : usizeLimit ≤ variableOrders.sum) :
    certify rows matching equationOrders variableOrders invariantColumns = none := by
  unfold certify
  split
  · rfl
  · rw [Option.bind_eq_bind, Option.bind_eq_none_iff]
    intro s _
    simp only [checkedSum_eq_none h, Option.bind_eq_bind, Option.bind_none]

end

/-! ## Matching, offsets and certificate -/

section
variable {rows : List (List SignatureEntry)}

/-- From the matching `τ` the sweeps return the least offsets, which the certificate accepts when their sum fits. -/
structure AcceptedOffsets (rows : List (List SignatureEntry)) (lower : Fin rows.length → Nat)
    (τ : Equiv.Perm (Fin rows.length)) (c d : Fin rows.length → Nat) : Prop where
  least : IsLeastOffsets (SignatureEdge rows) (signatureOrder rows) lower τ c d
  run : leastOffsetsWithLowerBounds rows (matchingColumns τ) (List.ofFn lower) (List.replicate rows.length false) =
    pure (List.ofFn c, List.ofFn d)
  certified : ∑ j, d j < usizeLimit →
    certify rows (matchingColumns τ) (List.ofFn c) (List.ofFn d) (List.replicate rows.length false) =
      some (weight (signatureOrder rows) τ)

def coupledRows : List (List SignatureEntry) := [[⟨0, 0⟩, ⟨1, 1⟩], [⟨0, 2⟩, ⟨1, 0⟩]]

theorem coupledRows_signature : Signature coupledRows coupledRows.length := by
  refine ⟨fun row => ?_, fun row => ?_⟩
  · rcases row with - | - | row
    · decide
    · decide
    · intro entry h
      cases h
  · rcases row with - | - | row
    · decide
    · decide
    · exact List.nodup_nil

end

/-! ## Sums past the machine word -/

/-- Row `i` holds column `i` at order zero. -/
def diagonalRows (n : Nat) : List (List SignatureEntry) := (List.range n).map fun column => [⟨column, 0⟩]

theorem diagonalRows_length (n : Nat) : (diagonalRows n).length = n := by simp [diagonalRows]

theorem signatureRow_diagonalRows {n row : Nat} {entry : SignatureEntry} :
    entry ∈ signatureRow (diagonalRows n) row ↔ row < n ∧ entry = ⟨row, 0⟩ := by
  unfold signatureRow diagonalRows
  by_cases hrow : row < n
  · simp [hrow]
  · simp [hrow]

theorem diagonalRows_signature (n : Nat) : Signature (diagonalRows n) (diagonalRows n).length := by
  refine ⟨fun row entry h => ?_, fun row => ?_⟩
  · obtain ⟨hrow, rfl⟩ := signatureRow_diagonalRows.1 h
    rwa [diagonalRows_length]
  · have hle : (signatureRow (diagonalRows n) row).length ≤ 1 := by
      unfold signatureRow diagonalRows
      rw [List.getElem?_map]
      cases (List.range n)[row]? <;> simp
    match hrow : signatureRow (diagonalRows n) row with
    | [] => simp
    | [_] => simp
    | _ :: _ :: _ => rw [hrow] at hle; simp at hle

/-- Bounds that fill a `u32` on enough rows: the certificate rejects the least offsets. -/
theorem diagonalRows_overflow (n : Nat) (hsize : 2 * n + 2 < usizeLimit) (hsum : usizeLimit ≤ n * (u32Limit - 1)) :
    Signature (diagonalRows n) (diagonalRows n).length ∧
    (∃ τ : Equiv.Perm (Fin (diagonalRows n).length), ∀ row, SignatureEdge (diagonalRows n) row (τ row)) ∧
    ∃ (σ : Equiv.Perm (Fin (diagonalRows n).length)) (c d : Fin (diagonalRows n).length → Nat),
      maximumWeightMatching (diagonalRows n) (diagonalRows n).length = pure ((matchingColumns σ).map some) ∧
      (∀ j, d j < u32Limit) ∧
      leastOffsetsWithLowerBounds (diagonalRows n) (matchingColumns σ)
        (List.ofFn fun _ : Fin (diagonalRows n).length => u32Limit - 1)
        (List.replicate (diagonalRows n).length false) = pure (List.ofFn c, List.ofFn d) ∧
      certify (diagonalRows n) (matchingColumns σ) (List.ofFn c) (List.ofFn d)
        (List.replicate (diagonalRows n).length false) = none := by
  have hsig := diagonalRows_signature n
  have hperfect : ∀ row, SignatureEdge (diagonalRows n) row (Equiv.refl _ row) := fun row =>
    ⟨⟨row, 0⟩, signatureRow_diagonalRows.2 ⟨row.2.trans_eq (diagonalRows_length n), rfl⟩, rfl⟩
  have hzero : ∀ i j, SignatureEdge (diagonalRows n) i j → signatureOrder (diagonalRows n) i j = 0 ∧ i = j := by
    rintro i j ⟨entry, he, hj⟩
    obtain ⟨-, rfl⟩ := signatureRow_diagonalRows.1 he
    exact ⟨signatureOrder_eq hsig he hj, Fin.ext hj⟩
  have hmaximum : Assignment.maximumOrder (diagonalRows n) = 0 := by
    unfold Assignment.maximumOrder
    have hall : ∀ x ∈ (diagonalRows n).flatten.map (·.order), x = 0 := by
      simp [diagonalRows]
    generalize (diagonalRows n).flatten.map (·.order) = orders at hall
    induction orders with
    | nil => rfl
    | cons x orders ih =>
      rw [List.foldl_cons, hall x (by simp)]
      exact ih fun y hy => hall y (by simp [hy])
  obtain ⟨σ, hrun, hσ, y, z, hfeasible, htight⟩ := maximumWeightMatching_spec hsig ⟨_, hperfect⟩
    (by rwa [diagonalRows_length]) (by rw [hmaximum]; simp [i64Limit])
  have hoffsets : IsLeastOffsets (SignatureEdge (diagonalRows n)) (signatureOrder (diagonalRows n))
      (fun _ => u32Limit - 1) σ (fun _ => u32Limit - 1) fun _ => u32Limit - 1 := by
    have hzeroσ : ∀ i, signatureOrder (diagonalRows n) i (σ i) = 0 := fun i => (hzero i _ (hσ i)).1
    refine ⟨⟨fun _ => le_rfl, fun i j hij => ?_, fun i => ?_⟩, fun c' d' h' => ⟨fun i => ?_, fun j => h'.lower_le j⟩⟩
    · rw [(hzero i j hij).1]
      exact le_rfl
    · rw [hzeroσ, Nat.add_zero]
    · have h1 := h'.lower_le (σ i)
      have h2 := h'.exact_on i
      rw [hzeroσ] at h2
      omega
  refine ⟨hsig, ⟨_, hperfect⟩, σ, _, _, hrun, fun _ => by unfold u32Limit; omega,
    leastOffsetsWithLowerBounds_spec hsig hσ hoffsets fun _ => by unfold u32Limit; omega, certify_eq_none ?_⟩
  rw [List.sum_ofFn, Finset.sum_const, Finset.card_univ, Fintype.card_fin, diagonalRows_length, smul_eq_mul]
  exact hsum

end Rumoca.Structural
