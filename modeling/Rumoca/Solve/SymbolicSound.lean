import Rumoca.Lib.Loop
import Rumoca.Solve.Execution
/-!
# The symbolic check is sound

A valuation of the terms `Denotes` them when a slot's term is the slot's
value and a key's terms are what the key's shape computes from the values of
its operands. Issuing a term extends the valuation and changes no term issued
before, so symbolic evaluation names the values of the execution, and equal
terms are equal values.
-/

namespace Rumoca.Solve

open Rumoca.Lib

variable {V : Type}

/-- The values of terms are what the interpretation and the slots give them. -/
structure Denotes (I : Interpretation V) (σ : Nat → V) (terms : Terms) (ρ : Term → V) : Prop where
  slot : ∀ index term, terms.slots.lookup index = some term → term < terms.next ∧ ρ term = σ index
  shape_lt : ∀ shape id, terms.shapes.lookup shape = some id → id < terms.shapes.length
  shape_inj : ∀ shape shape' id, terms.shapes.lookup shape = some id → terms.shapes.lookup shape' = some id →
    shape = shape'
  key : ∀ operation key, terms.operations.lookup operation = some key →
    ∃ shape, terms.shapes.lookup shape = some operation.shape ∧ (∀ o ∈ operation.operands, o.2 < terms.next) ∧
      key.id < terms.operations.length ∧ key.base + key.width ≤ terms.next ∧
        ∀ i < key.width, ρ (key.base + i) = I shape (operation.operands.map fun o => (o.1, ρ o.2)) i

/-- A later table whose valuation agrees on the terms issued before. -/
structure Extends (I : Interpretation V) (σ : Nat → V) (terms : Terms) (ρ : Term → V) (terms' : Terms)
    (ρ' : Term → V) : Prop where
  denotes : Denotes I σ terms' ρ'
  le : terms.next ≤ terms'.next
  agree : ∀ term < terms.next, ρ' term = ρ term

section
variable {I : Interpretation V} {σ : Nat → V} {terms terms' terms'' : Terms} {ρ ρ' ρ'' : Term → V}

theorem denotes_empty (I : Interpretation V) (σ : Nat → V) (ρ : Term → V) : Denotes I σ Terms.empty ρ := by
  constructor <;> simp [Terms.empty]

theorem Denotes.refl (h : Denotes I σ terms ρ) : Extends I σ terms ρ terms ρ := ⟨h, le_rfl, fun _ _ => rfl⟩

theorem Extends.trans (h : Extends I σ terms ρ terms' ρ') (h' : Extends I σ terms' ρ' terms'' ρ'') :
    Extends I σ terms ρ terms'' ρ'' :=
  ⟨h'.denotes, h.le.trans h'.le, fun term ht => (h'.agree term (ht.trans_le h.le)).trans (h.agree term ht)⟩

/-! ## Issuing terms -/

theorem Denotes.revalue (h : Denotes I σ terms ρ) (hagree : ∀ term < terms.next, ρ' term = ρ term) {next : Nat}
    (hnext : terms.next ≤ next) : Denotes I σ { terms with next := next } ρ' := by
  refine ⟨fun index term hl => ?_, h.shape_lt, h.shape_inj, fun operation key hl => ?_⟩
  · obtain ⟨hlt, hval⟩ := h.slot index term hl
    exact ⟨hlt.trans_le hnext, (hagree term hlt).trans hval⟩
  · obtain ⟨shape, hshape, hoperands, hid, hbase, hval⟩ := h.key operation key hl
    refine ⟨shape, hshape, fun o ho => (hoperands o ho).trans_le hnext, hid, hbase.trans hnext, fun i hi => ?_⟩
    rw [hagree (key.base + i) ((Nat.add_lt_add_left hi key.base).trans_le hbase), hval i hi]
    congr 1
    apply List.map_congr_left
    intro o ho
    rw [hagree o.2 (hoperands o ho)]

theorem slot_spec (h : Denotes I σ terms ρ) (index : Nat) :
    ∃ ρ', Extends I σ terms ρ (terms.slot index).1 ρ' ∧ (terms.slot index).2 < (terms.slot index).1.next ∧
      ρ' (terms.slot index).2 = σ index := by
  unfold Terms.slot
  cases hl : terms.slots.lookup index with
  | some term =>
    obtain ⟨hlt, hval⟩ := h.slot index term hl
    simp only [if_neg (Nat.ne_of_lt hlt), Nat.add_zero]
    exact ⟨ρ, h.refl, hlt, hval⟩
  | none =>
    simp only [if_true]
    have hagree : ∀ term < terms.next, Function.update ρ terms.next (σ index) term = ρ term := fun term ht =>
      Function.update_of_ne (Nat.ne_of_lt ht) _ _
    have hold := h.revalue hagree (Nat.le_succ terms.next)
    refine ⟨Function.update ρ terms.next (σ index), ⟨⟨fun i term hl' => ?_, hold.shape_lt, hold.shape_inj, hold.key⟩,
      Nat.le_succ _, hagree⟩, Nat.lt_succ_self _, Function.update_self ..⟩
    rw [List.lookup_cons] at hl'
    by_cases hi : i = index
    · subst hi
      rw [beq_self_eq_true] at hl'
      obtain rfl := Option.some.inj hl'
      exact ⟨Nat.lt_succ_self _, Function.update_self ..⟩
    · rw [beq_false_of_ne hi] at hl'
      exact hold.slot i term hl'

theorem internShape_spec (h : Denotes I σ terms ρ) (shape : String) :
    Denotes I σ (terms.internShape shape).1 ρ ∧ (terms.internShape shape).1.next = terms.next ∧
      (terms.internShape shape).1.operations = terms.operations ∧
      (terms.internShape shape).1.shapes.lookup shape = some (terms.internShape shape).2 := by
  unfold Terms.internShape
  cases hl : terms.shapes.lookup shape with
  | some id => exact ⟨h, rfl, rfl, hl⟩
  | none =>
    have hold : ∀ s id, terms.shapes.lookup s = some id →
        ((shape, terms.shapes.length) :: terms.shapes).lookup s = some id := by
      intro s id hs
      have hne : s ≠ shape := by
        rintro rfl
        rw [hl] at hs
        cases hs
      rwa [List.lookup_cons, beq_false_of_ne hne]
    have hcases : ∀ s id, ((shape, terms.shapes.length) :: terms.shapes).lookup s = some id →
        (s = shape ∧ id = terms.shapes.length) ∨ terms.shapes.lookup s = some id := by
      intro s id hs
      rw [List.lookup_cons] at hs
      by_cases hss : s = shape
      · rw [hss, beq_self_eq_true] at hs
        exact .inl ⟨hss, (Option.some.inj hs).symm⟩
      · rw [beq_false_of_ne hss] at hs
        exact .inr hs
    refine ⟨⟨h.slot, fun s id hs => ?_, fun s s' id hs hs' => ?_, fun operation key hk => ?_⟩, rfl, rfl, ?_⟩
    · rw [List.length_cons]
      rcases hcases s id hs with ⟨-, rfl⟩ | hs
      · exact Nat.lt_succ_self _
      · exact (h.shape_lt s id hs).trans (Nat.lt_succ_self _)
    · rcases hcases s id hs with ⟨rfl, rfl⟩ | h1 <;> rcases hcases s' _ hs' with ⟨rfl, h2⟩ | h2
      · rfl
      · exact absurd (h.shape_lt _ _ h2) (lt_irrefl _)
      · subst h2
        exact absurd (h.shape_lt _ _ h1) (lt_irrefl _)
      · exact h.shape_inj _ _ _ h1 h2
    · obtain ⟨s, hs, hrest⟩ := h.key operation key hk
      exact ⟨s, hold s _ hs, hrest⟩
    · rw [List.lookup_cons, beq_self_eq_true]

theorem operationKey_spec (hden : Denotes I σ terms ρ) {shape : String} (operation : OperationKey) (width : Nat)
    (hshape : terms.shapes.lookup shape = some operation.shape)
    (hoperands : ∀ o ∈ operation.operands, o.2 < terms.next) :
    ∃ ρ', Extends I σ terms ρ (terms.operationKey operation width).1 ρ' ∧
      ∀ i < (terms.operationKey operation width).2.width,
        (terms.operationKey operation width).2.base + i < (terms.operationKey operation width).1.next ∧
        ρ' ((terms.operationKey operation width).2.base + i) =
          I shape (operation.operands.map fun o => (o.1, ρ o.2)) i := by
  unfold Terms.operationKey
  cases hl : terms.operations.lookup operation with
  | some key =>
    obtain ⟨s, hs, -, hlt, hbase, hval⟩ := hden.key _ key hl
    obtain rfl := hden.shape_inj s shape _ hs hshape
    have hne : key ≠ ⟨terms.operations.length, terms.next, width⟩ := by
      rintro rfl
      exact absurd hlt (lt_irrefl _)
    simp only [if_neg hne, Nat.add_zero]
    exact ⟨ρ, hden.refl, fun i hi => ⟨(Nat.add_lt_add_left hi key.base).trans_le hbase, hval i hi⟩⟩
  | none =>
    simp only [if_true]
    let value (term : Term) : V :=
      if term < terms.next then ρ term
      else I shape (operation.operands.map fun o => (o.1, ρ o.2)) (term - terms.next)
    have hagree : ∀ term < terms.next, value term = ρ term := fun term ht => if_pos ht
    have hmap : (operation.operands.map fun o => (o.1, value o.2)) = operation.operands.map fun o => (o.1, ρ o.2) := by
      apply List.map_congr_left
      intro o ho
      rw [hagree o.2 (hoperands o ho)]
    have hfresh : ∀ i, value (terms.next + i) = I shape (operation.operands.map fun o => (o.1, ρ o.2)) i := by
      intro i
      have hge : ¬ terms.next + i < terms.next := Nat.not_lt.2 (Nat.le_add_right _ _)
      simp only [value, if_neg hge]
      rw [Nat.add_sub_cancel_left]
    have hold := hden.revalue hagree (Nat.le_add_right terms.next width)
    refine ⟨value, ⟨⟨hold.slot, hold.shape_lt, hold.shape_inj, fun other key hk => ?_⟩, Nat.le_add_right _ _,
      hagree⟩, fun i hi => ⟨Nat.add_lt_add_left hi _, hfresh i⟩⟩
    rw [List.lookup_cons] at hk
    by_cases ho : other = operation
    · subst ho
      rw [beq_self_eq_true] at hk
      obtain rfl := Option.some.inj hk
      refine ⟨shape, hshape, fun o ho => (hoperands o ho).trans_le (Nat.le_add_right _ _), Nat.lt_succ_self _,
        le_rfl, fun i hi => ?_⟩
      rw [hfresh i, hmap]
    · rw [beq_false_of_ne ho] at hk
      obtain ⟨s, hs, hlt, hkid, hrest⟩ := hold.key other key hk
      exact ⟨s, hs, hlt, hkid.trans (Nat.lt_succ_self _), hrest⟩

theorem key_spec (h : Denotes I σ terms ρ) (shape : String) {operands : List (Nat × Term)} (width : Nat)
    (hoperands : ∀ o ∈ operands, o.2 < terms.next) :
    ∃ ρ', Extends I σ terms ρ (terms.key shape operands width).1 ρ' ∧
      ∀ i < (terms.key shape operands width).2.width,
        (terms.key shape operands width).2.base + i < (terms.key shape operands width).1.next ∧
        ρ' ((terms.key shape operands width).2.base + i) = I shape (operands.map fun o => (o.1, ρ o.2)) i := by
  obtain ⟨hden, hnext, -, hshape⟩ := internShape_spec h shape
  obtain ⟨ρ', hext, hval⟩ := operationKey_spec hden ⟨_, operands⟩ width hshape
    fun o ho => hnext ▸ hoperands o ho
  exact ⟨ρ', ⟨hext.denotes, hnext ▸ hext.le, fun term ht => hext.agree term (hnext ▸ ht)⟩, hval⟩

/-! ## Agreement of the two evaluations -/

/-- The registers and outputs are what the valuation gives their terms. -/
structure Agrees (ρ : Term → V) (s : RegionTerms) (r : Region V) : Prop where
  register : ∀ register term, s.registers register = some term →
    term < s.terms.next ∧ r.registers register = some (ρ term)
  output_lt : ∀ term ∈ s.outputs, term < s.terms.next
  outputs : r.outputs = s.outputs.map ρ

/-- Stored slots are what the valuation gives their terms; the others are as the sequence found them. -/
structure SlotsAgree (σ : Nat → V) (terms : Terms) (ρ : Term → V) (slots : SymbolicSlots) (current : Nat → V) :
    Prop where
  stored : ∀ index term, slots.lookup index = some term → term < terms.next ∧ current index = ρ term
  unstored : ∀ index, slots.lookup index = none → current index = σ index

theorem Extends.map_eq (h : Extends I σ terms ρ terms' ρ') {l : List Term} (hl : ∀ term ∈ l, term < terms.next) :
    l.map ρ' = l.map ρ :=
  List.map_congr_left fun term ht => h.agree term (hl term ht)

theorem SlotsAgree.extend {slots : SymbolicSlots} {current : Nat → V} (hs : SlotsAgree σ terms ρ slots current)
    (h : Extends I σ terms ρ terms' ρ') : SlotsAgree σ terms' ρ' slots current := by
  refine ⟨fun index term hl => ?_, hs.unstored⟩
  obtain ⟨hlt, hval⟩ := hs.stored index term hl
  exact ⟨hlt.trans_le h.le, hval.trans (h.agree term hlt).symm⟩

theorem Agrees.extend {s : RegionTerms} {r : Region V} (hs : Agrees ρ s r) (h : Extends I σ s.terms ρ terms' ρ') :
    Agrees ρ' { s with terms := terms' } r := by
  refine ⟨fun register term hl => ?_, fun term ht => (hs.output_lt term ht).trans_le h.le, ?_⟩
  · obtain ⟨hlt, hval⟩ := hs.register register term hl
    exact ⟨hlt.trans_le h.le, by rw [hval, h.agree term hlt]⟩
  · rw [hs.outputs]
    exact (h.map_eq hs.output_lt).symm

theorem insertRange_append {α : Type} (registers : Reg → Option α) (start : Reg) (values : List α) (value : α) :
    insertRange registers start (values ++ [value]) =
      Function.update (insertRange registers start values) (start.offset values.length) (some value) := by
  rw [insertRange, List.zipIdx_append, List.foldl_append]
  simp [insertRange]

section
variable {α β : Type} {P : α → Prop} {f : α → β} {left : Reg → Option α} {right : Reg → Option β}

theorem update_rel (h : ∀ register a, left register = some a → P a ∧ right register = some (f a)) (dst : Reg) {a : α}
    (ha : P a) : ∀ register b, Function.update left dst (some a) register = some b →
      P b ∧ Function.update right dst (some (f a)) register = some (f b) := by
  intro register b hb
  by_cases hr : register = dst
  · subst hr
    rw [Function.update_self] at hb ⊢
    obtain rfl := Option.some.inj hb
    exact ⟨ha, rfl⟩
  · rw [Function.update_of_ne hr] at hb ⊢
    exact h register b hb

theorem insertRange_rel (h : ∀ register a, left register = some a → P a ∧ right register = some (f a)) (start : Reg)
    {values : List α} (hvalues : ∀ a ∈ values, P a) :
    ∀ register a, insertRange left start values register = some a →
      P a ∧ insertRange right start (values.map f) register = some (f a) := by
  induction values using List.reverseRecOn with
  | nil => exact h
  | append_singleton values value ih =>
    have hold := ih fun a ha => hvalues a (List.mem_append_left _ ha)
    rw [List.map_append, List.map_singleton, insertRange_append, insertRange_append, List.length_map]
    exact update_rel hold _ (hvalues value (by simp))

end

/-! ## One operation -/

theorem slots_slot_spec {slots : SymbolicSlots} {current : Nat → V} (hden : Denotes I σ terms ρ)
    (hs : SlotsAgree σ terms ρ slots current) (index : Nat) :
    ∃ ρ', Extends I σ terms ρ (slots.slot terms index).1 ρ' ∧
      (slots.slot terms index).2 < (slots.slot terms index).1.next ∧
      ρ' (slots.slot terms index).2 = current index := by
  unfold SymbolicSlots.slot
  cases hl : slots.lookup index with
  | some term =>
    obtain ⟨hlt, hval⟩ := hs.stored index term hl
    exact ⟨ρ, hden.refl, hlt, hval.symm⟩
  | none =>
    obtain ⟨ρ', hext, hlt, hval⟩ := slot_spec hden index
    exact ⟨ρ', hext, hlt, hval.trans (hs.unstored index hl).symm⟩

theorem slotTerms_spec {slots : SymbolicSlots} {current : Nat → V} (hden : Denotes I σ terms ρ)
    (hs : SlotsAgree σ terms ρ slots current) (first count : Nat) :
    ∃ ρ', Extends I σ terms ρ (slotTerms slots terms first count).1 ρ' ∧
      (∀ term ∈ (slotTerms slots terms first count).2, term < (slotTerms slots terms first count).1.next) ∧
      (slotTerms slots terms first count).2.map ρ' =
        (List.range count).map fun offset => current (first + offset) := by
  unfold slotTerms
  refine foldl_inv (fun offsets (loaded : Terms × List Term) => ∃ ρ', Extends I σ terms ρ loaded.1 ρ' ∧
    (∀ term ∈ loaded.2, term < loaded.1.next) ∧ loaded.2.map ρ' = offsets.map fun offset => current (first + offset))
    ?_ ⟨ρ, hden.refl, fun term ht => absurd ht (List.not_mem_nil), rfl⟩
  rintro offsets offset - ⟨table, loaded⟩ - ⟨ρ', hext, hlt, hloaded⟩
  obtain ⟨ρ'', hext', hlt', hval⟩ := slots_slot_spec hext.denotes (hs.extend hext) (first + offset)
  refine ⟨ρ'', hext.trans hext', fun term ht => ?_, ?_⟩
  · rcases List.mem_append.1 ht with ht | ht
    · exact (hlt term ht).trans_le hext'.le
    · rw [List.mem_singleton.1 ht]
      exact hlt'
  · rw [List.map_append, List.map_append, hext'.map_eq hlt, hloaded, List.map_singleton, hval]
    rfl

theorem value_mapM {key : ValueKey} {count : Nat} {found : List Term}
    (h : (List.range count).mapM (Terms.value key) = some found) :
    (∀ i < count, i < key.width) ∧ found = (List.range count).map (key.base + ·) := by
  have hwidth : ∀ i < count, i < key.width := by
    intro i hi
    obtain ⟨b, -, hb⟩ := mapM_forall h i (List.mem_range.2 hi)
    unfold Terms.value at hb
    split at hb
    · assumption
    · cases hb
  refine ⟨hwidth, Option.some.inj (h.symm.trans (mapM_eq_some_map fun i hi => ?_))⟩
  rw [Terms.value, if_pos (hwidth i (List.mem_range.1 hi))]

section
variable {F : Type} {debug : LinearOp F → String}

theorem valueStep_inv {op : LinearOp F} {s s' : RegionTerms} (h : valueStep debug op s = some s') :
    ∃ shape operands stored results table key, valueShape debug op = some shape ∧
      (shape.operands.mapM fun o => (s.registers o.2).bind fun term => some (o.1, term)) = some operands ∧
      (table, key) = s.terms.key shape.shape operands (max (storedOutputs op) (writtenCount op)) ∧
      (List.range (storedOutputs op)).mapM (Terms.value key) = some stored ∧
      (List.range (writtenCount op)).mapM (Terms.value key) = some results ∧
      s' = ⟨table, insertRange s.registers (op.dstRegister.getD 0) results, s.outputs ++ stored⟩ := by
  obtain ⟨shape, hshape, h⟩ := Option.bind_eq_some_iff.1 h
  obtain ⟨operands, hoperands, h⟩ := Option.bind_eq_some_iff.1 h
  obtain ⟨stored, hstored, h⟩ := Option.bind_eq_some_iff.1 h
  obtain ⟨results, hresults, h⟩ := Option.bind_eq_some_iff.1 h
  exact ⟨shape, operands, stored, results, _, _, hshape, hoperands, rfl, hstored, hresults, (Option.some.inj h).symm⟩

theorem executeValue_eq {op : LinearOp F} {r : Region V} {shape : ValueShape} {operands : List (Nat × V)}
    (hshape : valueShape debug op = some shape)
    (hoperands : (shape.operands.mapM fun o => (r.registers o.2).bind fun value => some (o.1, value)) = some operands) :
    executeValue debug I op r = some
      ⟨insertRange r.registers (op.dstRegister.getD 0) ((List.range (writtenCount op)).map (I shape.shape operands)),
        r.outputs ++ (List.range (storedOutputs op)).map (I shape.shape operands)⟩ := by
  refine Option.bind_eq_some_iff.2 ⟨shape, hshape, Option.bind_eq_some_iff.2 ⟨operands, hoperands, rfl⟩⟩

theorem valueStep_sound {op : LinearOp F} {s s' : RegionTerms} {r : Region V} (hden : Denotes I σ s.terms ρ)
    (hr : Agrees ρ s r) (h : valueStep debug op s = some s') :
    ∃ ρ' r', executeValue debug I op r = some r' ∧ Extends I σ s.terms ρ s'.terms ρ' ∧ Agrees ρ' s' r' := by
  obtain ⟨shape, operands, stored, results, table, key, hshape, hoperands, htable, hstored, hresults, rfl⟩ :=
    valueStep_inv h
  have hlt : ∀ o ∈ operands, o.2 < s.terms.next := by
    intro o ho
    obtain ⟨a, -, ha⟩ := mapM_mem hoperands o ho
    obtain ⟨term, hterm, h⟩ := Option.bind_eq_some_iff.1 ha
    obtain rfl := Option.some.inj h
    exact (hr.register a.2 term hterm).1
  have hvalues : (shape.operands.mapM fun o => (r.registers o.2).bind fun value => some (o.1, value)) =
      some (operands.map fun o => (o.1, ρ o.2)) := by
    refine mapM_map (fun a _ b hb => ?_) hoperands
    obtain ⟨term, hterm, h⟩ := Option.bind_eq_some_iff.1 hb
    obtain rfl := Option.some.inj h
    rw [(hr.register a.2 term hterm).2]
    rfl
  obtain ⟨ρ', hext, hkey⟩ := key_spec hden shape.shape (max (storedOutputs op) (writtenCount op)) hlt
  rw [← htable] at hext hkey
  have hissued : ∀ count found, (List.range count).mapM (Terms.value key) = some found →
      (∀ term ∈ found, term < table.next) ∧
      (List.range count).map (I shape.shape (operands.map fun o => (o.1, ρ o.2))) = found.map ρ' := by
    intro count found hfound
    obtain ⟨hwidth, rfl⟩ := value_mapM hfound
    refine ⟨fun term ht => ?_, ?_⟩
    · obtain ⟨i, hi, rfl⟩ := List.mem_map.1 ht
      exact (hkey i (hwidth i (List.mem_range.1 hi))).1
    · rw [List.map_map]
      apply List.map_congr_left
      intro i hi
      exact ((hkey i (hwidth i (List.mem_range.1 hi))).2).symm
  obtain ⟨hstored_lt, hstored⟩ := hissued _ _ hstored
  obtain ⟨hresults_lt, hresults⟩ := hissued _ _ hresults
  have hold := hr.extend hext
  refine ⟨ρ', _, executeValue_eq hshape hvalues, hext, ?_, ?_, ?_⟩
  · rw [hresults]
    exact insertRange_rel hold.register _ hresults_lt
  · intro term ht
    rcases List.mem_append.1 ht with ht | ht
    · exact hold.output_lt term ht
    · exact hstored_lt term ht
  · rw [hold.outputs, hstored, List.map_append]

theorem step_sound {slots : SymbolicSlots} {current : Nat → V} {op : LinearOp F} {s s' : RegionTerms} {r : Region V}
    (hden : Denotes I σ s.terms ρ) (hs : SlotsAgree σ s.terms ρ slots current) (hr : Agrees ρ s r)
    (h : slots.step debug s op = some s') :
    ∃ ρ' r', executeStep debug I current r op = some r' ∧ Extends I σ s.terms ρ s'.terms ρ' ∧ Agrees ρ' s' r' := by
  unfold SymbolicSlots.step at h
  split at h
  · next dst first count hy =>
    obtain rfl := Option.some.inj h
    obtain ⟨ρ', hext, hlt, hloaded⟩ := slotTerms_spec hden hs first count
    have hold := hr.extend hext
    refine ⟨ρ', _, executeStep_load hy, hext, ?_, hold.output_lt, hold.outputs⟩
    rw [← hloaded]
    exact insertRange_rel hold.register dst hlt
  next hy =>
  split at h
  · next registers hstore =>
    obtain ⟨stored, hstored, h⟩ := Option.bind_eq_some_iff.1 h
    obtain rfl := Option.some.inj h
    have hvalues : registers.mapM r.registers = some (stored.map ρ) :=
      mapM_map (fun register _ term ht => (hr.register register term ht).2) hstored
    have hlt : ∀ term ∈ stored, term < s.terms.next := by
      intro term ht
      obtain ⟨register, -, hterm⟩ := mapM_mem hstored term ht
      exact (hr.register register term hterm).1
    refine ⟨ρ, { r with outputs := r.outputs ++ stored.map ρ }, by rw [executeStep_store hy hstore, hvalues]; rfl,
      hden.refl, hr.register, ?_, ?_⟩
    · intro term ht
      rcases List.mem_append.1 ht with ht | ht
      · exact hr.output_lt term ht
      · exact hlt term ht
    · rw [hr.outputs, List.map_append]
  next hstore =>
  split at h
  · next dst src =>
    obtain ⟨term, hterm, h⟩ := Option.bind_eq_some_iff.1 h
    obtain rfl := Option.some.inj h
    obtain ⟨hlt, hval⟩ := hr.register src term hterm
    refine ⟨ρ, { r with registers := Function.update r.registers dst (some (ρ term)) },
      by rw [executeStep_move, hval]; rfl, hden.refl, ?_, hr.output_lt, hr.outputs⟩
    exact update_rel hr.register dst hlt
  · next hmove =>
    obtain ⟨ρ', r', hexec, hrest⟩ := valueStep_sound hden hr h
    exact ⟨ρ', r', (executeStep_value hy hstore fun dst src he => hmove dst src he).trans hexec, hrest⟩

/-! ## Programs -/

theorem steps_sound {slots : SymbolicSlots} {current : Nat → V} {ops : List (LinearOp F)} {s s' : RegionTerms}
    {r : Region V} (hden : Denotes I σ s.terms ρ) (hs : SlotsAgree σ s.terms ρ slots current) (hr : Agrees ρ s r)
    (h : ops.foldlM (SymbolicSlots.step debug slots) s = some s') :
    ∃ ρ' r', ops.foldlM (executeStep debug I current) r = some r' ∧ Extends I σ s.terms ρ s'.terms ρ' ∧
      Agrees ρ' s' r' := by
  induction ops generalizing ρ s r with
  | nil =>
    obtain rfl := Option.some.inj h
    exact ⟨ρ, r, rfl, hden.refl, hr⟩
  | cons op ops ih =>
    rw [List.foldlM_cons] at h
    obtain ⟨mid, hmid, hrest⟩ := Option.bind_eq_some_iff.1 h
    obtain ⟨ρ₁, r₁, hstep, hext₁, hr₁⟩ := step_sound hden hs hr hmid
    obtain ⟨ρ₂, r₂, hsteps, hext₂, hr₂⟩ := ih hext₁.denotes (hs.extend hext₁) hr₁ hrest
    refine ⟨ρ₂, r₂, ?_, hext₁.trans hext₂, hr₂⟩
    rw [List.foldlM_cons, hstep]
    exact hsteps

theorem lookup_insertEntry {α : Type} (entries : List (Nat × α)) (key : Nat) (value : α) (index : Nat) :
    (insertEntry entries key value).lookup index = if index = key then some value else entries.lookup index := by
  unfold insertEntry
  rw [List.lookup_cons]
  by_cases hi : index = key
  · rw [hi, beq_self_eq_true, if_pos rfl]
  · rw [beq_false_of_ne hi, if_neg hi]
    simp only
    induction entries with
    | nil => rfl
    | cons entry entries ih =>
      rw [List.filter_cons]
      by_cases he : entry.1 = key
      · rw [if_neg (by simpa using he), ih, List.lookup_cons, beq_false_of_ne (he ▸ hi)]
      · rw [if_pos (by simpa using he), List.lookup_cons, List.lookup_cons, ih]

theorem commit_sound (slots : SymbolicSlots) {current : Nat → V} (hs : SlotsAgree σ terms ρ slots current)
    (targets : List Nat) {outputs : List Term} (hlt : ∀ term ∈ outputs, term < terms.next) :
    SlotsAgree σ terms ρ (SymbolicSlots.commit slots targets outputs)
      (commitSlots current targets (outputs.map ρ)) := by
  unfold SymbolicSlots.commit commitSlots
  induction targets generalizing slots current outputs with
  | nil => exact hs
  | cons target targets ih =>
    cases outputs with
    | nil => exact hs
    | cons term outputs =>
      refine ih (insertEntry slots target term) ⟨fun index found hl => ?_, fun index hl => ?_⟩
        fun t ht => hlt t (List.mem_cons_of_mem _ ht)
      · rw [lookup_insertEntry] at hl
        by_cases hi : index = target
        · subst hi
          rw [if_pos rfl] at hl
          obtain rfl := Option.some.inj hl
          exact ⟨hlt term (by simp), Function.update_self ..⟩
        · rw [if_neg hi] at hl
          exact (hs.stored index found hl).imp id fun hval => (Function.update_of_ne hi _ _).trans hval
      · rw [lookup_insertEntry] at hl
        by_cases hi : index = target
        · rw [if_pos hi] at hl
          cases hl
        · rw [if_neg hi] at hl
          exact (Function.update_of_ne hi _ _).trans (hs.unstored index hl)

theorem run_sound {slots slots' : SymbolicSlots} {current : Nat → V} {program : AssignmentProgram F}
    {outputs : List Term} (hden : Denotes I σ terms ρ) (hs : SlotsAgree σ terms ρ slots current)
    (h : slots.run debug terms program = some (terms', slots', outputs)) :
    ∃ ρ' current', executeProgram debug I current program = some (outputs.map ρ', current') ∧
      Extends I σ terms ρ terms' ρ' ∧ SlotsAgree σ terms' ρ' slots' current' ∧ ∀ term ∈ outputs, term < terms'.next := by
  obtain ⟨region, hregion, h⟩ := Option.bind_eq_some_iff.1 h
  have hstart : Agrees ρ ⟨terms, fun _ => none, []⟩ (⟨fun _ => none, []⟩ : Region V) := by
    constructor <;> simp
  obtain ⟨ρ', r, hexec, hext, hr⟩ := steps_sound hden hs hstart hregion
  split at h
  · cases h
  · obtain ⟨rfl, rfl, rfl⟩ : region.terms = terms' ∧
        SymbolicSlots.commit slots program.targets region.outputs = slots' ∧ region.outputs = outputs := by
      simpa using Option.some.inj h
    refine ⟨ρ', commitSlots current program.targets (region.outputs.map ρ'), ?_, hext,
      commit_sound _ (hs.extend hext) _ hr.output_lt, hr.output_lt⟩
    rw [executeProgram, hexec, ← hr.outputs]
    rfl

theorem runAll_sound {programs : List (AssignmentProgram F)} {slots slots' : SymbolicSlots} (before : List Term)
    {outputs : List Term} {current : Nat → V} (hden : Denotes I σ terms ρ) (hs : SlotsAgree σ terms ρ slots current)
    (hlt : ∀ term ∈ before, term < terms.next)
    (h : programs.foldlM (runNext debug) (terms, slots, before) = some (terms', slots', outputs)) :
    ∃ ρ' current', programs.foldlM (executeNext debug I) (before.map ρ, current) = some (outputs.map ρ', current') ∧
      Extends I σ terms ρ terms' ρ' ∧ SlotsAgree σ terms' ρ' slots' current' ∧ ∀ term ∈ outputs, term < terms'.next := by
  induction programs generalizing terms slots before current ρ with
  | nil =>
    obtain ⟨rfl, rfl, rfl⟩ : terms = terms' ∧ slots = slots' ∧ before = outputs := by simpa using Option.some.inj h
    exact ⟨ρ, current, rfl, hden.refl, hs, hlt⟩
  | cons program programs ih =>
    rw [List.foldlM_cons] at h
    obtain ⟨next, hnext, hrest⟩ := Option.bind_eq_some_iff.1 h
    obtain ⟨⟨table, slots₁, found⟩, hrun, rfl⟩ := Option.map_eq_some_iff.1 hnext
    obtain ⟨ρ₁, current₁, hexec, hext₁, hs₁, hlt₁⟩ := run_sound hden hs hrun
    have hlt' : ∀ term ∈ before ++ found, term < table.next := fun term ht =>
      (List.mem_append.1 ht).elim (fun ht => (hlt term ht).trans_le hext₁.le) (hlt₁ term)
    obtain ⟨ρ₂, current₂, hexecs, hext₂, hrest⟩ := ih (before ++ found) hext₁.denotes hs₁ hlt' hrest
    refine ⟨ρ₂, current₂, ?_, hext₁.trans hext₂, hrest⟩
    rw [List.map_append, hext₁.map_eq hlt] at hexecs
    rw [List.foldlM_cons, executeNext, hexec]
    exact hexecs

theorem runSymbolically_sound {programs : List (AssignmentProgram F)} {slots : SymbolicSlots} {outputs : List Term}
    (hden : Denotes I σ terms ρ) (h : runSymbolically debug programs terms = some (terms', slots, outputs)) :
    ∃ ρ' current, executePrograms debug I programs σ = some (outputs.map ρ', current) ∧
      Extends I σ terms ρ terms' ρ' ∧ SlotsAgree σ terms' ρ' slots current ∧ ∀ term ∈ outputs, term < terms'.next := by
  refine runAll_sound [] hden ?_ (fun _ ht => absurd ht List.not_mem_nil) h
  constructor <;> simp

/-! ## The check -/

/-- Checked segments execute as their programs do, from any slots and whatever the shapes compute. -/
theorem checkSymbolically_sound {programs segments : List (AssignmentProgram F)}
    (h : checkSymbolically debug programs segments = .ok ()) (I : Interpretation V) (slots : Nat → V) :
    ∃ result, executePrograms debug I programs slots = some result ∧
      executePrograms debug I segments slots = some result := by
  unfold checkSymbolically at h
  split at h
  · cases h
  next terms before expected hprograms =>
  split at h
  · cases h
  next _ terms' after found hsegments =>
  split at h
  · cases h
  next hlength =>
  split at h
  · cases h
  next hpairs =>
  split at h
  · cases h
  next hbefore =>
  split at h
  · cases h
  next hafter =>
  obtain ⟨ρ₁, current₁, hexec₁, hext₁, hs₁, hlt₁⟩ :=
    runSymbolically_sound (denotes_empty I slots fun _ => slots 0) hprograms
  obtain ⟨ρ₂, current₂, hexec₂, hext₂, hs₂, -⟩ := runSymbolically_sound hext₁.denotes hsegments
  -- equal terms in the same order
  have houtputs : expected = found := by
    refine List.ext_getElem (not_not.1 hlength) fun i hi hi' => ?_
    have hpair := List.findIdx?_eq_none_iff.1 hpairs (expected[i], found[i])
      (List.mem_iff_getElem.2 ⟨i, by simpa using ⟨hi, hi'⟩, by simp⟩)
    simpa using hpair
  -- a slot either side stored, both stored, with one term
  have hlookup : ∀ index, before.lookup index = after.lookup index := by
    intro index
    have hmem : ∀ (slots : SymbolicSlots) term, slots.lookup index = some term → ∃ entry ∈ slots, entry.1 = index := by
      intro slots term hl
      obtain ⟨l₁, l₂, rfl, -⟩ := List.lookup_eq_some_iff.1 hl
      exact ⟨(index, term), by simp, rfl⟩
    cases hb : before.lookup index with
    | some term =>
      obtain ⟨entry, he, rfl⟩ := hmem before term hb
      have := List.find?_eq_none.1 hbefore entry he
      rw [← hb]
      simpa using this
    | none =>
      cases ha : after.lookup index with
      | none => rfl
      | some term =>
        obtain ⟨entry, he, rfl⟩ := hmem after term ha
        have := List.find?_eq_none.1 hafter entry he
        rw [hb] at this
        simp at this
  have hslots : current₁ = current₂ := by
    funext index
    have hs₁ := hs₁.extend hext₂
    cases hl : before.lookup index with
    | some term =>
      rw [(hs₁.stored index term hl).2, (hs₂.stored index term (hlookup index ▸ hl)).2]
    | none => rw [hs₁.unstored index hl, hs₂.unstored index (hlookup index ▸ hl)]
  refine ⟨(expected.map ρ₁, current₁), hexec₁, ?_⟩
  rw [hexec₂, ← houtputs, hext₂.map_eq hlt₁, hslots]

end

end

/-- Two programs over one product, the second reading the slot the first stores. -/
def productPrograms : List (AssignmentProgram Int) :=
  [⟨[.loadY 0 0, .loadP 1 0, .binary 2 .mul 0 1, .storeOutput 2], [1]⟩,
    ⟨[.loadY 0 0, .loadP 1 0, .binary 2 .mul 0 1, .loadY 3 1, .binary 4 .add 2 3, .storeOutput 4], [2]⟩]

def productSegments : List (AssignmentProgram Int) :=
  [⟨[.loadY 0 0, .loadP 1 0, .binary 2 .mul 0 1, .storeOutput 2, .binary 3 .add 2 2, .storeOutput 3], [1, 2]⟩]

def productShape : LinearOp Int → String
  | .binary _ .mul _ _ => "Mul"
  | .binary _ .add _ _ => "Add"
  | op => op.kindName

def sumOperands : Interpretation Int := fun _ operands _ => (operands.map (·.2)).sum

theorem productSegments_sound :
    ∃ result, executePrograms productShape sumOperands productPrograms (fun _ => 5) = some result ∧
      executePrograms productShape sumOperands productSegments (fun _ => 5) = some result := by
  have h : checkSymbolically productShape productPrograms productSegments = .ok () := by rfl
  exact checkSymbolically_sound h sumOperands fun _ => 5

end Rumoca.Solve
