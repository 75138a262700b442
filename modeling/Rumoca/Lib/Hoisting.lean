import Rumoca.Lib.Straightline
/-!
# Hoisting

Straight-line code in two stages: the instructions that only compute from
registers of their own kind run first, the others after them over the registers
that the first stage leaves. Each register of a hoisted instruction is written
once, so the first stage leaves in it what the whole program reads there.
-/

namespace Rumoca.Lib

def remaining {Op : Type} (p : Flagged Op) : List Op := (p.filter (!·.2)).map (·.1)

namespace Accesses

variable {Op : Type}

/-- The registers of `held` are written by hoisted instructions, once, and a hoisted instruction
reads no others. -/
def Hoists (a : Accesses Op) (held : Nat → Prop) : (defined : Nat → Prop) → Flagged Op → Prop
  | _, [] => True
  | defined, (op, true) :: rest => (∀ r ∈ a.reads op, held r ∧ defined r) ∧
      (∀ r ∈ a.writes op, held r ∧ ¬ defined r) ∧ Hoists a held (fun r => defined r ∨ r ∈ a.writes op) rest
  | defined, (op, false) :: rest =>
    (∀ r ∈ a.writes op, ¬ held r) ∧ Hoists a held (fun r => defined r ∨ r ∈ a.writes op) rest

theorem held_of_readNext {a : Accesses Op} {held defined done : Nat → Prop} {p : Flagged Op}
    (h : a.Flows defined (p.map (·.1))) (hdefined : ∀ r, defined r → held r ∨ done r)
    (hheld : ∀ op ∈ kept p, ∀ r ∈ a.writes op, held r) {r : Nat} (hr : a.ReadNext (remaining p) r) (hdone : ¬ done r) :
    held r := by
  induction p generalizing defined done with
  | nil => cases hr
  | cons first rest ih =>
    obtain ⟨op, hoisted⟩ := first
    cases hoisted with
    | true =>
      refine ih h.2 (fun r hr => ?_) (fun o ho => hheld o (List.mem_cons_of_mem _ ho)) hr hdone
      exact hr.elim (hdefined r) fun hw => .inl (hheld op List.mem_cons_self r hw)
    | false =>
      rcases hr with hr | ⟨hw, hr⟩
      · exact (hdefined r (h.1 r hr)).resolve_right hdone
      · have hwritten : ∀ r, defined r ∨ r ∈ a.writes op → held r ∨ done r ∨ r ∈ a.writes op := by
          rintro r (hr | hr)
          · exact (hdefined r hr).imp_right .inl
          · exact .inr (.inr hr)
        exact ih h.2 hwritten hheld hr (not_or.2 ⟨hdone, hw⟩)

end Accesses

namespace Instructions

variable {Op V E : Type} {m : Instructions Op V E}

def Steady (m : Instructions Op V E) (op : Op) : Prop :=
  ∃ f : List V → Option (List V), ∀ e vs, m.run op e vs = (f vs).map (·, e)

theorem step_eq_bind (s : (Nat → Option V) × E) (op : Op) : m.step s op =
    ((m.reads op).mapM s.1).bind fun vs => (m.run op s.2 vs).map fun r => (writeAll s.1 (m.writes op) r.1, r.2) := by
  unfold step
  cases (m.reads op).mapM s.1 with
  | none => rfl
  | some vs => cases h : m.run op s.2 vs <;> simp [h]

theorem execute_cons (op : Op) (rest : List Op) (s : (Nat → Option V) × E) :
    m.execute (op :: rest) s = (m.step s op).bind (m.execute rest) := rfl

theorem execute_append (p q : List Op) (s : (Nat → Option V) × E) :
    m.execute (p ++ q) s = (m.execute p s).bind (m.execute q) := List.foldlM_append

/-- From the same operands an instruction writes the same values in both runs. -/
theorem step_of_reads {s t : (Nat → Option V) × E} {op : Op} (hreads : ∀ r ∈ m.reads op, s.1 r = t.1 r) (he : s.2 = t.2) :
    (m.step s op = none ∧ m.step t op = none) ∨ ∃ written e,
      m.step s op = some (writeAll s.1 (m.writes op) written, e) ∧
        m.step t op = some (writeAll t.1 (m.writes op) written, e) := by
  rw [step_eq_bind, step_eq_bind, mapM_congr_registers hreads, he]
  cases (m.reads op).mapM t.1 with
  | none => exact .inl ⟨rfl, rfl⟩
  | some vs =>
    cases h : m.run op t.2 vs with
    | none => exact .inl ⟨by simp [h], by simp [h]⟩
    | some r => exact .inr ⟨r.1, r.2, by simp [h], by simp [h]⟩

/-- A steady instruction leaves the rest of the state, and computes the same over any. -/
theorem Steady.step {op : Op} (h : m.Steady op) {s t : (Nat → Option V) × E} (hreads : ∀ r ∈ m.reads op, s.1 r = t.1 r) :
    (m.step s op = none ∧ m.step t op = none) ∨ ∃ written,
      m.step s op = some (writeAll s.1 (m.writes op) written, s.2) ∧
        m.step t op = some (writeAll t.1 (m.writes op) written, t.2) := by
  obtain ⟨f, hf⟩ := h
  rw [step_eq_bind, step_eq_bind, mapM_congr_registers hreads]
  cases (m.reads op).mapM t.1 with
  | none => exact .inl ⟨rfl, rfl⟩
  | some vs =>
    simp only [Option.bind_some, hf]
    cases f vs with
    | none => exact .inl ⟨rfl, rfl⟩
    | some written => exact .inr ⟨written, rfl, rfl⟩

/-- The first stage keeps the registers that are defined already, and the rest of the state. -/
theorem execute_hoisted_frame {held defined : Nat → Prop} {p : Flagged Op} (hp : m.Hoists held defined p)
    (hsteady : ∀ a ∈ p, a.2 = true → m.Steady a.1) {s t : (Nat → Option V) × E} (h : m.execute (kept p) s = some t) :
    t.2 = s.2 ∧ ∀ r, defined r → held r → t.1 r = s.1 r := by
  induction p generalizing defined s with
  | nil =>
    cases h
    exact ⟨rfl, fun _ _ _ => rfl⟩
  | cons a rest ih =>
    obtain ⟨op, hoisted⟩ := a
    have hrest := fun a ha => hsteady a (List.mem_cons_of_mem _ ha)
    cases hoisted with
    | false =>
      obtain ⟨he, hkeep⟩ := ih hp.2 hrest h
      exact ⟨he, fun r hd => hkeep r (.inl hd)⟩
    | true =>
      obtain ⟨-, hwrites, hp⟩ := hp
      rw [kept_cons_true, execute_cons] at h
      obtain ⟨u, hu, h⟩ := Option.bind_eq_some_iff.1 h
      obtain ⟨hnone, -⟩ | ⟨written, hsome, -⟩ :=
        (hsteady _ List.mem_cons_self rfl).step (s := s) (t := s) fun _ _ => rfl
      · cases hnone.symm.trans hu
      · cases hsome.symm.trans hu
        obtain ⟨he, hkeep⟩ := ih hp hrest h
        refine ⟨he, fun r hd hheld => (hkeep r (.inl hd) hheld).trans ?_⟩
        exact if_neg fun hw => (hwrites r hw).2 hd

theorem execute_hoisted_none {held defined : Nat → Prop} {p : Flagged Op} (hp : m.Hoists held defined p)
    (hsteady : ∀ a ∈ p, a.2 = true → m.Steady a.1) {s t : (Nat → Option V) × E}
    (hst : ∀ r, defined r → held r → s.1 r = t.1 r) (h : m.execute (kept p) t = none) :
    m.execute (p.map (·.1)) s = none := by
  induction p generalizing defined s t with
  | nil => cases h
  | cons a rest ih =>
    obtain ⟨op, hoisted⟩ := a
    have hrest := fun a ha => hsteady a (List.mem_cons_of_mem _ ha)
    rw [List.map_cons, execute_cons]
    cases hoisted with
    | false =>
      cases hs : m.step s op with
      | none => rfl
      | some u =>
        obtain ⟨-, hnone⟩ | ⟨written, e, hsome, -⟩ := m.step_of_reads (s := s) (fun r (_ : r ∈ m.reads op) => rfl) rfl
        · cases hnone.symm.trans hs
        · cases hsome.symm.trans hs
          refine ih hp.2 hrest (fun r hd hheld => ?_) h
          have hw : r ∉ m.writes op := fun hw => hp.1 r hw hheld
          exact (if_neg hw).trans (hst r (hd.resolve_right hw) hheld)
    | true =>
      obtain ⟨hreads, -, hp⟩ := hp
      rw [kept_cons_true, execute_cons] at h
      obtain ⟨hnone, -⟩ | ⟨written, hs, ht⟩ := (hsteady _ List.mem_cons_self rfl).step (s := s) (t := t)
        fun r hr => hst r (hreads r hr).2 (hreads r hr).1
      · rw [hnone]
        rfl
      · rw [ht] at h
        rw [hs]
        refine ih hp hrest (fun r hd hheld => ?_) h
        simp only [writeAll]
        split
        · rfl
        · next hw => exact hst r (hd.resolve_right hw) hheld

/-- The two stages do what the program does. The run of the first stage may begin with other
values of the state; `s'` has what it leaves in the registers that the second stage reads. -/
theorem execute_remaining {held defined : Nat → Prop} {p : Flagged Op} (hp : m.Hoists held defined p)
    (hsteady : ∀ a ∈ p, a.2 = true → m.Steady a.1) (hflow : m.Flows defined (p.map (·.1)))
    {s s' t u : (Nat → Option V) × E} (h : m.execute (kept p) t = some u)
    (hst : ∀ r, defined r → held r → s.1 r = t.1 r) (hss : ∀ r, defined r → ¬ held r → s.1 r = s'.1 r) (he : s.2 = s'.2)
    (hlive : ∀ r, held r → m.ReadNext (remaining p) r → s'.1 r = u.1 r) :
    (m.execute (p.map (·.1)) s).map (·.2) = (m.execute (remaining p) s').map (·.2) := by
  induction p generalizing defined s s' t with
  | nil => exact congrArg some he
  | cons a rest ih =>
    obtain ⟨op, hoisted⟩ := a
    have hrest := fun a ha => hsteady a (List.mem_cons_of_mem _ ha)
    obtain ⟨hdefined, hflow⟩ := hflow
    rw [List.map_cons, execute_cons]
    cases hoisted with
    | false =>
      obtain ⟨hwrites, hp⟩ := hp
      -- a held register that is read was left by the first stage before
      have hreads : ∀ r ∈ m.reads op, s.1 r = s'.1 r := by
        intro r hr
        by_cases hheld : held r
        · have hframe := (execute_hoisted_frame hp hrest h).2 r (.inl (hdefined r hr)) hheld
          rw [hst r (hdefined r hr) hheld, ← hframe, hlive r hheld (.inl hr)]
        · exact hss r (hdefined r hr) hheld
      change _ = (m.execute (op :: remaining rest) s').map (·.2)
      rw [execute_cons]
      obtain ⟨hs, hs'⟩ | ⟨written, e, hs, hs'⟩ := step_of_reads hreads he
      · rw [hs, hs']
        rfl
      · rw [hs, hs']
        refine ih hp hrest hflow h (fun r hd hheld => ?_) (fun r hd hheld => ?_) rfl fun r hheld hr => ?_
        · have hw : r ∉ m.writes op := fun hw => hwrites r hw hheld
          exact (if_neg hw).trans (hst r (hd.resolve_right hw) hheld)
        · simp only [writeAll]
          split
          · rfl
          · next hw => exact hss r (hd.resolve_right hw) hheld
        · have hw : r ∉ m.writes op := fun hw => hwrites r hw hheld
          exact (if_neg hw).trans (hlive r hheld (.inr ⟨hw, hr⟩))
    | true =>
      obtain ⟨hreads, hwrites, hp⟩ := hp
      rw [kept_cons_true, execute_cons] at h
      obtain ⟨t', ht', h⟩ := Option.bind_eq_some_iff.1 h
      obtain ⟨-, hnone⟩ | ⟨written, hs, ht⟩ := (hsteady _ List.mem_cons_self rfl).step (s := s) (t := t)
        fun r hr => hst r (hreads r hr).2 (hreads r hr).1
      · cases hnone.symm.trans ht'
      · cases ht.symm.trans ht'
        rw [hs]
        refine ih hp hrest hflow h (fun r hd hheld => ?_) (fun r hd hheld => ?_) he hlive
        · simp only [writeAll]
          split
          · rfl
          · next hw => exact hst r (hd.resolve_right hw) hheld
        · have hw : r ∉ m.writes op := fun hw => hheld (hwrites r hw).1
          exact (if_neg hw).trans (hss r (hd.resolve_right hw) hheld)

theorem execute_defined {p : List Op} {s t : (Nat → Option V) × E} (h : m.execute p s = some t) {defined : Nat → Prop}
    (hd : ∀ r, defined r → (s.1 r).isSome) (r : Nat) (hr : defined r ∨ ∃ op ∈ p, r ∈ m.writes op) : (t.1 r).isSome := by
  induction p generalizing s defined with
  | nil =>
    cases h
    exact hd r (by simpa using hr)
  | cons op rest ih =>
    rw [execute_cons] at h
    obtain ⟨u, hu, h⟩ := Option.bind_eq_some_iff.1 h
    refine ih h (step_defined hu hd) ?_
    simpa [or_assoc] using hr

theorem execute_congr (m m' : Instructions Op V E) (hacc : m.toAccesses = m'.toAccesses) {p : List Op}
    (h : ∀ op ∈ p, m.run op = m'.run op) : m.execute p = m'.execute p := by
  induction p with
  | nil => rfl
  | cons op rest ih =>
    funext s
    have hstep : m.step s op = m'.step s op := by
      unfold step
      rw [hacc, h op List.mem_cons_self]
    rw [execute_cons, execute_cons, hstep, ih fun o ho => h o (List.mem_cons_of_mem op ho)]

end Instructions

end Rumoca.Lib
