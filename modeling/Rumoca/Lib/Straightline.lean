import Mathlib.Data.List.Basic
import Mathlib.Data.Set.Basic
/-!
# Straight-line code

Instructions that read registers, write registers and change some other state.
A register is live before a program when a kept instruction reads it before any
instruction writes it. Instructions that only compute can be left out where
nothing that they write is live: `execute_kept` says that the rest of the state
comes out the same, and `Flows.kept` that every register read is still defined.
-/

namespace Rumoca.Lib

/-- The registers that instructions read and write. -/
structure Accesses (Op : Type) where
  reads : Op → List Nat
  writes : Op → List Nat

/-- What instructions compute from the values read and the rest of the state. -/
structure Instructions (Op V E : Type) extends Accesses Op where
  run : Op → E → List V → Option (List V × E)
  run_length : ∀ op e vs r, run op e vs = some r → r.1.length = (writes op).length

abbrev Flagged (Op : Type) := List (Op × Bool)

def kept {Op : Type} (p : Flagged Op) : List Op := (p.filter (·.2)).map (·.1)

theorem kept_cons_true {Op : Type} (op : Op) (rest : Flagged Op) : kept ((op, true) :: rest) = op :: kept rest := rfl

theorem kept_eq_append {Op : Type} {p : Flagged Op} {pre post : List Op} {op : Op} (h : kept p = pre ++ op :: post) :
    ∃ pre' post', p = pre' ++ (op, true) :: post' ∧ kept pre' = pre ∧ kept post' = post := by
  induction p generalizing pre with
  | nil => exact absurd h (by simp [kept])
  | cons first rest ih =>
    obtain ⟨o, keep⟩ := first
    cases keep with
    | false =>
      obtain ⟨pre', post', rfl, hpre, hpost⟩ := ih h
      exact ⟨(o, false) :: pre', post', rfl, hpre, hpost⟩
    | true =>
      rw [kept_cons_true] at h
      cases pre with
      | nil =>
        obtain ⟨rfl, rfl⟩ := List.cons_eq_cons.1 h
        exact ⟨[], rest, rfl, rfl, rfl⟩
      | cons o' pre =>
        obtain ⟨rfl, htail⟩ := List.cons_eq_cons.1 h
        obtain ⟨pre', post', rfl, hpre, hpost⟩ := ih htail
        exact ⟨(o, true) :: pre', post', rfl, congrArg (o :: ·) hpre, hpost⟩

theorem kept_sublist {Op : Type} {p : Flagged Op} : (kept p).Sublist (p.map (·.1)) := List.filter_sublist.map _

theorem kept_of_all {Op : Type} {p : Flagged Op} (h : ∀ a ∈ p, a.2 = true) : kept p = p.map (·.1) := by
  rw [kept, List.filter_eq_self.2 h]

theorem mem_of_mem_kept {Op : Type} {p : Flagged Op} {op : Op} (h : op ∈ kept p) : op ∈ p.map (·.1) := by
  obtain ⟨first, hfirst, rfl⟩ := List.mem_map.1 h
  exact List.mem_map_of_mem (List.mem_filter.1 hfirst).1

/-! ## Liveness -/

namespace Accesses

variable {Op : Type}

def Flows (a : Accesses Op) (defined : Nat → Prop) : List Op → Prop
  | [] => True
  | op :: rest => (∀ r ∈ a.reads op, defined r) ∧ Flows a (fun r => defined r ∨ r ∈ a.writes op) rest

def ReadNext (a : Accesses Op) : List Op → Nat → Prop
  | [], _ => False
  | op :: rest, r => r ∈ a.reads op ∨ (r ∉ a.writes op ∧ ReadNext a rest r)

def LiveIn (a : Accesses Op) : Flagged Op → Nat → Prop
  | [], _ => False
  | (op, keep) :: rest, r => (keep = true ∧ r ∈ a.reads op) ∨ (r ∉ a.writes op ∧ LiveIn a rest r)

def Droppable (a : Accesses Op) : Flagged Op → Prop
  | [] => True
  | (op, keep) :: rest => (keep = false → ∀ r ∈ a.writes op, ¬ LiveIn a rest r) ∧ Droppable a rest

def Unread (a : Accesses Op) : Flagged Op → Prop
  | [] => True
  | (op, keep) :: rest => (keep = false → ∀ r ∈ a.writes op, ¬ a.ReadNext (rest.map (·.1)) r) ∧ Unread a rest

instance decidableReadNext (a : Accesses Op) : (p : List Op) → (r : Nat) → Decidable (a.ReadNext p r)
  | [], _ => inferInstanceAs (Decidable False)
  | op :: rest, r =>
    have := decidableReadNext a rest r
    inferInstanceAs (Decidable (r ∈ a.reads op ∨ (r ∉ a.writes op ∧ a.ReadNext rest r)))

instance decidableUnread (a : Accesses Op) : (p : Flagged Op) → Decidable (a.Unread p)
  | [] => inferInstanceAs (Decidable True)
  | (op, keep) :: rest =>
    have := decidableUnread a rest
    inferInstanceAs (Decidable ((keep = false → ∀ r ∈ a.writes op, ¬ a.ReadNext (rest.map (·.1)) r) ∧ a.Unread rest))

variable {a : Accesses Op}

theorem LiveIn.readNext {p : Flagged Op} {r : Nat} (h : a.LiveIn p r) : a.ReadNext (p.map (·.1)) r := by
  induction p with
  | nil => exact h
  | cons first rest ih =>
    rcases h with ⟨-, h⟩ | ⟨hw, h⟩
    · exact .inl h
    · exact .inr ⟨hw, ih h⟩

theorem Unread.droppable {p : Flagged Op} (h : a.Unread p) : a.Droppable p := by
  induction p with
  | nil => trivial
  | cons first rest ih => exact ⟨fun hkeep r hr hlive => h.1 hkeep r hr hlive.readNext, ih h.2⟩

theorem Unread.readNext {p : Flagged Op} (h : a.Unread p) {r : Nat} (hr : a.ReadNext (kept p) r) :
    a.ReadNext (p.map (·.1)) r := by
  induction p with
  | nil => cases hr
  | cons first rest ih =>
    obtain ⟨op, keep⟩ := first
    cases keep with
    | true => exact hr.imp_right fun hr => ⟨hr.1, ih h.2 hr.2⟩
    | false =>
      have hrest := ih h.2 hr
      exact .inr ⟨fun hw => h.1 rfl r hw hrest, hrest⟩

theorem Unread.of_append {p q : Flagged Op} (h : a.Unread (p ++ q)) : a.Unread q := by
  induction p with
  | nil => exact h
  | cons first rest ih => exact ih h.2

theorem unread_iff {p : Flagged Op} : a.Unread p ↔
    ∀ pre op post, p = pre ++ (op, false) :: post → ∀ r ∈ a.writes op, ¬ a.ReadNext (post.map (·.1)) r := by
  constructor
  · rintro h pre op post rfl
    exact h.of_append.1 rfl
  · intro h
    induction p with
    | nil => trivial
    | cons first rest ih =>
      refine ⟨fun hkeep => ?_, ih fun pre op post hp => h (first :: pre) op post (congrArg (first :: ·) hp)⟩
      exact h [] first.1 rest (by rw [← hkeep]; rfl)

theorem LiveIn.exists_read {p : Flagged Op} {r : Nat} (h : a.LiveIn p r) :
    ∃ pre op post, p = pre ++ (op, true) :: post ∧ r ∈ a.reads op ∧ ∀ b ∈ pre, r ∉ a.writes b.1 := by
  induction p with
  | nil => cases h
  | cons first rest ih =>
    obtain ⟨o, keep⟩ := first
    rcases h with ⟨rfl, hr⟩ | ⟨hw, h⟩
    · exact ⟨[], o, rest, rfl, hr, by simp⟩
    · obtain ⟨pre, op, post, rfl, hr, hpre⟩ := ih h
      refine ⟨(o, keep) :: pre, op, post, rfl, hr, fun b hb => ?_⟩
      rcases List.mem_cons.1 hb with rfl | hb
      · exact hw
      · exact hpre b hb

theorem droppable_of_forall {p : Flagged Op}
    (h : ∀ pre op post, p = pre ++ (op, false) :: post → ∀ r ∈ a.writes op, ¬ a.LiveIn post r) : a.Droppable p := by
  induction p with
  | nil => trivial
  | cons first rest ih =>
    refine ⟨fun hkeep => ?_, ih fun pre op post hp => h (first :: pre) op post (congrArg (first :: ·) hp)⟩
    exact h [] first.1 rest (by rw [← hkeep]; rfl)

theorem Droppable.flows {p : Flagged Op} {defined : Nat → Prop} (hdrop : a.Droppable p)
    (hd : ∀ r, a.LiveIn p r → defined r) : a.Flows defined (kept p) := by
  induction p generalizing defined with
  | nil => trivial
  | cons first rest ih =>
    obtain ⟨op, keep⟩ := first
    obtain ⟨hop, hdrop⟩ := hdrop
    cases keep with
    | true =>
      refine ⟨fun r hr => hd r (.inl ⟨rfl, hr⟩), ih hdrop fun r hr => ?_⟩
      by_cases hw : r ∈ a.writes op
      · exact .inr hw
      · exact .inl (hd r (.inr ⟨hw, hr⟩))
    | false => exact ih hdrop fun r hr => hd r (.inr ⟨fun hw => hop rfl r hw hr, hr⟩)

theorem Flows.readNext {p : List Op} {defined : Nat → Prop} (h : a.Flows defined p) {r : Nat} (hr : a.ReadNext p r) :
    defined r := by
  induction p generalizing defined with
  | nil => cases hr
  | cons op rest ih =>
    rcases hr with hr | ⟨hw, hr⟩
    · exact h.1 r hr
    · exact (ih h.2 hr).resolve_right hw

theorem Flows.kept {p : Flagged Op} {defined : Nat → Prop} (h : a.Flows defined (p.map (·.1))) (hdrop : a.Droppable p) :
    a.Flows defined (kept p) := hdrop.flows fun _ hr => h.readNext hr.readNext

end Accesses

/-! ## Execution -/

namespace Instructions

variable {Op V E : Type} (m : Instructions Op V E)

def writeAll (registers : Nat → Option V) (targets : List Nat) (values : List V) (r : Nat) : Option V :=
  if r ∈ targets then values[targets.idxOf r]? else registers r

def step (s : (Nat → Option V) × E) (op : Op) : Option ((Nat → Option V) × E) := do
  let operands ← (m.reads op).mapM s.1
  let (written, e) ← m.run op s.2 operands
  return (writeAll s.1 (m.writes op) written, e)

def execute (p : List Op) (s : (Nat → Option V) × E) : Option ((Nat → Option V) × E) := p.foldlM m.step s

/-- An instruction that cannot fail and changes nothing but its registers. -/
def Pure (op : Op) : Prop :=
  ∀ e vs, vs.length = (m.reads op).length → ∃ written, m.run op e vs = some (written, e)

variable {m}

theorem mapM_isSome {registers : Nat → Option V} {rs : List Nat} (h : ∀ r ∈ rs, (registers r).isSome) :
    ∃ vs, rs.mapM registers = some vs ∧ vs.length = rs.length := by
  induction rs with
  | nil => exact ⟨[], rfl, rfl⟩
  | cons r rs ih =>
    obtain ⟨v, hv⟩ := Option.isSome_iff_exists.1 (h r List.mem_cons_self)
    obtain ⟨vs, hvs, hlen⟩ := ih fun x hx => h x (List.mem_cons_of_mem r hx)
    exact ⟨v :: vs, by simp [List.mapM_cons, hv, hvs], congrArg Nat.succ hlen⟩

theorem mapM_congr_registers {registers registers' : Nat → Option V} {rs : List Nat}
    (h : ∀ r ∈ rs, registers r = registers' r) : rs.mapM registers = rs.mapM registers' := by
  induction rs with
  | nil => rfl
  | cons r rs ih =>
    rw [List.mapM_cons, List.mapM_cons, h r List.mem_cons_self, ih fun x hx => h x (List.mem_cons_of_mem r hx)]

theorem step_defined {s s' : (Nat → Option V) × E} {op : Op} (h : m.step s op = some s') {defined : Nat → Prop}
    (hd : ∀ r, defined r → (s.1 r).isSome) (r : Nat) (hr : defined r ∨ r ∈ m.writes op) : (s'.1 r).isSome := by
  unfold step at h
  obtain ⟨operands, -, h⟩ := Option.bind_eq_some_iff.1 h
  obtain ⟨⟨written, e⟩, hrun, h⟩ := Option.bind_eq_some_iff.1 h
  cases h
  have hlen : written.length = (m.writes op).length := m.run_length _ _ _ _ hrun
  simp only [writeAll]
  by_cases hw : r ∈ m.writes op
  · rw [if_pos hw]
    have hlt := List.idxOf_lt_length_of_mem hw
    rw [List.getElem?_eq_getElem (by omega)]
    rfl
  · rw [if_neg hw]
    exact hd r (hr.resolve_right hw)

/-- Leaving out dead computations does not change what becomes of the rest of the state. -/
theorem execute_kept {p : Flagged Op} {defined : Nat → Prop} {s s' : (Nat → Option V) × E}
    (hflow : m.Flows defined (p.map (·.1))) (hpure : ∀ a ∈ p, a.2 = false → m.Pure a.1) (hdrop : m.Droppable p) (hd : ∀ r, defined r → (s.1 r).isSome)
    (hrest : s.2 = s'.2) (hlive : ∀ r, m.LiveIn p r → s.1 r = s'.1 r) :
    (m.execute (p.map (·.1)) s).map (·.2) = (m.execute (kept p) s').map (·.2) := by
  induction p generalizing defined s s' with
  | nil => exact congrArg some hrest
  | cons a rest ih =>
    obtain ⟨op, keep⟩ := a
    obtain ⟨hreads, hflow⟩ := hflow
    obtain ⟨hop, hdrop⟩ := hdrop
    have hpure' : ∀ a ∈ rest, a.2 = false → m.Pure a.1 := fun a ha => hpure a (List.mem_cons_of_mem _ ha)
    have hafter : ∀ r ∉ m.writes op, m.LiveIn rest r → s.1 r = s'.1 r := fun r hw hr => hlive r (.inr ⟨hw, hr⟩)
    have hrun : m.execute (((op, keep) :: rest).map (·.1)) s = (m.step s op).bind (m.execute (rest.map (·.1))) := rfl
    rw [hrun]
    cases keep with
    | true =>
      -- the operands are live, so both runs compute the same
      have hoperands : (m.reads op).mapM s.1 = (m.reads op).mapM s'.1 :=
        mapM_congr_registers fun r hr => hlive r (.inl ⟨rfl, hr⟩)
      have hrun' : m.execute (kept ((op, true) :: rest)) s' = (m.step s' op).bind (m.execute (kept rest)) := rfl
      rw [hrun']
      cases hstep : m.step s op with
      | none =>
        have hstep' : m.step s' op = none := by
          unfold step at hstep ⊢
          rw [← hoperands, ← hrest]
          cases hvs : (m.reads op).mapM s.1 with
          | none => rfl
          | some operands =>
            rw [hvs] at hstep
            cases hr : m.run op s.2 operands with
            | none => simp [hr]
            | some r => simp [hr] at hstep
        rw [hstep']
        rfl
      | some t =>
        have hdefined := step_defined hstep hd
        unfold step at hstep
        obtain ⟨operands, hvs, hstep⟩ := Option.bind_eq_some_iff.1 hstep
        obtain ⟨⟨written, e⟩, hr, hstep⟩ := Option.bind_eq_some_iff.1 hstep
        cases hstep
        have hstep' : m.step s' op = some (writeAll s'.1 (m.writes op) written, e) := by
          unfold step
          rw [← hoperands, hvs, ← hrest]
          simp [hr]
        rw [hstep']
        refine ih hflow hpure' hdrop hdefined rfl fun r hr => ?_
        simp only [writeAll]
        by_cases hw : r ∈ m.writes op
        · rw [if_pos hw, if_pos hw]
        · rw [if_neg hw, if_neg hw]
          exact hafter r hw hr
    | false =>
      have hdead := hop rfl
      obtain ⟨operands, hvs, hlen⟩ := mapM_isSome fun r hr => hd r (hreads r hr)
      obtain ⟨written, hr⟩ := hpure (op, false) List.mem_cons_self rfl s.2 operands hlen
      have hstep : m.step s op = some (writeAll s.1 (m.writes op) written, s.2) := by
        unfold step
        simp [hvs, hr]
      have hdefined := step_defined hstep hd
      rw [hstep]
      refine ih hflow hpure' hdrop hdefined hrest fun r hr => ?_
      have hw : r ∉ m.writes op := fun hw => hdead r hw hr
      exact (if_neg hw).trans (hafter r hw hr)

end Instructions

end Rumoca.Lib
