import Rumoca.Lib.Straightline
/-!
# Moving registers

A placement sends every register to another. Straight-line code whose accesses
are placed computes the same when no write lands on a register that is read
later and was not written again before: `execute_relocated`.
-/

namespace Rumoca.Lib

namespace Accesses

variable {Op : Type}

/-- No instruction's write lands on another register that is read after it, before a write to it. -/
def Apart (a : Accesses Op) (place : Nat → Nat) : List Op → Prop
  | [] => True
  | op :: rest => (∀ w ∈ a.writes op, ∀ r, a.ReadNext rest r → r ≠ w → place r ≠ place w) ∧ Apart a place rest

theorem ReadNext.exists_read {a : Accesses Op} {p : List Op} {r : Nat} (h : a.ReadNext p r) :
    ∃ pre op post, p = pre ++ op :: post ∧ r ∈ a.reads op ∧ ∀ o ∈ pre, r ∉ a.writes o := by
  induction p with
  | nil => cases h
  | cons first rest ih =>
    rcases h with h | ⟨hw, h⟩
    · exact ⟨[], first, rest, rfl, h, by simp⟩
    · obtain ⟨pre, op, post, rfl, hr, hpre⟩ := ih h
      exact ⟨first :: pre, op, post, rfl, hr, List.forall_mem_cons.2 ⟨hw, hpre⟩⟩

theorem apart_of_forall {a : Accesses Op} {place : Nat → Nat} {p : List Op}
    (h : ∀ pre op post, p = pre ++ op :: post → ∀ w ∈ a.writes op, ∀ r, a.ReadNext post r → r ≠ w →
      place r ≠ place w) : a.Apart place p := by
  induction p with
  | nil => trivial
  | cons op rest ih =>
    exact ⟨h [] op rest rfl, ih fun pre o post hp => h (op :: pre) o post (congrArg (op :: ·) hp)⟩

end Accesses

theorem idxOf_map {place : Nat → Nat} {r : Nat} {l : List Nat} (h : ∀ w ∈ l, place w = place r → w = r) :
    (l.map place).idxOf (place r) = l.idxOf r := by
  induction l with
  | nil => rfl
  | cons w l ih =>
    rw [List.map_cons, List.idxOf_cons, List.idxOf_cons, ih fun v hv => h v (List.mem_cons_of_mem w hv)]
    by_cases hw : w = r
    · simp [hw]
    · have hplace : place w ≠ place r := fun he => hw (h w List.mem_cons_self he)
      simp [beq_false_of_ne hw, beq_false_of_ne hplace]

namespace Instructions

variable {Op V E : Type} {m : Instructions Op V E}

theorem writeAll_map {place : Nat → Nat} {registers registers' : Nat → Option V} {targets : List Nat}
    {values : List V} {r : Nat} (hapart : ∀ w ∈ targets, r ≠ w → place r ≠ place w)
    (hsame : r ∉ targets → registers' (place r) = registers r) :
    writeAll registers' (targets.map place) values (place r) = writeAll registers targets values r := by
  have hinj : ∀ w ∈ targets, place w = place r → w = r := fun w hw he =>
    by_contra fun hne => hapart w hw (Ne.symm hne) he.symm
  unfold writeAll
  by_cases hr : r ∈ targets
  · rw [if_pos hr, if_pos (List.mem_map_of_mem hr), idxOf_map hinj]
  · have hplaced : place r ∉ targets.map place := by
      intro hmem
      obtain ⟨w, hw, he⟩ := List.mem_map.1 hmem
      exact hr (hinj w hw he ▸ hw)
    rw [if_neg hr, if_neg hplaced, hsame hr]

theorem mapM_map_place {f : Nat → Option V} {place : Nat → Nat} {l : List Nat} :
    (l.map place).mapM f = l.mapM fun r => f (place r) := by
  induction l with
  | nil => rfl
  | cons r l ih => rw [List.map_cons, List.mapM_cons, List.mapM_cons, ih]

/-- Code whose accesses are placed apart leaves the same rest of the state. -/
theorem execute_relocated {f : Op → Op} {place : Nat → Nat} {p : List Op}
    (haccess : ∀ op ∈ p, m.reads (f op) = (m.reads op).map place ∧ m.writes (f op) = (m.writes op).map place ∧
      m.run (f op) = m.run op)
    (hapart : m.Apart place p) {registers registers' : Nat → Option V}
    (hsame : ∀ r, m.ReadNext p r → registers' (place r) = registers r) (e : E) :
    (m.execute (p.map f) (registers', e)).map (·.2) = (m.execute p (registers, e)).map (·.2) := by
  induction p generalizing registers registers' e with
  | nil => rfl
  | cons op rest ih =>
    obtain ⟨hreads, hwrites, hrun⟩ := haccess op List.mem_cons_self
    have hoperands : (m.reads (f op)).mapM registers' = (m.reads op).mapM registers := by
      rw [hreads, mapM_map_place]
      exact mapM_congr_registers fun r hr => hsame r (.inl hr)
    unfold execute
    rw [List.map_cons, List.foldlM_cons, List.foldlM_cons]
    unfold step
    simp only [hoperands, hrun]
    cases (m.reads op).mapM registers with
    | none => rfl
    | some operands =>
      cases hresult : m.run op e operands with
      | none => simp [hresult]
      | some result =>
        simp only [Option.bind_eq_bind, Option.bind_some, hresult, hwrites, Option.pure_def]
        refine ih (fun o ho => haccess o (List.mem_cons_of_mem op ho)) hapart.2 (fun r hr => ?_) result.2
        exact writeAll_map (fun w hw => hapart.1 w hw r hr) fun hw => hsame r (.inr ⟨hw, hr⟩)

end Instructions

end Rumoca.Lib
