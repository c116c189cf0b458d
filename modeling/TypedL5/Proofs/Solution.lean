import TypedL5.Proofs.Ground
import TypedL5.Proofs.Growth

/-! Assignments that satisfy a store. -/
namespace TypedL5

/-- Each bound variable stands for what it is bound to. -/
def Assignment.Satisfies (ρ : Assignment) (s : Store) : Prop :=
  ∀ v t, s.contents? v = some t → ρ v = t.eval ρ

namespace Store

variable {s s' : Store} {ρ : Assignment} {v : TyVar} {t : Ty}

/-- A new binding leaves the assignments that agree with it. -/
theorem satisfies_bind_iff (hv : s.contents? v = none) :
    ρ.Satisfies (s.bind v t) ↔ ρ.Satisfies s ∧ ρ v = t.eval ρ := by
  constructor
  · intro h
    refine ⟨fun w u hw => h w u (bind_extends hv w u hw), h v t ?_⟩
    simp [contents?_bind]
  · rintro ⟨hs, ht⟩ w u hw
    by_cases hwv : w = v
    · subst w
      rw [contents?_bind, if_pos rfl, Option.some.injEq] at hw
      rw [ht, hw]
    · rw [contents?_bind, if_neg hwv] at hw
      exact hs w u hw

theorem eval_deref (h : s.Acyclic) (hρ : ρ.Satisfies s) (t : Ty) :
    (s.deref t).eval ρ = t.eval ρ := by
  induction t using h.induction with
  | base b => simp
  | free v hv => rw [deref_unbound hv]
  | bound v u hv ih => rw [deref_bound h hv, ih, Ty.eval_var, hρ v u hv]
  | pair l r => simp
  | proc ps r => simp

theorem eval_resolve (h : s.Acyclic) (hρ : ρ.Satisfies s) (t : Ty) :
    (s.resolve t).eval ρ = t.eval ρ := by
  induction t using h.induction with
  | base b => simp
  | free v hv => rw [resolve_unbound hv]
  | bound v u hv ih => rw [resolve_bound h hv, ih, Ty.eval_var, hρ v u hv]
  | pair l r ihl ihr => simp [ihl, ihr]
  | proc ps r ihp ihr => simpa [ihr] using ihp

/-- The assignment that gives the variables which are not bound their types by `θ`. -/
def solution (s : Store) (θ : Assignment) : Assignment := fun v => (s.resolve (.var v)).eval θ

theorem solution_of_unbound (h : s.contents? v = none) (θ : Assignment) :
    s.solution θ v = θ v := by
  rw [solution, resolve_unbound h, Ty.eval_var]

/-- Under the assignment that a store leads to, a type has the value of what it stands for. -/
theorem eval_solution (s : Store) (θ : Assignment) (t : Ty) :
    t.eval (s.solution θ) = (s.resolve t).eval θ := by
  induction t with
  | base b => simp
  | var v => rfl
  | pair l r ihl ihr => simp [ihl, ihr]
  | proc ps r ihp ihr => simpa [ihr] using ihp

theorem solution_satisfies (h : s.Acyclic) (θ : Assignment) : (s.solution θ).Satisfies s := by
  intro v t ht
  rw [eval_solution, solution, resolve_bound h ht]

end Store

end TypedL5
