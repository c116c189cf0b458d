import TypedL5.Proofs.Computation
import TypedL5.Proofs.Solution
import TypedL5.Ty.Unify

/-! Unification as the working off of equations, from left to right. -/
namespace TypedL5

/-- What is to be done about two types that are to be made equal, chains of variables having
been followed. -/
inductive Meeting where
  | bind (v : TyVar) (t : Ty)
  /-- Their parts are to be made equal. -/
  | parts (eqs : List (Ty × Ty))
  | clash

/-- A variable on the left is bound before one on the right. -/
def Ty.meet : Ty → Ty → Meeting
  | .var v, u => .bind v u
  | t, .var v => .bind v t
  | .base a, .base b => if a = b then .parts [] else .clash
  | .pair l r, .pair l' r' => .parts [(l, l'), (r, r')]
  | .proc ps r, .proc qs q =>
    if ps.length = qs.length then .parts (ps.zip qs ++ [(r, q)]) else .clash
  | _, _ => .clash

namespace Ty

variable {t u w : Ty} {v : TyVar} {eqs : List (Ty × Ty)} {ρ : Assignment}

theorem meet_bind (h : t.meet u = .bind v w) :
    (t = .var v ∧ w = u) ∨ (u = .var v ∧ w = t) := by
  cases t <;> cases u <;> grind [meet]

theorem meet_parts (h : t.meet u = .parts eqs) :
    (∃ b, t = .base b ∧ u = .base b ∧ eqs = []) ∨
    (∃ l r l' r', t = .pair l r ∧ u = .pair l' r' ∧ eqs = [(l, l'), (r, r')]) ∨
    ∃ ps r qs q, t = .proc ps r ∧ u = .proc qs q ∧ ps.length = qs.length ∧
      eqs = ps.zip qs ++ [(r, q)] := by
  cases t <;> cases u <;> grind [meet]

theorem meet_clash (h : t.meet u = .clash) (ρ : Assignment) : t.eval ρ ≠ u.eval ρ := by
  cases t <;> cases u <;> simp [meet] at h ⊢
  case base.base => exact h
  case proc.proc ps r qs q =>
    intro he
    exact absurd (by simpa using congrArg List.length he) h

theorem forall_mem_zip_iff {ps qs : List Ty} (h : ps.length = qs.length) {β : Type}
    (f : Ty → β) :
    (∀ e ∈ ps.zip qs, f e.1 = f e.2) ↔ ps.map f = qs.map f := by
  induction ps generalizing qs with
  | nil =>
    cases qs with
    | nil => simp
    | cons q qs => simp at h
  | cons p ps ih =>
    cases qs with
    | nil => simp at h
    | cons q qs =>
      simp only [List.zip_cons_cons, List.forall_mem_cons, List.map_cons, List.cons.injEq,
        ih (Nat.succ.inj h)]

/-- Two types are read alike as soon as all their parts are. -/
theorem eval_eq_iff_of_meet (h : t.meet u = .parts eqs) :
    t.eval ρ = u.eval ρ ↔ ∀ e ∈ eqs, e.1.eval ρ = e.2.eval ρ := by
  rcases meet_parts h with ⟨b, rfl, rfl, rfl⟩ | ⟨l, r, l', r', rfl, rfl, rfl⟩ |
    ⟨ps, r, qs, q, rfl, rfl, hl, rfl⟩
  · simp
  · simp
  · simp only [eval_proc, Ground.proc.injEq, List.forall_mem_append, forall_mem_zip_iff hl,
      List.forall_mem_singleton]

theorem part_of_meet (h : t.meet u = .parts eqs) {e : Ty × Ty} (he : e ∈ eqs) :
    Part e.1 t ∧ Part e.2 u := by
  rcases meet_parts h with ⟨b, rfl, rfl, rfl⟩ | ⟨l, r, l', r', rfl, rfl, rfl⟩ |
    ⟨ps, r, qs, q, rfl, rfl, hl, rfl⟩
  · simp at he
  · simp only [List.mem_cons, List.not_mem_nil, or_false] at he
    rcases he with rfl | rfl
    · exact ⟨.left _ _, .left _ _⟩
    · exact ⟨.right _ _, .right _ _⟩
  · simp only [List.mem_append, List.mem_singleton] at he
    rcases he with he | rfl
    · exact ⟨.param _ (List.of_mem_zip he).1, .param _ (List.of_mem_zip he).2⟩
    · exact ⟨.result _ _, .result _ _⟩

end Ty

/-- How working off equations from a store ends. There is one case for each thing that can
become of the first. -/
inductive Store.Solve : Store → List (Ty × Ty) → EStateM.Result Clash Store Unit → Prop
  | done (s : Store) : Solve s [] (.ok () s)
  | bind {s t u v w eqs r} (hm : (s.deref t).meet (s.deref u) = .bind v w)
    (ho : s.occurs v w = false) (h : Solve (s.bind v w) eqs r) : Solve s ((t, u) :: eqs) r
  | cycle {s t u v w} (eqs) (hm : (s.deref t).meet (s.deref u) = .bind v w)
    (ho : s.occurs v w = true) : Solve s ((t, u) :: eqs) (.error (.cycle v w) s)
  | parts {s t u ds eqs r} (hm : (s.deref t).meet (s.deref u) = .parts ds)
    (h : Solve s (ds ++ eqs) r) : Solve s ((t, u) :: eqs) r
  | clash {s t u} (eqs) (hm : (s.deref t).meet (s.deref u) = .clash) :
    Solve s ((t, u) :: eqs) (.error (.mismatch (s.deref t) (s.deref u)) s)

namespace Store

variable {s s' : Store} {t u w : Ty} {v : TyVar} {eqs eqs' : List (Ty × Ty)} {c : Clash}
  {r : EStateM.Result Clash Store Unit} {ρ : Assignment}

theorem resolve_eq_of_meet (h : t.meet u = .parts eqs)
    (he : ∀ e ∈ eqs, s.resolve e.1 = s.resolve e.2) : s.resolve t = s.resolve u := by
  rcases Ty.meet_parts h with ⟨b, rfl, rfl, rfl⟩ | ⟨l, r, l', r', rfl, rfl, rfl⟩ |
    ⟨ps, r, qs, q, rfl, rfl, hl, rfl⟩
  · rfl
  · simp [he (l, l') (by simp), he (r, r') (by simp)]
  · have hps := (Ty.forall_mem_zip_iff hl s.resolve).mp fun e hm => he e (by simp [hm])
    simp [hps, he (r, q) (by simp)]

/-- Makes both sides of each equation equal. -/
def unifyEach (unify : Ty → Ty → UnifyM Unit) : List (Ty × Ty) → UnifyM Unit
  | [] => pure ()
  | (t, u) :: eqs => do
    unify t u
    unifyEach unify eqs

theorem unifyEach_cons (unify : Ty → Ty → UnifyM Unit) (t u : Ty) (eqs : List (Ty × Ty))
    (s : Store) : unifyEach unify ((t, u) :: eqs) s =
      match unify t u s with
      | .ok _ s' => unifyEach unify eqs s'
      | .error c s' => .error c s' := by
  rw [unifyEach, bind_apply]
  cases unify t u s <;> rfl

theorem bindVar_apply (v : TyVar) (t : Ty) (s : Store) : bindVar v t s =
    if s.occurs v t then .error (.cycle v t) s else .ok () (s.bind v t) := by
  rw [bindVar, bind_apply]
  change (if s.occurs v t then _ else _ : UnifyM Unit) s = _
  split <;> rfl

/-- What becomes of two types at the ends of their chains. -/
def unifyMet (unify : Ty → Ty → UnifyM Unit) (t u : Ty) : UnifyM Unit :=
  match t.meet u with
  | .bind v w => bindVar v w
  | .parts eqs => unifyEach unify eqs
  | .clash => throw (.mismatch t u)

theorem unifyEach_append (unify : Ty → Ty → UnifyM Unit) (eqs eqs' : List (Ty × Ty)) :
    unifyEach unify (eqs ++ eqs') =
      (unifyEach unify eqs >>= fun _ => unifyEach unify eqs') := by
  induction eqs with
  | nil => simp [unifyEach]
  | cons e eqs ih => simp [unifyEach, ih]

theorem unifyAll_eq_unifyEach (unify : Ty → Ty → UnifyM Unit) (ts us : List Ty) :
    unifyAll unify ts us = unifyEach unify (ts.zip us) := by
  induction ts generalizing us with
  | nil => simp [unifyAll, unifyEach]
  | cons t ts ih =>
    cases us with
    | nil => simp [unifyAll, unifyEach]
    | cons u us => simp [unifyAll, unifyEach, ih]

/-- One level of unification follows the chains and sees what the types come to. -/
theorem unifyUpTo_succ (n : Nat) (t u : Ty) (s : Store) :
    unifyUpTo (n + 1) t u s = unifyMet (unifyUpTo n) (s.deref t) (s.deref u) s := by
  have h : unifyUpTo (n + 1) t u =
      (get >>= fun s => unifyMet (unifyUpTo n) (s.deref t) (s.deref u)) := by
    rw [unifyUpTo]
    refine bind_congr fun s => ?_
    generalize s.deref t = a, s.deref u = b
    cases a <;> cases b <;> simp only [unifyMet, Ty.meet] <;> try split
    all_goals simp [unifyEach, unifyEach_append, unifyAll_eq_unifyEach]
  rw [h]
  rfl

theorem Solve.append (h : Solve s eqs (.ok () s')) (h' : Solve s' eqs' r) :
    Solve s (eqs ++ eqs') r := by
  generalize hr : EStateM.Result.ok () s' = q at h
  induction h with
  | done s =>
    cases hr
    exact h'
  | bind hm ho _ ih => exact .bind hm ho (ih hr)
  | cycle => cases hr
  | parts hm _ ih => exact .parts hm (by simpa using ih hr)
  | clash => cases hr

theorem Solve.append_error (h : Solve s eqs (.error c s')) (eqs' : List (Ty × Ty)) :
    Solve s (eqs ++ eqs') (.error c s') := by
  generalize hr : EStateM.Result.error c s' = q at h
  induction h with
  | done s => cases hr
  | bind hm ho _ ih => exact .bind hm ho (ih hr)
  | cycle _ hm ho =>
    cases hr
    exact .cycle _ hm ho
  | parts hm _ ih => exact .parts hm (by simpa using ih hr)
  | clash _ hm =>
    cases hr
    exact .clash _ hm

/-- There is one way only to work off equations. -/
theorem Solve.unique {r' : EStateM.Result Clash Store Unit} (h : Solve s eqs r)
    (h' : Solve s eqs r') : r = r' := by
  induction h with
  | done s =>
    cases h'
    rfl
  | bind hm ho _ ih =>
    -- How the first two types meet leaves one step only. Every other one contradicts it.
    cases h' with
    | bind hm' ho' h' =>
      rw [hm] at hm'
      cases hm'
      exact ih h'
    | cycle _ hm' ho' => simp_all
    | parts hm' => simp_all
    | clash _ hm' => simp_all
  | cycle _ hm ho =>
    cases h' with
    | bind hm' ho' => simp_all
    | cycle _ hm' ho' =>
      rw [hm] at hm'
      cases hm'
      rfl
    | parts hm' => simp_all
    | clash _ hm' => simp_all
  | parts hm _ ih =>
    cases h' with
    | bind hm' ho' => simp_all
    | cycle _ hm' ho' => simp_all
    | parts hm' h' =>
      rw [hm] at hm'
      cases hm'
      exact ih h'
    | clash _ hm' => simp_all
  | clash _ hm =>
    cases h' with
    | bind hm' ho' => simp_all
    | cycle _ hm' ho' => simp_all
    | parts hm' => simp_all
    | clash _ hm' => rfl

/-- A comparison that was not given up. -/
def Ended : EStateM.Result Clash Store Unit → Prop
  | .error (.endless _ _) _ => False
  | _ => True

/-- Working off a row of equations one by one is solving them. -/
theorem unifyEach_solve {unify : Ty → Ty → UnifyM Unit}
    (hu : ∀ t u s, Ended (unify t u s) → Solve s [(t, u)] (unify t u s)) (eqs : List (Ty × Ty))
    (s : Store) (h : Ended (unifyEach unify eqs s)) : Solve s eqs (unifyEach unify eqs s) := by
  induction eqs generalizing s with
  | nil => exact .done s
  | cons e eqs ih =>
    obtain ⟨t, u⟩ := e
    have ht := hu t u s
    rw [unifyEach_cons] at h ⊢
    cases hr : unify t u s with
    | ok a s' =>
      rw [hr] at ht h
      exact (ht trivial).append (ih s' h)
    | error c s' =>
      rw [hr] at ht h
      exact (ht h).append_error eqs

/-- What becomes of two types works off their equation, if what becomes of their parts does. -/
theorem unifyMet_solve {unify : Ty → Ty → UnifyM Unit}
    (hu : ∀ t u s, Ended (unify t u s) → Solve s [(t, u)] (unify t u s))
    (h : Ended (unifyMet unify (s.deref t) (s.deref u) s)) :
    Solve s [(t, u)] (unifyMet unify (s.deref t) (s.deref u) s) := by
  unfold unifyMet at h ⊢
  cases hm : (s.deref t).meet (s.deref u) with
  | bind v w =>
    cases ho : s.occurs v w with
    | false => simpa [bindVar_apply, ho] using Solve.bind hm ho (.done _)
    | true => simpa [bindVar_apply, ho] using Solve.cycle [] hm ho
  | parts ds =>
    rw [hm] at h
    exact .parts hm (by simpa using unifyEach_solve hu ds s h)
  | clash => exact .clash [] hm

/-- Unless it is given up, a comparison works off its one equation. -/
theorem unifyUpTo_solve (n : Nat) (t u : Ty) (s : Store) (h : Ended (unifyUpTo n t u s)) :
    Solve s [(t, u)] (unifyUpTo n t u s) := by
  induction n generalizing t u s with
  | zero => exact h.elim
  | succ n ih =>
    rw [unifyUpTo_succ] at h ⊢
    exact unifyMet_solve ih h

theorem unbound_of_meet (hs : s.Acyclic) (hm : (s.deref t).meet (s.deref u) = .bind v w) :
    s.contents? v = none := by
  rcases Ty.meet_bind hm with ⟨hd, _⟩ | ⟨hd, _⟩
  · exact unbound_of_deref hs hd
  · exact unbound_of_deref hs hd

theorem grows_of_meet (hs : s.Acyclic) (hm : (s.deref t).meet (s.deref u) = .bind v w)
    (ho : s.occurs v w = false) : s.Grows (s.bind v w) :=
  .bind .refl (unbound_of_meet hs hm) (not_reaches_of_occurs hs ho)

/-- Whether all equations hold in the end or not, the store has only grown. -/
theorem Solve.grows (h : Solve s eqs r) (hs : s.Acyclic) : s.Grows (endState r) := by
  induction h with
  | done s => exact .refl
  | bind hm ho _ ih =>
    have hg := grows_of_meet hs hm ho
    exact hg.trans (ih (hg.acyclic hs))
  | cycle => exact .refl
  | parts _ _ ih => exact ih hs
  | clash => exact .refl

/-- Binding a variable says of an assignment that it makes the two types equal. -/
theorem eval_eq_iff_of_bind (hs : s.Acyclic) (hρ : ρ.Satisfies s)
    (hm : (s.deref t).meet (s.deref u) = .bind v w) :
    t.eval ρ = u.eval ρ ↔ ρ v = w.eval ρ := by
  rw [← eval_deref hs hρ t, ← eval_deref hs hρ u]
  rcases Ty.meet_bind hm with ⟨hd, rfl⟩ | ⟨hd, rfl⟩
  · rw [hd, Ty.eval_var]
  · rw [hd, Ty.eval_var, eq_comm]

theorem eval_eq_iff_of_parts (hs : s.Acyclic) (hρ : ρ.Satisfies s)
    (hm : (s.deref t).meet (s.deref u) = .parts eqs) :
    t.eval ρ = u.eval ρ ↔ ∀ e ∈ eqs, e.1.eval ρ = e.2.eval ρ := by
  rw [← eval_deref hs hρ t, ← eval_deref hs hρ u, Ty.eval_eq_iff_of_meet hm]

/-- No solution is lost and none is added. -/
theorem Solve.satisfies_iff (h : Solve s eqs (.ok () s')) (hs : s.Acyclic) :
    ρ.Satisfies s' ↔ ρ.Satisfies s ∧ ∀ e ∈ eqs, e.1.eval ρ = e.2.eval ρ := by
  generalize hr : EStateM.Result.ok () s' = q at h
  induction h with
  | done s =>
    cases hr
    simp
  | bind hm ho _ ih =>
    rw [ih ((grows_of_meet hs hm ho).acyclic hs) hr,
      satisfies_bind_iff (unbound_of_meet hs hm), and_assoc, List.forall_mem_cons]
    exact and_congr_right fun hρ => and_congr_left fun _ => (eval_eq_iff_of_bind hs hρ hm).symm
  | cycle => cases hr
  | parts hm _ ih =>
    rw [ih hs hr, List.forall_mem_append, List.forall_mem_cons]
    exact and_congr_right fun hρ => and_congr_left fun _ =>
      (eval_eq_iff_of_parts hs hρ hm).symm
  | clash => cases hr

/-- After a binding, the equation that called for it holds. -/
theorem resolve_eq_of_bind (hs : s.Acyclic) (hm : (s.deref t).meet (s.deref u) = .bind v w)
    (ho : s.occurs v w = false) : (s.bind v w).resolve t = (s.bind v w).resolve u := by
  have hg := grows_of_meet hs hm ho
  have hs' := hg.acyclic hs
  have hv : (s.bind v w).resolve (.var v) = (s.bind v w).resolve w :=
    resolve_bound hs' (by simp [contents?_bind])
  rw [← hg.extends.resolve_deref hs' t, ← hg.extends.resolve_deref hs' u]
  rcases Ty.meet_bind hm with ⟨hd, rfl⟩ | ⟨hd, rfl⟩
  · rw [hd, hv]
  · rw [hd, hv]

/-- Once all equations are worked off, both sides of each stand for the same. -/
theorem Solve.resolve_eq (h : Solve s eqs (.ok () s')) (hs : s.Acyclic) :
    ∀ e ∈ eqs, s'.resolve e.1 = s'.resolve e.2 := by
  generalize hr : EStateM.Result.ok () s' = q at h
  induction h with
  | done s => simp
  | bind hm ho h ih =>
    subst hr
    have hs₁ := (grows_of_meet hs hm ho).acyclic hs
    have hg : Grows _ s' := h.grows hs₁
    rw [List.forall_mem_cons]
    exact ⟨hg.extends.resolve_inj (hg.acyclic hs₁) (resolve_eq_of_bind hs hm ho), ih hs₁ rfl⟩
  | cycle => cases hr
  | parts hm h ih =>
    subst hr
    have hg : Grows _ s' := h.grows hs
    have hs' := hg.acyclic hs
    obtain ⟨hd, he⟩ := List.forall_mem_append.mp (ih hs rfl)
    rw [List.forall_mem_cons]
    refine ⟨?_, he⟩
    rw [← hg.extends.resolve_deref hs', resolve_eq_of_meet hm hd, hg.extends.resolve_deref hs']
  | clash => cases hr

end Store

end TypedL5
