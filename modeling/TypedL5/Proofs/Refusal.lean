import TypedL5.Check.Failure
import TypedL5.Proofs.Footprint
import TypedL5.Proofs.Halting

/-!
Why two types are not made equal.

A comparison is refused where two types clash, or where a variable would be bound to a type
that it occurs in. What has been bound on the way there holds in every solution, so there is no
solution, unless the variable has met itself. It meets itself wherever types are compared that
are the same already, at the first variable that is left in them.
-/
namespace TypedL5

open Relation (ReflTransGen)

namespace Ty

variable {t p : Ty} {v : TyVar} {ρ : Assignment}

theorem toTy_eval_eq_subst (ρ : Assignment) (t : Ty) :
    (t.eval ρ).toTy = t.subst fun v => (ρ v).toTy := by
  induction t with
  | base b => rfl
  | var v => rfl
  | pair l r ihl ihr => simp [ihl, ihr]
  | proc ps r ihp ihr => simpa [ihr] using ihp

theorem inside_of_part (hp : Part p t) (h : p ≠ .var v → Inside (.var v) p) :
    Inside (.var v) t := by
  by_cases he : p = .var v
  · subst he
    exact .single hp
  · exact (h he).tail hp

/-- A variable that a type mentions is the type or lies inside it. -/
theorem inside_of_mem_vars (hv : v ∈ t.vars) (ht : t ≠ .var v) : Inside (.var v) t := by
  induction t with
  | base b => simp at hv
  | var w =>
    obtain rfl : v = w := by simpa using hv
    exact (ht rfl).elim
  | pair l r ihl ihr =>
    rcases List.mem_append.mp hv with hv | hv
    · exact inside_of_part (.left l r) (ihl hv)
    · exact inside_of_part (.right l r) (ihr hv)
  | proc ps r ihp ihr =>
    rw [vars_proc, List.mem_append, List.mem_flatMap] at hv
    rcases hv with ⟨p, hp, hv⟩ | hv
    · exact inside_of_part (.param r hp) (ihp p hp hv)
    · exact inside_of_part (.result ps r) (ihr hv)

/-- A finite type is no proper part of itself. -/
theorem eval_ne_of_mem_vars (hv : v ∈ t.vars) (ht : t ≠ .var v) : ρ v ≠ t.eval ρ := by
  intro he
  have hinside := inside_subst (inside_of_mem_vars hv ht) fun w => (ρ w).toTy
  rw [← toTy_eval_eq_subst ρ t, ← he] at hinside
  exact not_inside_self _ hinside

end Ty

namespace Store

variable {s s' m : Store} {t u w : Ty} {v : TyVar} {c : Clash} {eqs : List (Ty × Ty)}
  {r : EStateM.Result Clash Store Unit} {ρ : Assignment}

theorem deref_of_resolve_eq_var (hs : s.Acyclic) (h : s.resolve t = .var v) :
    s.deref t = .var v := by
  rw [← resolve_deref hs] at h
  cases hd : s.deref t with
  | base b => simp [hd] at h
  | var w => rwa [hd, resolve_unbound (unbound_of_deref hs hd)] at h
  | pair l r => simp [hd] at h
  | proc ps r => simp [hd] at h

/-- A variable is kept from being bound if both types are the same already or cannot be made
equal at all. -/
theorem occurs_iff_of_meet (hs : s.Acyclic) (hm : (s.deref t).meet (s.deref u) = .bind v w) :
    s.occurs v w = true ↔
      s.resolve t = s.resolve u ∨ ∀ ρ : Assignment, ρ.Satisfies s → t.eval ρ ≠ u.eval ρ := by
  have hv := unbound_of_meet hs hm
  have hreaches : s.Reaches w v ↔ v ∈ (s.resolve w).vars := by simp [mem_vars_resolve hs, hv]
  constructor
  · intro ho
    rw [occurs_iff hs, hreaches] at ho
    by_cases hw : s.resolve w = .var v
    · left
      rcases resolve_of_meet hs hm with ⟨ht, hu⟩ | ⟨hu, ht⟩
      · rw [ht, ← hu, hw]
      · rw [hu, ← ht, hw]
    · right
      intro ρ hρ he
      rw [eval_eq_iff_of_bind hs hρ hm, ← eval_resolve hs hρ w] at he
      exact Ty.eval_ne_of_mem_vars ho hw he
  · rintro (he | hnone)
    · rw [occurs_iff hs, hreaches]
      rcases resolve_of_meet hs hm with ⟨ht, hw⟩ | ⟨hu, hw⟩
      · rw [hw, ← he, ht]
        exact List.mem_singleton_self v
      · rw [hw, he, hu]
        exact List.mem_singleton_self v
    · by_contra ho
      -- Without a cycle the variable can be bound, and some assignment satisfies the store
      -- after that.
      have hs' := (grows_of_meet hs hm (Bool.eq_false_of_not_eq_true ho)).acyclic hs
      have hsat := solution_satisfies hs' fun _ => .base .void
      obtain ⟨hρ, he⟩ := (satisfies_bind_iff hv).mp hsat
      exact hnone _ hρ ((eval_eq_iff_of_bind hs hρ hm).mpr he)

/-- Variables that are the same already have met themselves. -/
theorem deref_eq_of_meet (hs : s.Acyclic) (hm : (s.deref t).meet (s.deref u) = .bind v w)
    (h : s.resolve t = s.resolve u) : s.deref t = .var v ∧ s.deref u = .var v ∧
      w = .var v := by
  have hboth : s.deref t = .var v ∧ s.deref u = .var v := by
    rcases resolve_of_meet hs hm with ⟨ht, _⟩ | ⟨hu, _⟩
    · exact ⟨deref_of_resolve_eq_var hs ht, deref_of_resolve_eq_var hs (h ▸ ht)⟩
    · exact ⟨deref_of_resolve_eq_var hs (h ▸ hu), deref_of_resolve_eq_var hs hu⟩
  refine ⟨hboth.1, hboth.2, ?_⟩
  rcases Ty.meet_bind hm with ⟨_, rfl⟩ | ⟨_, rfl⟩
  · exact hboth.2
  · exact hboth.1

/-- An assignment satisfies the store of a comparison and makes its types equal. -/
def Solves (ρ : Assignment) (c : Store × Ty × Ty) : Prop :=
  ρ.Satisfies c.1 ∧ c.2.1.eval ρ = c.2.2.eval ρ

/-- What has been bound before a part is compared holds in every solution of the whole. -/
theorem Compares.solves {c d : Store × Ty × Ty} (h : Compares d c) (hs : c.1.Acyclic)
    (hρ : Solves ρ c) :
    Solves ρ d := by
  cases h with
  | @part s s' t u p q before after hm hb =>
    obtain ⟨hsat, he⟩ := hρ
    rw [eval_eq_iff_of_parts hs hsat hm, List.forall_mem_append] at he
    refine ⟨?_, he.2 (p, q) List.mem_cons_self⟩
    exact ((unifyEach_unify_solve hb).satisfies_iff hs).mpr ⟨hsat, he.1⟩

theorem solves_of_compares {c d : Store × Ty × Ty} (h : ReflTransGen Compares d c)
    (hs : c.1.Acyclic) :
    d.1.Acyclic ∧ (Solves ρ c → Solves ρ d) := by
  induction h using ReflTransGen.head_induction_on with
  | refl => exact ⟨hs, id⟩
  | head hstep _ ih => exact ⟨hstep.acyclic ih.1, fun hρ => hstep.solves ih.1 (ih.2 hρ)⟩

/-- A comparison goes no further, for a reason of its own. -/
inductive Refused (s : Store) (t u : Ty) : Clash → Prop
  | mismatch (hm : (s.deref t).meet (s.deref u) = .clash) :
    Refused s t u (.mismatch (s.deref t) (s.deref u))
  | cycle {v : TyVar} {w : Ty} (hm : (s.deref t).meet (s.deref u) = .bind v w)
    (ho : s.occurs v w = true) : Refused s t u (.cycle v w)

/-- A row of equations fails at the first that cannot be solved after those before it. -/
theorem unifyEach_eq_error {unify : Ty → Ty → UnifyM Unit}
    (h : unifyEach unify eqs s = .error c s') :
    ∃ before p q after m, eqs = before ++ (p, q) :: after ∧
      unifyEach unify before s = .ok () m ∧ unify p q m = .error c s' := by
  induction eqs generalizing s with
  | nil => cases h
  | cons e eqs ih =>
    obtain ⟨p, q⟩ := e
    rw [unifyEach_cons] at h
    cases hr : unify p q s with
    | error c' m =>
      rw [hr] at h
      cases h
      exact ⟨[], p, q, eqs, s, rfl, rfl, hr⟩
    | ok _ m =>
      rw [hr] at h
      obtain ⟨before, p', q', after, m', he, hb, hc⟩ := ih h
      refine ⟨(p, q) :: before, p', q', after, m', by rw [he, List.cons_append], ?_, hc⟩
      rw [unifyEach_cons, hr]
      exact hb

/-- Unification that fails has come down to a comparison that is refused. -/
theorem exists_refused (hs : s.Acyclic) (h : unify t u s = .error c s') :
    ∃ a b, ReflTransGen Compares (s', a, b) (s, t, u) ∧ Refused s' a b c := by
  -- No comparison goes down for ever, so the part that fails can be followed to its end.
  have hacc := acc_compares hs t u
  generalize hd : (s, t, u) = d at hacc
  induction hacc generalizing s t u with
  | intro d _ ih =>
    subst hd
    rw [unify_eq hs, unifyMet] at h
    cases hm : (s.deref t).meet (s.deref u) with
    | bind v w =>
      rw [hm] at h
      dsimp only at h
      rw [bindVar_apply] at h
      split at h
      · rename_i ho
        cases h
        exact ⟨t, u, .refl, .cycle hm ho⟩
      · cases h
    | parts ds =>
      rw [hm] at h
      obtain ⟨before, p, q, after, m, rfl, hb, hc⟩ := unifyEach_eq_error h
      have hcall : Compares (m, p, q) (s, t, u) := .part hm hb
      obtain ⟨a, b, hrun, href⟩ := ih (m, p, q) hcall (hcall.acyclic hs) hc rfl
      exact ⟨a, b, hrun.tail hcall, href⟩
    | clash =>
      rw [hm] at h
      cases h
      exact ⟨t, u, .refl, .mismatch hm⟩

/-- Types are refused only if nothing makes them equal, or if they are one and the same
variable. -/
theorem Refused.not_solves (h : Refused s t u c) (hs : s.Acyclic) :
    (∀ ρ, ¬ Solves ρ (s, t, u)) ∨ ∃ v, c = .cycle v (.var v) ∧ s.deref t = .var v ∧
      s.deref u = .var v := by
  cases h with
  | mismatch hm =>
    left
    rintro ρ ⟨hρ, he⟩
    apply Ty.meet_clash hm ρ
    rw [eval_deref hs hρ, eval_deref hs hρ]
    exact he
  | @cycle v w hm ho =>
    rcases (occurs_iff_of_meet hs hm).mp ho with he | hnone
    · obtain ⟨ht, hu, rfl⟩ := deref_eq_of_meet hs hm he
      exact .inr ⟨v, rfl, ht, hu⟩
    · exact .inl fun ρ hρ => hnone ρ hρ.1 hρ.2

/-- If unification fails, nothing satisfies the store and makes the two types equal, or a
variable that is not bound has met itself at the ends of both types of a comparison. After a
mismatch it is always the former. -/
theorem unify_error_reason (hs : s.Acyclic) (h : unify t u s = .error c s') (e : Exp) :
    ((∀ ρ : Assignment, ρ.Satisfies s → t.eval ρ ≠ u.eval ρ) ∨
      (Failure.ofClash s' e c).kind = .occursCheck ∧ ∃ v a b, c = .cycle v (.var v) ∧
        s'.contents? v = none ∧
        ReflTransGen Compares (s', a, b) (s, t, u) ∧ s'.deref a = .var v ∧
          s'.deref b = .var v) ∧
    ((Failure.ofClash s' e c).kind = .typeMismatch →
      ∀ ρ : Assignment, ρ.Satisfies s → t.eval ρ ≠ u.eval ρ) := by
  obtain ⟨a, b, hrun, href⟩ := exists_refused hs h
  obtain ⟨hs', -⟩ := solves_of_compares (ρ := fun _ => .base .void) hrun hs
  have hnone : (∀ ρ, ¬ Solves ρ (s', a, b)) → ∀ ρ : Assignment, ρ.Satisfies s →
    t.eval ρ ≠ u.eval ρ :=
    fun hnot ρ hρ he => hnot ρ ((solves_of_compares hrun hs).2 ⟨hρ, he⟩)
  rcases href.not_solves hs' with hnot | ⟨v, rfl, ha, hb⟩
  · exact ⟨.inl (hnone hnot), fun _ => hnone hnot⟩
  · refine ⟨.inr ⟨rfl, v, a, b, rfl, unbound_of_deref hs' ha, hrun, ha, hb⟩, fun hk => ?_⟩
    cases hk

/-- The second parameters are made equal by what the first ones have bound, so that they meet
as one variable. -/
theorem unify_error_reason_again :
    let a : TyVar := ⟨0, "a"⟩
    let b : TyVar := ⟨1, "b"⟩
    let c : TyVar := ⟨2, "c"⟩
    let s : Store := ⟨[(c, .var a)]⟩
    let s' : Store := ⟨[(a, .var b), (c, .var a)]⟩
    let t : Ty := .proc [.var a, .var c] .number
    let u : Ty := .proc [.var b, .var b] .number
    s.Acyclic ∧ unify t u s = .error (.cycle b (.var b)) s' ∧
      (∃ ρ : Assignment, ρ.Satisfies s ∧ t.eval ρ = u.eval ρ) ∧
      ∃ v x y, s'.contents? v = none ∧ ReflTransGen Compares (s', x, y) (s, t, u) ∧
        s'.deref x = .var v ∧ s'.deref y = .var v := by
  intro a b c s s' t u
  have hs : s.Acyclic :=
    bind_acyclic acyclic_empty rfl (not_reaches_of_occurs acyclic_empty rfl)
  have h : unify t u s = .error (.cycle b (.var b)) s' := rfl
  have hsolved : ∃ ρ : Assignment, ρ.Satisfies s ∧ t.eval ρ = u.eval ρ :=
    ⟨_, solution_satisfies hs fun _ => .base .void, rfl⟩
  obtain ⟨ρ, hρ, he⟩ := hsolved
  rcases (unify_error_reason hs h (.var "x")).1 with hnone | ⟨_, v, x, y, _, hv, hrun, hx, hy⟩
  · exact (hnone ρ hρ he).elim
  · exact ⟨hs, h, ⟨ρ, hρ, he⟩, v, x, y, hv, hrun, hx, hy⟩

/-- How the comparison of types ends that are the same, if these variables are left in them. -/
def metItself (s : Store) : List TyVar → EStateM.Result Clash Store Unit
  | [] => .ok () s
  | v :: _ => .error (.cycle v (.var v)) s

/-- Types that are the same once their variables have been replaced have parts of which this is
so too. -/
theorem subst_parts_eq {f : TyVar → Ty} (h : t.meet u = .parts eqs)
    (he : (s.resolve t).subst f = (s.resolve u).subst f) :
    ∀ e ∈ eqs, (s.resolve e.1).subst f = (s.resolve e.2).subst f := by
  rcases Ty.meet_parts h with ⟨b, rfl, rfl, rfl⟩ | ⟨l, r, l', r', rfl, rfl, rfl⟩ |
    ⟨ps, r, qs, q, rfl, rfl, hl, rfl⟩
  · simp
  · simpa using he
  · simp only [resolve_proc, Ty.subst_proc, List.map_map, Ty.proc.injEq] at he
    exact List.forall_mem_append.mpr
      ⟨(Ty.forall_mem_zip_iff hl fun p => (s.resolve p).subst f).mpr he.1, by simpa using he.2⟩

theorem vars_parts (h : t.meet u = .parts eqs) :
    (eqs.flatMap fun e => (s.resolve e.1).vars) = (s.resolve t).vars := by
  rcases Ty.meet_parts h with ⟨b, rfl, rfl, rfl⟩ | ⟨l, r, l', r', rfl, rfl, rfl⟩ |
    ⟨ps, r, qs, q, rfl, rfl, hl, rfl⟩
  · simp
  · simp
  · have hfst : (ps.zip qs).map Prod.fst = ps := List.map_fst_zip hl.le
    calc (ps.zip qs ++ [(r, q)]).flatMap (fun e => (s.resolve e.1).vars)
        = ((ps.zip qs).map Prod.fst).flatMap (fun p => (s.resolve p).vars) ++
          (s.resolve r).vars := by
          simp [List.flatMap_map]
      _ = (s.resolve (.proc ps r)).vars := by simp [hfst, List.flatMap_map]

/-- Equations that hold already bind nothing. They end at the first variable that is left in
them. -/
theorem Solve.eq_metItself (h : Solve s eqs r) (hs : s.Acyclic)
    (he : ∀ e ∈ eqs, s.resolve e.1 = s.resolve e.2) :
    r = s.metItself (eqs.flatMap fun e => (s.resolve e.1).vars) := by
  induction h with
  | done s => rfl
  | bind hm ho _ _ =>
    -- A variable that has met itself is refused, so none is bound.
    have hocc := (occurs_iff_of_meet hs hm).mpr (.inl (he _ List.mem_cons_self))
    rw [ho] at hocc
    cases hocc
  | @cycle s t u v w _ hm ho =>
    obtain ⟨ht, _, rfl⟩ := deref_eq_of_meet hs hm (he _ List.mem_cons_self)
    have hvars : (s.resolve t).vars = [v] := by
      rw [← resolve_deref hs, ht, resolve_unbound (unbound_of_deref hs ht), Ty.vars_var]
    simp [metItself, hvars]
  | @parts s t u ds eqs r hm _ ih =>
    obtain ⟨htu, he⟩ := List.forall_mem_cons.mp he
    rw [← resolve_deref hs t, ← resolve_deref hs u] at htu
    have hds : ∀ d ∈ ds, s.resolve d.1 = s.resolve d.2 := by
      simpa only [Ty.subst_id] using subst_parts_eq (f := .var) hm (by rw [htu])
    rw [ih hs (List.forall_mem_append.mpr ⟨hds, he⟩), List.flatMap_append, vars_parts hm,
      resolve_deref hs, List.flatMap_cons]
  | @clash s t u _ hm =>
    have hsat := solution_satisfies hs fun _ => .base .void
    have hne := Ty.meet_clash hm (s.solution fun _ => .base .void)
    rw [eval_deref hs hsat, eval_deref hs hsat, ← eval_resolve hs hsat t,
      he (t, u) List.mem_cons_self, eval_resolve hs hsat] at hne
    exact (hne rfl).elim

theorem unify_eq_metItself (hs : s.Acyclic) (h : s.resolve t = s.resolve u) :
    unify t u s = s.metItself (s.resolve t).vars := by
  simpa using (unify_solve hs t u).eq_metItself hs (by simpa using h)

/-- Making types equal that are the same leaves the store as it is. It succeeds if no variable
is left in them, and fails at the leftmost one otherwise, which cannot be bound to itself. So
what has been made equal can be made equal once more if it has become ground, and only then. -/
theorem unify_of_resolve_eq (hs : s.Acyclic) (t u : Ty) (e : Exp) :
    (s.resolve t = s.resolve u → endState (unify t u s) = s ∧
      ((s.resolve t).vars = [] → unify t u s = .ok () s) ∧
      ∀ v vs, (s.resolve t).vars = v :: vs → unify t u s = .error (.cycle v (.var v)) s ∧
        (Failure.ofClash s e (.cycle v (.var v))).kind = .occursCheck) ∧
    ∀ s', unify t u s = .ok () s' →
      ((∃ s'', unify t u s' = .ok () s'') ↔ (s'.resolve t).vars = []) := by
  constructor
  · intro h
    rw [unify_eq_metItself hs h]
    refine ⟨?_, fun hvars => ?_, fun v vs hvars => ?_⟩
    · cases (s.resolve t).vars <;> rfl
    · rw [hvars, metItself]
    · rw [hvars, metItself]
      exact ⟨rfl, rfl⟩
  · intro s' h
    have hsolve := unify_solve hs t u
    rw [h] at hsolve
    have hs' : s'.Acyclic := (hsolve.grows hs).acyclic hs
    rw [unify_eq_metItself hs' (hsolve.resolve_eq hs (t, u) (by simp))]
    cases (s'.resolve t).vars <;> simp [metItself]

/-- The two types come to one by different chains. The variable of the parameter is met before
that of the result. -/
theorem unify_of_resolve_eq_shared :
    let a : TyVar := ⟨0, "a"⟩
    let b : TyVar := ⟨1, "b"⟩
    let x : TyVar := ⟨2, "x"⟩
    let y : TyVar := ⟨3, "y"⟩
    let s : Store := ⟨[(y, .var a), (x, .pair .number (.var y))]⟩
    let s' : Store := ⟨[(a, .string), (y, .var a), (x, .pair .number (.var y))]⟩
    let t : Ty := .proc [.var x] (.var b)
    let u : Ty := .proc [.pair .number (.var a)] (.var b)
    s.Acyclic ∧ s.resolve t = s.resolve u ∧ unify t u s = .error (.cycle a (.var a)) s ∧
      unify (.var y) .string s = .ok () s' ∧ ∃ s'', unify (.var y) .string s' =
        .ok () s'' := by
  intro a b x y s s' t u
  have hs₁ : Acyclic ⟨[(x, .pair .number (.var y))]⟩ :=
    bind_acyclic acyclic_empty rfl (not_reaches_of_occurs acyclic_empty rfl)
  have hs : s.Acyclic := bind_acyclic hs₁ rfl (not_reaches_of_occurs hs₁ rfl)
  have he : s.resolve t = s.resolve u := rfl
  have hy : unify (.var y) .string s = .ok () s' := rfl
  refine ⟨hs, he, ?_, hy, ?_⟩
  · exact (((unify_of_resolve_eq hs t u (.var "z")).1 he).2.2 a [b] rfl).1
  · exact ((unify_of_resolve_eq hs (.var y) .string (.var "z")).2 s' hy).mpr rfl

end Store

end TypedL5
