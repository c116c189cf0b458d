import Mathlib.Data.List.Forall2
import Mathlib.Data.Set.Function
import TypedL5.Proofs.Confinement
import TypedL5.Proofs.Renaming

/-!
Unification in two stores side by side. Where the types to be made equal are the same up to a
renaming, so are the outcomes, and all other types that were the same stay so.
-/
namespace TypedL5

namespace Ty

variable {f : TyVar → TyVar} {R : Ty → Ty → Prop} {t t' u u' w : Ty} {v : TyVar}
  {eqs : List (Ty × Ty)}

/-- Two types begin in the same way, and their parts are related. -/
inductive Heads (f : TyVar → TyVar) (R : Ty → Ty → Prop) : Ty → Ty → Prop
  | base (b : BaseTy) : Heads f R (.base b) (.base b)
  | var (v : TyVar) : Heads f R (.var v) (.var (f v))
  | pair {l l' r r' : Ty} : R l l' → R r r' → Heads f R (.pair l r) (.pair l' r')
  | proc {ps ps' : List Ty} {r r' : Ty} : List.Forall₂ R ps ps' → R r r' →
    Heads f R (.proc ps r) (.proc ps' r')

/-- Both sides of two equations are related. -/
def RelEq (R : Ty → Ty → Prop) (e e' : Ty × Ty) : Prop := R e.1 e'.1 ∧ R e.2 e'.2

theorem relEq_zip {ps ps' qs qs' : List Ty} (hp : List.Forall₂ R ps ps')
    (hq : List.Forall₂ R qs qs') : List.Forall₂ (RelEq R) (ps.zip qs) (ps'.zip qs') := by
  induction hp generalizing qs qs' with
  | nil => simp
  | cons h _ ih =>
    cases hq with
    | nil => simp
    | cons h' hq => exact .cons ⟨h, h'⟩ (ih hq)

theorem Heads.meet_bind (ht : Heads f R t t') (hu : Heads f R u u')
    (h : t.meet u = .bind v w) :
    (t = .var v ∧ w = u ∧ t'.meet u' = .bind (f v) u') ∨
      (u = .var v ∧ w = t ∧ t'.meet u' = .bind (f v) t') := by
  cases ht <;> cases hu <;> grind [meet]

/-- Types that begin alike come down to the same parts. -/
theorem Heads.meet_parts (ht : Heads f R t t') (hu : Heads f R u u')
    (h : t.meet u = .parts eqs) :
    ∃ eqs', t'.meet u' = .parts eqs' ∧ List.Forall₂ (RelEq R) eqs eqs' := by
  rcases Ty.meet_parts h with ⟨b, rfl, rfl, rfl⟩ | ⟨l, r, l', r', rfl, rfl, rfl⟩ |
    ⟨ps, r, qs, q, rfl, rfl, hl, rfl⟩
  · cases ht
    cases hu
    exact ⟨[], if_pos rfl, .nil⟩
  · cases ht with
    | pair hl hr =>
      cases hu with
      | pair hl' hr' => exact ⟨_, rfl, .cons ⟨hl, hl'⟩ (.cons ⟨hr, hr'⟩ .nil)⟩
  · cases ht with
    | proc hps hr =>
      cases hu with
      | proc hqs hq =>
        have hl' := hps.length_eq.symm.trans (hl.trans hqs.length_eq)
        exact ⟨_, if_pos hl', List.rel_append (relEq_zip hps hqs) (.cons ⟨hr, hq⟩ .nil)⟩

/-- Types that begin alike clash with each other in the same cases. -/
theorem Heads.meet_clash (ht : Heads f R t t') (hu : Heads f R u u') (h : t.meet u = .clash) :
    t'.meet u' = .clash := by
  cases ht with
  | base b => cases hu <;> simp_all [meet]
  | var v => cases hu <;> simp_all [meet]
  | pair => cases hu <;> simp_all [meet]
  | proc hps =>
    cases hu with
    | proc hqs => simpa [meet, ← hps.length_eq, ← hqs.length_eq] using h
    | _ => simp_all [meet]

end Ty

namespace Store

variable {f : TyVar → TyVar} {D : Set TyVar} {s s' : Store} {t t' u u' w w' q q' : Ty}
  {v : TyVar} {eqs eqs' : List (Ty × Ty)} {r r' : EStateM.Result Clash Store Unit}

/-- Two types, each as it stands in its store, differ by a renaming only. -/
structure Alike (f : TyVar → TyVar) (D : Set TyVar) (s s' : Store) (t t' : Ty) : Prop where
  resolved : s'.resolve t' = (s.resolve t).rename f
  within : (s.resolve t).Within D

theorem Alike.mono {D' : Set TyVar} (h : Alike f D s s' t t') (hD : D ⊆ D') :
    Alike f D' s s' t t' :=
  ⟨h.resolved, h.within.mono hD⟩

theorem Alike.congr {f₁ : TyVar → TyVar} {D₁ : Set TyVar} (h : Alike f D s s' t t')
    (hf : ∀ v ∈ D, f₁ v = f v) (hD : D ⊆ D₁) : Alike f₁ D₁ s s' t t' :=
  ⟨h.resolved.trans (Ty.rename_congr fun v hv => (hf v (h.within v hv)).symm),
    h.within.mono hD⟩

theorem alike_refl (h : (s.resolve t).Within D) : Alike id D s s t t :=
  ⟨(Ty.subst_id _).symm, h⟩

/-- A type of which nothing is known is like its renamed one, of which nothing is known
either. -/
theorem alike_rename (hs : s.Acyclic) (hs' : s'.Acyclic) (hD : t.Within D)
    (ht : ∀ v ∈ t.vars, s.contents? v = none ∧ s'.contents? (f v) = none) :
    Alike f D s s' t (t.rename f) := by
  have hres : s.resolve t = t := resolve_of_unbound hs fun v hv => (ht v hv).1
  have hres' : s'.resolve (t.rename f) = t.rename f := by
    refine resolve_of_unbound hs' fun v hv => ?_
    rw [Ty.vars_rename] at hv
    obtain ⟨w, hw, rfl⟩ := List.mem_map.mp hv
    exact (ht w hw).2
  exact ⟨by rw [hres, hres'], by rwa [hres]⟩

theorem alike_deref (hs : s.Acyclic) (hs' : s'.Acyclic) :
    Alike f D s s' (s.deref t) (s'.deref t') ↔ Alike f D s s' t t' := by
  constructor
  · rintro ⟨h, hw⟩
    rw [resolve_deref hs, resolve_deref hs'] at h
    exact ⟨h, resolve_deref hs t ▸ hw⟩
  · rintro ⟨h, hw⟩
    rw [← resolve_deref hs t, ← resolve_deref hs' t'] at h
    exact ⟨h, (resolve_deref hs t).symm ▸ hw⟩

theorem alike_params {ps ps' : List Ty}
    (h : ps'.map s'.resolve = (ps.map s.resolve).map (Ty.rename f))
    (hw : ∀ p ∈ ps, (s.resolve p).Within D) : List.Forall₂ (Alike f D s s') ps ps' := by
  induction ps generalizing ps' with
  | nil =>
    obtain rfl : ps' = [] := by simpa using h
    exact .nil
  | cons p ps ih =>
    cases ps' with
    | nil => simp at h
    | cons p' ps' =>
      obtain ⟨hp, hps⟩ := List.cons.inj h
      obtain ⟨hw, hws⟩ := List.forall_mem_cons.mp hw
      exact .cons ⟨hp, hw⟩ (ih hps hws)

theorem alike_proc {ps ps' : List Ty} {r r' : Ty} :
    Alike f D s s' (.proc ps r) (.proc ps' r') ↔
      List.Forall₂ (Alike f D s s') ps ps' ∧ Alike f D s s' r r' := by
  constructor
  · rintro ⟨h, hw⟩
    simp only [resolve_proc, Ty.rename_proc, Ty.proc.injEq] at h
    rw [resolve_proc, Ty.within_proc] at hw
    refine ⟨alike_params h.1 fun p hp => hw.1 _ (List.mem_map_of_mem hp), h.2, hw.2⟩
  · rintro ⟨hps, hr⟩
    constructor
    · simp only [resolve_proc, Ty.rename_proc, Ty.proc.injEq]
      refine ⟨?_, hr.resolved⟩
      induction hps with
      | nil => rfl
      | cons h _ ih => simp [h.resolved, ih]
    · rw [resolve_proc, Ty.within_proc]
      refine ⟨?_, hr.within⟩
      induction hps with
      | nil => simp
      | cons h _ ih => simpa using ⟨h.within, by simpa using ih⟩

/-- What a chain of variables ends in begins as the resolved type does. -/
theorem heads_resolve (hs : s.Acyclic) (t : Ty) :
    Ty.Heads id (fun p q => s.resolve p = q) (s.deref t) (s.resolve t) := by
  rw [← resolve_deref hs]
  cases hd : s.deref t with
  | base b =>
    rw [resolve_base]
    exact .base b
  | var v =>
    rw [resolve_unbound (unbound_of_deref hs hd)]
    exact .var v
  | pair l r =>
    rw [resolve_pair]
    exact .pair rfl rfl
  | proc ps r =>
    rw [resolve_proc]
    refine .proc ?_ rfl
    rw [List.forall₂_map_right_iff]
    exact List.forall₂_same.mpr fun _ _ => rfl

/-- Types that are alike begin alike at the ends of their chains. -/
theorem Alike.heads (h : Alike f D s s' t t') (hs : s.Acyclic) (hs' : s'.Acyclic) :
    Ty.Heads f (Alike f D s s') (s.deref t) (s'.deref t') := by
  obtain ⟨he, hw⟩ := h
  have hl := heads_resolve hs t
  have hr := heads_resolve hs' t'
  rw [he] at hr
  generalize s.resolve t = a at hl hr hw
  generalize s.deref t = b at hl
  generalize s'.deref t' = b' at hr
  cases hl with
  | base b =>
    cases hr
    exact .base b
  | var v =>
    cases hr
    exact .var v
  | pair hl hr' =>
    cases hr with
    | pair hl' hr'' =>
      subst hl hr'
      exact .pair ⟨hl', hw.part (.left _ _)⟩ ⟨hr'', hw.part (.right _ _)⟩
  | proc hps hr' =>
    rw [Ty.rename_proc] at hr
    cases hr with
    | proc hps' hr'' =>
      rw [← List.forall₂_map_left_iff, List.forall₂_eq_eq_eq] at hps hps'
      subst hps hr'
      obtain ⟨hwps, hwr⟩ := Ty.within_proc.mp hw
      exact .proc (alike_params hps' fun p hp => hwps _ (List.mem_map_of_mem hp)) ⟨hr'', hwr⟩

/-- Binding a variable puts a type in its place. -/
theorem resolve_bind (hs : s.Acyclic) (hv : s.contents? v = none)
    (ho : ¬ s.Reaches w v) (q : Ty) :
    (s.bind v w).resolve q =
      (s.resolve q).subst fun x => if x = v then s.resolve w else .var x := by
  have hs' := bind_acyclic hs hv ho
  have hext : s.ExtendedBy (s.bind v w) := bind_extends hv
  have hother : ∀ {t x}, x ∈ (s.resolve t).vars → x ≠ v →
      (s.bind v w).resolve (.var x) = .var x := by
    intro t x hx hne
    rw [resolve_unbound]
    rw [contents?_bind, if_neg hne, unbound_of_mem_resolve hs hx]
  have hw : (s.bind v w).resolve w = s.resolve w := by
    rw [hext.resolve_eq hs' w]
    refine Eq.trans (Ty.subst_congr fun x hx => ?_) (Ty.subst_id _)
    refine hother hx ?_
    rintro rfl
    exact ho ((mem_vars_resolve hs).mp hx).1
  rw [hext.resolve_eq hs' q]
  refine Ty.subst_congr fun x hx => ?_
  split
  · subst x
    rw [resolve_bound hs' (t := w) (by simp [contents?_bind]), hw]
  · rename_i hne
    exact hother hx hne

/-- Binding a variable and its counterpart to types that are alike keeps all types alike. -/
theorem Alike.bind (hs : s.Acyclic) (hs' : s'.Acyclic) (hf : Set.InjOn f D)
    (hv : s.contents? v = none) (ho : ¬ s.Reaches w v) (hvD : v ∈ D)
    (hv' : s'.contents? (f v) = none) (ho' : ¬ s'.Reaches w' (f v)) (hw : Alike f D s s' w w')
    (hq : Alike f D s s' q q') : Alike f D (s.bind v w) (s'.bind (f v) w') q q' := by
  constructor
  · rw [resolve_bind hs hv ho, resolve_bind hs' hv' ho', hq.resolved, hw.resolved]
    simp only [Ty.rename, Ty.subst_subst]
    refine Ty.subst_congr fun x hx => ?_
    have hxv : f x = f v ↔ x = v := hf.eq_iff (hq.within x hx) hvD
    by_cases hx : x = v
    · simp [hx]
    · simp [hx, hxv]
  · intro x hx
    rw [resolve_bind hs hv ho, Ty.mem_vars_subst] at hx
    obtain ⟨y, hy, hx⟩ := hx
    split at hx
    · exact hw.within x hx
    · obtain rfl : x = y := by simpa using hx
      exact hq.within x hy

/-- The occurs check comes out alike. -/
theorem Alike.reaches_iff (h : Alike f D s s' w w') (hs : s.Acyclic) (hs' : s'.Acyclic)
    (hf : Set.InjOn f D) (hv : s.contents? v = none) (hvD : v ∈ D)
    (hv' : s'.contents? (f v) = none) : s'.Reaches w' (f v) ↔ s.Reaches w v := by
  have hl := mem_vars_resolve (t := w) (v := v) hs
  have hr := mem_vars_resolve (t := w') (v := f v) hs'
  rw [h.resolved, Ty.vars_rename, List.mem_map] at hr
  simp only [hv, hv', and_true] at hl hr
  rw [← hl, ← hr]
  constructor
  · rintro ⟨x, hx, he⟩
    exact hf (h.within x hx) hvD he ▸ hx
  · intro hx
    exact ⟨v, hx, rfl⟩

/-- Both equations have been solved, or both clash in the same way. -/
def SameEnd (r r' : EStateM.Result Clash Store Unit) : Prop :=
  match r, r' with
  | .ok _ _, .ok _ _ => True
  | .error c _, .error c' _ =>
    ∀ p p' e e', (Failure.ofClash p e c).kind = (Failure.ofClash p' e' c').kind
  | _, _ => False

/-- How working off equations ends in two stores: in the same way, with all types that were
alike still so. -/
structure Parallel (f : TyVar → TyVar) (D : Set TyVar) (s s' : Store)
    (r r' : EStateM.Result Clash Store Unit) : Prop where
  stays : ∀ q q', Alike f D s s' q q' → Alike f D (endState r) (endState r') q q'
  sameEnd : SameEnd r r'

theorem Parallel.after {m m' : Store} (h : Parallel f D m m' r r')
    (hq : ∀ q q', Alike f D s s' q q' → Alike f D m m' q q') : Parallel f D s s' r r' :=
  ⟨fun q q' ha => h.stays q q' (hq q q' ha), h.sameEnd⟩

/-- A variable that is to be bound is answered by its counterpart. -/
theorem Alike.meet_bind (ht : Alike f D s s' t t') (hu : Alike f D s s' u u') (hs : s.Acyclic)
    (hs' : s'.Acyclic) (hm : (s.deref t).meet (s.deref u) = .bind v w) :
    ∃ w', (s'.deref t').meet (s'.deref u') = .bind (f v) w' ∧ Alike f D s s' w w' ∧ v ∈ D := by
  have hv := resolve_unbound (unbound_of_meet hs hm)
  rcases (ht.heads hs hs').meet_bind (hu.heads hs hs') hm with ⟨hd, rfl, hm'⟩ | ⟨hd, rfl, hm'⟩
  · refine ⟨_, hm', (alike_deref hs hs').mpr hu, ht.within v ?_⟩
    rw [← resolve_deref hs t, hd, hv]
    exact List.mem_singleton_self v
  · refine ⟨_, hm', (alike_deref hs hs').mpr ht, hu.within v ?_⟩
    rw [← resolve_deref hs u, hd, hv]
    exact List.mem_singleton_self v

/-- Each step in the one store is answered by the same step in the other. -/
theorem Solve.parallel (hsolve : Solve s eqs r) (hs : s.Acyclic) (hs' : s'.Acyclic)
    (hf : Set.InjOn f D) (heqs : List.Forall₂ (Ty.RelEq (Alike f D s s')) eqs eqs') :
    ∃ r', Solve s' eqs' r' ∧ Parallel f D s s' r r' := by
  induction hsolve generalizing s' eqs' with
  | done s =>
    cases heqs
    exact ⟨_, .done s', fun _ _ ha => ha, trivial⟩
  | @bind s t u v w eqs r hm ho _ ih =>
    cases heqs with
    | cons h heqs =>
      obtain ⟨w', hm', hw, hvD⟩ := h.1.meet_bind h.2 hs hs' hm
      have hv := unbound_of_meet hs hm
      have hv' := unbound_of_meet hs' hm'
      have ho := not_reaches_of_occurs hs ho
      -- The renaming is one to one on what has been taken, so no cycle appears on the other
      -- side.
      have ho' : ¬ s'.Reaches w' (f v) := by rwa [hw.reaches_iff hs hs' hf hv hvD hv']
      have hstay : ∀ q q', Alike f D s s' q q' →
          Alike f D (s.bind v w) (s'.bind (f v) w') q q' :=
        fun q q' hq => .bind hs hs' hf hv ho hvD hv' ho' hw hq
      obtain ⟨r', hr', hp⟩ := ih (bind_acyclic hs hv ho) (bind_acyclic hs' hv' ho')
        (heqs.imp fun e e' he => ⟨hstay _ _ he.1, hstay _ _ he.2⟩)
      refine ⟨r', .bind hm' ?_ hr', hp.after hstay⟩
      rwa [← Bool.not_eq_true, occurs_iff hs']
  | @cycle s t u v w eqs hm ho =>
    cases heqs with
    | cons h heqs =>
      obtain ⟨w', hm', hw, hvD⟩ := h.1.meet_bind h.2 hs hs' hm
      have hv := unbound_of_meet hs hm
      have hv' := unbound_of_meet hs' hm'
      rw [occurs_iff hs, ← hw.reaches_iff hs hs' hf hv hvD hv', ← occurs_iff hs'] at ho
      exact ⟨_, .cycle _ hm' ho, fun _ _ ha => ha, fun _ _ _ _ => rfl⟩
  | parts hm _ ih =>
    cases heqs with
    | cons h heqs =>
      obtain ⟨ds', hm', hds⟩ := (h.1.heads hs hs').meet_parts (h.2.heads hs hs') hm
      obtain ⟨r', hr', hp⟩ := ih hs hs' (List.rel_append hds heqs)
      exact ⟨r', .parts hm' hr', hp⟩
  | clash eqs hm =>
    cases heqs with
    | cons h heqs =>
      have hm' := (h.1.heads hs hs').meet_clash (h.2.heads hs hs') hm
      exact ⟨_, .clash _ hm', fun _ _ ha => ha, fun _ _ _ _ => rfl⟩

/-- Making two types equal goes alike in stores that differ by a renaming. -/
theorem unify_parallel (hs : s.Acyclic) (hs' : s'.Acyclic) (hf : Set.InjOn f D)
    (ht : Alike f D s s' t t') (hu : Alike f D s s' u u') :
    Parallel f D s s' (unify t u s) (unify t' u' s') := by
  have heqs : List.Forall₂ (Ty.RelEq (Alike f D s s')) [(t, u)] [(t', u')] :=
    .cons ⟨ht, hu⟩ .nil
  obtain ⟨r', hr', hp⟩ := (unify_solve hs t u).parallel hs hs' hf heqs
  rwa [← hr'.unique (unify_solve hs' t' u')]

end Store

end TypedL5
