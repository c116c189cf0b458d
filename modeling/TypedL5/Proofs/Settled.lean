import TypedL5.Proofs.Refusal
import TypedL5.Proofs.Simulation

/-!
Unification in a store in which some variables have their ground types from the beginning.

The types are those of an assignment that satisfies the other store in the end. Whatever
unification binds there has been bound to the same here, or is bound to the same now.
-/
namespace TypedL5

namespace Assignment

variable {ρ : Assignment} {vs : List TyVar} {v x : TyVar} {t : Ty}

/-- The ground types of the variables in a list, and the other variables themselves. -/
def fill (ρ : Assignment) (vs : List TyVar) (v : TyVar) : Ty :=
  if v ∈ vs then (ρ v).toTy else .var v

theorem fill_of_mem (h : v ∈ vs) : ρ.fill vs v = (ρ v).toTy := if_pos h

theorem fill_of_not_mem (h : v ∉ vs) : ρ.fill vs v = .var v := if_neg h

theorem eval_fill (ρ : Assignment) (vs : List TyVar) (v : TyVar) :
    (ρ.fill vs v).eval ρ = ρ v := by
  unfold fill
  split <;> simp

theorem subst_fill_of_forall_mem (h : ∀ v ∈ t.vars, v ∈ vs) :
    t.subst (ρ.fill vs) = (t.eval ρ).toTy := by
  rw [Ty.toTy_eval_eq_subst]
  exact Ty.subst_congr fun v hv => fill_of_mem (h v hv)

theorem mem_vars_of_mem_subst_fill (h : x ∈ (t.subst (ρ.fill vs)).vars) : x ∈ t.vars := by
  obtain ⟨v, hv, hx⟩ := Ty.mem_vars_subst.mp h
  by_cases hmem : v ∈ vs
  · simp [fill_of_mem hmem] at hx
  · rw [fill_of_not_mem hmem, Ty.vars_var, List.mem_singleton] at hx
    exact hx ▸ hv

end Assignment

namespace Store

variable {s s' m : Store} {t t' u u' w : Ty} {v x : TyVar} {ρ : Assignment} {ts : List Ty}
  {eqs eqs' : List (Ty × Ty)}

theorem unbound_of_resolve_var (hs : s.Acyclic) (h : s.resolve t = .var v) :
    s.contents? v = none :=
  unbound_of_deref hs (deref_of_resolve_eq_var hs h)

/-- A type that is the same as one which begins in some way begins in this way too. -/
theorem heads_of_resolve_eq (hs : s.Acyclic) (hu : ∀ v, u ≠ .var v)
    (h : s.resolve t = s.resolve u) :
    Ty.Heads id (fun p q => s.resolve q = s.resolve p) u (s.deref t) := by
  have hheads := heads_resolve hs t
  rw [h] at hheads
  generalize s.deref t = d at hheads
  cases u with
  | base b =>
    rw [resolve_base] at hheads
    cases hheads
    exact .base b
  | var v => exact (hu v rfl).elim
  | pair l r =>
    rw [resolve_pair] at hheads
    cases hheads with
    | pair hl hr => exact .pair hl hr
  | proc ps r =>
    rw [resolve_proc] at hheads
    cases hheads with
    | proc hps hr =>
      rw [List.forall₂_map_right_iff] at hps
      exact .proc hps.flip hr

/-- The variables that are left in types. -/
def openVars (s : Store) (ts : List Ty) : List TyVar := ts.flatMap fun t => (s.resolve t).vars

/-- If the variable was one of those left, the variables of what it is bound to are left
now. -/
theorem mem_openVars_bind (hs : s.Acyclic) (hv : s.contents? v = none) (ho : ¬ s.Reaches w v) :
    x ∈ (s.bind v w).openVars ts ↔
      (x ∈ s.openVars ts ∧ x ≠ v) ∨ (v ∈ s.openVars ts ∧ x ∈ (s.resolve w).vars) := by
  have hmem : ∀ t, x ∈ ((s.bind v w).resolve t).vars ↔
      (x ∈ (s.resolve t).vars ∧ x ≠ v) ∨
        (v ∈ (s.resolve t).vars ∧ x ∈ (s.resolve w).vars) := by
    intro t
    rw [resolve_bind hs hv ho, Ty.mem_vars_subst]
    constructor
    · rintro ⟨y, hy, hx⟩
      split at hx
      · rename_i hyv
        exact .inr ⟨hyv ▸ hy, hx⟩
      · rename_i hyv
        obtain rfl := List.mem_singleton.mp hx
        exact .inl ⟨hy, hyv⟩
    · rintro (⟨hx, hxv⟩ | ⟨hvt, hx⟩)
      · exact ⟨x, hx, by simp [hxv]⟩
      · exact ⟨v, hvt, by simpa using hx⟩
  simp only [openVars, List.mem_flatMap, hmem]
  grind

/-- Two stores differ only in that the variables left in some types have their ground types in
the second. -/
structure Settles (ts : List Ty) (ρ : Assignment) (s s' : Store) : Prop where
  left : s.Acyclic
  right : s'.Acyclic
  satisfied : ρ.Satisfies s
  resolve_eq : ∀ t, s'.resolve t = (s.resolve t).subst (ρ.fill (s.openVars ts))

namespace Settles

theorem resolve_var (h : Settles ts ρ s s') (hv : s.contents? v = none) :
    s'.resolve (.var v) = ρ.fill (s.openVars ts) v := by
  rw [h.resolve_eq, resolve_unbound hv, Ty.subst_var]

theorem resolve_deref (h : Settles ts ρ s s') (t : Ty) :
    s'.resolve (s.deref t) = s'.resolve t := by
  rw [h.resolve_eq, h.resolve_eq, Store.resolve_deref h.left]

theorem eval_resolve (h : Settles ts ρ s s') (t : Ty) : (s'.resolve t).eval ρ = t.eval ρ := by
  rw [h.resolve_eq, Ty.eval_subst, ← Store.eval_resolve h.left h.satisfied t]
  simp only [Assignment.eval_fill]

theorem heads (h : Settles ts ρ s s') (ht : s'.resolve t' = s'.resolve t)
    (hn : ∀ v, s.deref t ≠ .var v) :
    Ty.Heads id (fun p q => s'.resolve q = s'.resolve p) (s.deref t) (s'.deref t') :=
  heads_of_resolve_eq h.right hn (ht.trans (h.resolve_deref t).symm)

/-- What a type stands for later is known from the variables that are still open. -/
theorem resolve_later {m' : Store} (h : Settles ts ρ s s') (hext : s'.ExtendedBy m')
    (hm' : m'.Acyclic) (t : Ty) :
    m'.resolve t = (s.resolve t).subst fun x => m'.resolve (.var x) := by
  rw [hext.resolve_eq hm', h.resolve_eq, Ty.subst_subst]
  refine Ty.subst_congr fun x hx => ?_
  rw [← h.resolve_var (unbound_of_mem_resolve h.left hx), ← hext.resolve_eq hm']

/-- What is bound from now on has to be looked at for variables only. -/
theorem extend {s₁ s₁' : Store} (h : Settles ts ρ s s')
    (hext : s.ExtendedBy s₁) (hs₁ : s₁.Acyclic) (hext' : s'.ExtendedBy s₁')
    (hs₁' : s₁'.Acyclic) (hρ : ρ.Satisfies s₁) (hvar : ∀ x, s.contents? x = none →
    s₁'.resolve (.var x) = (s₁.resolve (.var x)).subst (ρ.fill (s₁.openVars ts))) :
    Settles ts ρ s₁ s₁' where
  left := hs₁
  right := hs₁'
  satisfied := hρ
  resolve_eq t := by
    rw [h.resolve_later hext' hs₁', hext.resolve_eq hs₁ t, Ty.subst_subst]
    exact Ty.subst_congr fun x hx => hvar x (unbound_of_mem_resolve h.left hx)

/-- Of the two types that meet, one is the variable, and the other is what it is bound to. -/
theorem sides (h : Settles ts ρ s s') (hm : (s.deref t).meet (s.deref u) = .bind v w)
    (ht : s'.resolve t' = s'.resolve t) (hu : s'.resolve u' = s'.resolve u) :
    (s'.resolve t' = s'.resolve (.var v) ∧ s'.resolve u' = s'.resolve w) ∨
      (s'.resolve u' = s'.resolve (.var v) ∧ s'.resolve t' = s'.resolve w) := by
  rw [ht, hu, ← h.resolve_deref t, ← h.resolve_deref u]
  rcases Ty.meet_bind hm with ⟨hd, rfl⟩ | ⟨hd, rfl⟩
  · exact .inl ⟨by rw [hd], rfl⟩
  · exact .inr ⟨by rw [hd], rfl⟩

/-- Types that are equal under the assignment can be made equal if one of them is ground. -/
theorem solve_ground (h : Settles ts ρ s s') (he : t.eval ρ = u.eval ρ)
    (ht : s'.resolve t' = s'.resolve t) (hu : s'.resolve u' = s'.resolve u)
    (hg : (s'.resolve t').vars = [] ∨ (s'.resolve u').vars = []) :
    ∃ m', Solve s' [(t', u')] (.ok () m') := by
  have hsolve := unify_solve h.right t' u'
  cases hr : unify t' u' s' with
  | ok a m' => exact ⟨m', hr ▸ hsolve⟩
  | error c m' =>
    rw [hr] at hsolve
    obtain ⟨p, q, rfl⟩ := hsolve.mismatch_of_ground h.right (by simpa using hg)
    refine absurd ?_ (hsolve.eval_ne_of_mismatch h.right (solution_satisfies h.right ρ))
    intro e hmem
    obtain rfl := List.mem_singleton.mp hmem
    rw [eval_solution, eval_solution, ht, hu, h.eval_resolve, h.eval_resolve, he]

/-- If the variable has its ground type already, the variables of what it meets get theirs, and
no others change. -/
theorem resolve_var_of_solve {m' : Store} (h : Settles ts ρ s s')
    (hm : (s.deref t).meet (s.deref u) = .bind v w) (hvw : ρ v = w.eval ρ)
    (ht : s'.resolve t' = s'.resolve t) (hu : s'.resolve u' = s'.resolve u)
    (hopen : v ∈ s.openVars ts) (hsolve : Solve s' [(t', u')] (.ok () m'))
    (hx : s.contents? x = none) :
    m'.resolve (.var x) = ρ.fill (s.openVars ts ++ (s.resolve w).vars) x := by
  have hv := unbound_of_meet h.left hm
  have hsides := h.sides hm ht hu
  have hgrows : s'.Grows m' := hsolve.grows h.right
  have hm' := hgrows.acyclic h.right
  have hground : ∀ {y}, y ∈ s.openVars ts → s.contents? y = none →
    s'.resolve (.var y) = (ρ y).toTy :=
    fun hy hun => (h.resolve_var hun).trans (Assignment.fill_of_mem hy)
  have hkept : ∀ {y}, y ∈ s.openVars ts → s.contents? y = none →
      m'.resolve (.var y) = (ρ y).toTy := by
    intro y hy hun
    rw [hgrows.extends.resolve_ground hm' (by rw [hground hy hun, Ground.vars_toTy]),
      hground hy hun]
  by_cases hxo : x ∈ s.openVars ts
  · rw [Assignment.fill_of_mem (List.mem_append_left _ hxo), hkept hxo hx]
  by_cases hxw : x ∈ (s.resolve w).vars
  · -- What the variable meets has become its ground type, and so each part of it is ground now.
    have hw : m'.resolve w = (ρ v).toTy := by
      have heq : m'.resolve t' = m'.resolve u' := hsolve.resolve_eq h.right (t', u') (by simp)
      rw [← hkept hopen hv]
      rcases hsides with ⟨hd, hd'⟩ | ⟨hd, hd'⟩
      · rw [← hgrows.extends.resolve_inj hm' hd', ← heq, hgrows.extends.resolve_inj hm' hd]
      · rw [← hgrows.extends.resolve_inj hm' hd', heq, hgrows.extends.resolve_inj hm' hd]
    rw [h.resolve_later hgrows.extends hm', hvw, ← Store.eval_resolve h.left h.satisfied,
      Ty.toTy_eval_eq_subst] at hw
    rw [Assignment.fill_of_mem (List.mem_append_right _ hxw), Ty.eq_of_subst_eq hw x hxw]
  · have hun : s'.contents? x = none :=
      unbound_of_resolve_var h.right
        ((h.resolve_var hx).trans (Assignment.fill_of_not_mem hxo))
    have hxw' : x ∉ (s'.resolve w).vars := by
      rw [h.resolve_eq]
      exact fun hmem => hxw (Assignment.mem_vars_of_mem_subst_fill hmem)
    have hmention : ¬ s'.Mentions [(t', u')] x := by
      rcases hsides with ⟨hd, hd'⟩ | ⟨hd, hd'⟩ <;>
        simpa [Mentions, hd, hd', hground hopen hv] using hxw'
    have hkeeps : m'.contents? x = s'.contents? x := hsolve.untouched h.right hmention
    rw [Assignment.fill_of_not_mem (by simp [hxo, hxw]), resolve_unbound (hkeeps.trans hun)]

/-- A variable that has its ground type already is not bound here. -/
theorem bind_open (h : Settles ts ρ s s') (hm : (s.deref t).meet (s.deref u) = .bind v w)
    (ho : s.occurs v w = false) (hρ : ρ.Satisfies (s.bind v w))
      (ht : s'.resolve t' = s'.resolve t)
    (hu : s'.resolve u' = s'.resolve u) (hopen : v ∈ s.openVars ts) :
    ∃ m', Solve s' [(t', u')] (.ok () m') ∧ Settles ts ρ (s.bind v w) m' := by
  have hv := unbound_of_meet h.left hm
  have hr := not_reaches_of_occurs h.left ho
  have hvw : ρ v = w.eval ρ := ((satisfies_bind_iff hv).mp hρ).2
  have hnone : (s'.resolve t').vars = [] ∨ (s'.resolve u').vars = [] := by
    have hground : (s'.resolve (.var v)).vars = [] := by
      rw [h.resolve_var hv, Assignment.fill_of_mem hopen, Ground.vars_toTy]
    rcases h.sides hm ht hu with ⟨hd, _⟩ | ⟨hd, _⟩
    · exact .inl (hd ▸ hground)
    · exact .inr (hd ▸ hground)
  -- Here the two types are made equal by filling in what the variable meets, which may take
  -- many steps.
  obtain ⟨m', hsolve⟩ :=
    h.solve_ground ((eval_eq_iff_of_bind h.left h.satisfied hm).mpr hvw) ht hu hnone
  have hgrows : s'.Grows m' := hsolve.grows h.right
  refine ⟨m', hsolve, h.extend (bind_extends hv) (bind_acyclic h.left hv hr) hgrows.extends
    (hgrows.acyclic h.right) hρ fun x hx => ?_⟩
  rw [h.resolve_var_of_solve hm hvw ht hu hopen hsolve hx, resolve_bind h.left hv hr,
    resolve_unbound hx, Ty.subst_var]
  have hleft : ∀ {y}, y ∈ (s.bind v w).openVars ts ↔ (y ∈ s.openVars ts ∧ y ≠ v) ∨
      y ∈ (s.resolve w).vars := by
    intro y
    rw [mem_openVars_bind h.left hv hr, and_iff_right hopen]
  split
  · rename_i hxv
    subst hxv
    rw [Assignment.fill_of_mem (List.mem_append_left _ hopen),
      Assignment.subst_fill_of_forall_mem fun y hy => hleft.mpr (.inr hy),
        Store.eval_resolve h.left h.satisfied, hvw]
  · rename_i hxv
    rw [Ty.subst_var]
    unfold Assignment.fill
    simp only [List.mem_append, hleft, hxv, ne_eq, not_false_eq_true, and_true]

/-- The variable on the left is bound before one on the right in both stores. -/
theorem meet_bind (h : Settles ts ρ s s') (hm : (s.deref t).meet (s.deref u) = .bind v w)
    (ht : s'.resolve t' = s'.resolve t) (hu : s'.resolve u' = s'.resolve u)
    (hvar : s'.resolve (.var v) = .var v) :
    ∃ w', (s'.deref t').meet (s'.deref u') = .bind v w' ∧ s'.resolve w' = s'.resolve w := by
  have hderef : ∀ {q q'}, s.deref q = .var v → s'.resolve q' = s'.resolve q →
      s'.deref q' = .var v := by
    intro q q' hd hq
    refine deref_of_resolve_eq_var h.right ?_
    rw [hq, ← h.resolve_deref, hd, hvar]
  -- If the type on the left is a variable, it is the one that is bound, whatever stands on the
  -- right.
  by_cases hn : ∀ x, s.deref t ≠ .var x
  · obtain ⟨hd, rfl⟩ : s.deref u = .var v ∧ w = s.deref t :=
      (Ty.meet_bind hm).resolve_left fun hd => hn v hd.1
    have hheads := h.heads ht hn
    refine ⟨s'.deref t', ?_, by rw [Store.resolve_deref h.right, ht, h.resolve_deref]⟩
    rw [hderef hd hu]
    generalize s.deref t = d at hn hheads
    generalize s'.deref t' = d' at hheads ⊢
    cases hheads with
    | var x => exact (hn x rfl).elim
    | _ => rfl
  · obtain ⟨x, hd⟩ := not_forall_not.mp hn
    rw [hd] at hm
    cases hm
    refine ⟨s'.deref u', ?_, by rw [Store.resolve_deref h.right, hu, h.resolve_deref]⟩
    rw [hderef hd ht, Ty.meet]

/-- A variable that has no ground type yet is bound here too. -/
theorem bind_other (h : Settles ts ρ s s') (hm : (s.deref t).meet (s.deref u) = .bind v w)
    (ho : s.occurs v w = false) (hρ : ρ.Satisfies (s.bind v w))
      (ht : s'.resolve t' = s'.resolve t)
    (hu : s'.resolve u' = s'.resolve u) (hopen : v ∉ s.openVars ts) :
    ∃ m', Solve s' [(t', u')] (.ok () m') ∧ Settles ts ρ (s.bind v w) m' := by
  have hv := unbound_of_meet h.left hm
  have hr := not_reaches_of_occurs h.left ho
  have hvar : s'.resolve (.var v) = .var v :=
    (h.resolve_var hv).trans (Assignment.fill_of_not_mem hopen)
  have hv' := unbound_of_resolve_var h.right hvar
  obtain ⟨w', hm', hw'⟩ := h.meet_bind hm ht hu hvar
  -- What is filled in is ground, so nothing new leads to the variable.
  have hr' : ¬ s'.Reaches w' v := by
    intro hreach
    have hmem := (mem_vars_resolve h.right).mpr ⟨hreach, hv'⟩
    rw [hw', h.resolve_eq] at hmem
    exact hr ((mem_vars_resolve h.left).mp (Assignment.mem_vars_of_mem_subst_fill hmem)).1
  have ho' : s'.occurs v w' = false := by
    rw [← Bool.not_eq_true, occurs_iff h.right]
    exact hr'
  refine ⟨s'.bind v w', .bind hm' ho' (.done _),
    h.extend (bind_extends hv) (bind_acyclic h.left hv hr)
    (bind_extends hv') (bind_acyclic h.right hv' hr') hρ fun x hx => ?_⟩
  have hsame : ρ.fill ((s.bind v w).openVars ts) = ρ.fill (s.openVars ts) := by
    funext y
    unfold Assignment.fill
    have hy : y ∈ (s.bind v w).openVars ts ↔ y ∈ s.openVars ts := by
      rw [mem_openVars_bind h.left hv hr]
      grind
    simp only [hy]
  rw [resolve_bind h.right hv' hr', h.resolve_var hx, resolve_bind h.left hv hr,
    resolve_unbound hx, Ty.subst_var, hsame]
  split
  · rename_i hxv
    subst hxv
    rw [Assignment.fill_of_not_mem hopen, Ty.subst_var, if_pos rfl, hw', h.resolve_eq]
  · rename_i hxv
    rw [Ty.subst_var]
    unfold Assignment.fill
    split
    · rw [Ty.subst_of_vars_eq_nil (Ground.vars_toTy _)]
    · rw [Ty.subst_var, if_neg hxv]

theorem bind (h : Settles ts ρ s s') (hm : (s.deref t).meet (s.deref u) = .bind v w)
    (ho : s.occurs v w = false) (hρ : ρ.Satisfies (s.bind v w))
      (ht : s'.resolve t' = s'.resolve t)
    (hu : s'.resolve u' = s'.resolve u) :
    ∃ m', Solve s' [(t', u')] (.ok () m') ∧ Settles ts ρ (s.bind v w) m' := by
  by_cases hopen : v ∈ s.openVars ts
  · exact h.bind_open hm ho hρ ht hu hopen
  · exact h.bind_other hm ho hρ ht hu hopen

theorem meet_parts (h : Settles ts ρ s s') (hm : (s.deref t).meet (s.deref u) = .parts eqs)
    (ht : s'.resolve t' = s'.resolve t) (hu : s'.resolve u' = s'.resolve u) :
    ∃ eqs', (s'.deref t').meet (s'.deref u') = .parts eqs' ∧
      List.Forall₂ (Ty.RelEq fun p q => s'.resolve q = s'.resolve p) eqs eqs' := by
  have hn : (∀ v, s.deref t ≠ .var v) ∧ ∀ v, s.deref u ≠ .var v := by
    rcases Ty.meet_parts hm with ⟨b, hd, hd', _⟩ | ⟨l, r, l', r', hd, hd', _⟩
      | ⟨ps, r, qs, q, hd, hd', _⟩ <;> simp [hd, hd']
  exact (h.heads ht hn.1).meet_parts (h.heads hu hn.2) hm

end Settles

/-- Equations that can be worked off in the first store, with a result that the assignment
satisfies, can be worked off in the second. -/
theorem Solve.settled
    (hsolve : Solve s eqs (.ok () m)) (h : Settles ts ρ s s') (hρ : ρ.Satisfies m)
    (heqs : List.Forall₂ (Ty.RelEq fun t t' => s'.resolve t' = s'.resolve t) eqs eqs') :
    ∃ m', Solve s' eqs' (.ok () m') ∧ Settles ts ρ m m' := by
  generalize hr : EStateM.Result.ok () m = r at hsolve
  induction hsolve generalizing s' eqs' with
  | done s =>
    cases hr
    cases heqs
    exact ⟨s', .done s', h⟩
  | bind hm ho hsolve ih =>
    subst hr
    cases heqs with
    | cons he heqs =>
      have hbound := (grows_of_meet h.left hm ho).acyclic h.left
      have hρ' := ((hsolve.satisfies_iff hbound).mp hρ).1
      obtain ⟨s₁', hfirst, h₁⟩ := h.bind hm ho hρ' he.1 he.2
      have hgrows : s'.Grows s₁' := hfirst.grows h.right
      -- The equations that are left were related by the store before, and are by every later
      -- one.
      have hlater : List.Forall₂ (Ty.RelEq fun t t' => s₁'.resolve t' = s₁'.resolve t) _ _ :=
        heqs.imp fun _ _ he =>
          ⟨hgrows.extends.resolve_inj h₁.right he.1, hgrows.extends.resolve_inj h₁.right he.2⟩
      obtain ⟨m', hrest, hm'⟩ := ih h₁ hlater rfl
      exact ⟨m', hfirst.append hrest, hm'⟩
  | cycle => cases hr
  | parts hm _ ih =>
    cases heqs with
    | cons he heqs =>
      obtain ⟨ds', hparts, hds⟩ := h.meet_parts hm he.1 he.2
      obtain ⟨m', hrest, hm'⟩ := ih h (List.rel_append hds heqs) hr
      exact ⟨m', .parts hparts hrest, hm'⟩
  | clash => cases hr

/-- Variables that are not bound can be given their ground types one after the other. -/
theorem exists_filled (hs : s.Acyclic) (ρ : Assignment) (vs : List TyVar)
    (hvs : ∀ v ∈ vs, s.contents? v = none) :
    ∃ s' : Store, s'.Acyclic ∧ (∀ t, s'.resolve t = (s.resolve t).subst (ρ.fill vs)) ∧
      ∀ v t, s'.contents? v = some t → s.contents? v = some t ∨ v ∈ vs := by
  induction vs with
  | nil =>
    refine ⟨s, hs, fun t => ?_, fun _ _ h => .inl h⟩
    exact ((Ty.subst_congr fun v _ => Assignment.fill_of_not_mem List.not_mem_nil).trans
      (Ty.subst_id _)).symm
  | cons v vs ih =>
    obtain ⟨hv, hvs⟩ := List.forall_mem_cons.mp hvs
    obtain ⟨s', hs', hresolve, hbound⟩ := ih hvs
    -- A variable may come twice. It is bound for the last of its places.
    by_cases hmem : v ∈ vs
    · refine ⟨s', hs', fun t => ?_, fun x t h =>
        (hbound x t h).imp_right (List.mem_cons_of_mem v)⟩
      have hfill : ρ.fill (v :: vs) = ρ.fill vs := by
        funext x
        unfold Assignment.fill
        simp only [List.mem_cons]
        grind
      rw [hresolve, hfill]
    · have hvar : s'.resolve (.var v) = .var v := by
        rw [hresolve, resolve_unbound hv, Ty.subst_var, Assignment.fill_of_not_mem hmem]
      have hv' := unbound_of_resolve_var hs' hvar
      have hr : ¬ s'.Reaches (ρ v).toTy v := by simp [Reaches]
      refine ⟨s'.bind v (ρ v).toTy, bind_acyclic hs' hv' hr, fun t => ?_, fun x t h => ?_⟩
      · rw [resolve_bind hs' hv' hr, resolve_closed hs' (Ground.vars_toTy _), hresolve,
          Ty.subst_subst]
        refine Ty.subst_congr fun x _ => ?_
        by_cases hx : x ∈ vs
        · rw [Assignment.fill_of_mem hx, Assignment.fill_of_mem (List.mem_cons_of_mem v hx),
            Ty.subst_of_vars_eq_nil (Ground.vars_toTy _)]
        · rw [Assignment.fill_of_not_mem hx, Ty.subst_var]
          unfold Assignment.fill
          grind
      · rw [contents?_bind] at h
        split at h
        · rename_i hxv
          exact .inr (hxv ▸ List.mem_cons_self)
        · exact (hbound x t h).imp_right (List.mem_cons_of_mem v)

/-- What is left in types can be given its ground types. -/
theorem exists_settles (hs : s.Acyclic) (hρ : ρ.Satisfies s) (ts : List Ty) :
    ∃ s', Settles ts ρ s s' ∧ ∀ v t, s'.contents? v = some t → s.contents? v = some t ∨
      v ∈ s.openVars ts := by
  have hopen : ∀ v ∈ s.openVars ts, s.contents? v = none := by
    intro v hv
    obtain ⟨t, _, hv⟩ := List.mem_flatMap.mp hv
    exact unbound_of_mem_resolve hs hv
  obtain ⟨s', hs', hresolve, hbound⟩ := exists_filled hs ρ (s.openVars ts) hopen
  exact ⟨s', ⟨hs, hs', hρ, hresolve⟩, hbound⟩

/-- Types of which nothing is left open in the first store are the same in both. -/
theorem Settles.resolve_of_closed (h : Settles ts ρ s s')
    (hts : ∀ t ∈ ts, (s.resolve t).vars = []) (t : Ty) : s'.resolve t = s.resolve t := by
  have hopen : s.openVars ts = [] := List.flatMap_eq_nil_iff.mpr hts
  rw [h.resolve_eq, hopen]
  exact (Ty.subst_congr fun v _ => Assignment.fill_of_not_mem List.not_mem_nil).trans
    (Ty.subst_id _)

/-- The types themselves are ground in the second store. -/
theorem Settles.resolve_of_mem (h : Settles ts ρ s s') (ht : t ∈ ts) :
    s'.resolve t = (t.eval ρ).toTy := by
  rw [h.resolve_eq, ← Store.eval_resolve h.left h.satisfied t]
  exact Assignment.subst_fill_of_forall_mem fun v hv => List.mem_flatMap.mpr ⟨t, ht, hv⟩

end Store

end TypedL5
