import Mathlib.Data.List.Zip
import TypedL5.Proofs.Refusal
import TypedL5.Proofs.Simulation

/-!
It does not matter which of two types is on the left when they are made equal.

Where two variables meet, either may be bound to the other, and from there on the stores
differ. They keep the same solutions though, and these decide everything else: which types are
the same, how a type begins, and whether a variable may be bound.
-/
namespace TypedL5

namespace Ty

variable {t u w : Ty} {v : TyVar} {eqs : List (Ty × Ty)}

theorem map_eq_of_eval_eq
    {ps qs : List Ty} (ih : ∀ p ∈ ps, ∀ q, (∀ ρ, p.eval ρ = q.eval ρ) → p = q)
    (h : ∀ ρ, ps.map (eval ρ) = qs.map (eval ρ)) : ps = qs := by
  induction ps generalizing qs with
  | nil => simpa using (h fun _ => .base .void).symm
  | cons p ps ihp =>
    cases qs with
    | nil => simpa using h fun _ => .base .void
    | cons q qs =>
      simp only [List.map_cons, List.cons.injEq, forall_and] at h
      obtain ⟨hp, hps⟩ := List.forall_mem_cons.mp ih
      rw [hp q h.1, ihp hps h.2]

/-- Different types are told apart by some assignment. -/
theorem eq_of_eval_eq (h : ∀ ρ, t.eval ρ = u.eval ρ) : t = u := by
  -- Between them these two tell a variable from all that is none.
  have hbase := h fun _ => .base .void
  have hpair := h fun _ => .pair (.base .void) (.base .void)
  induction t generalizing u with
  | base b => cases u <;> simp_all
  | var v =>
    cases u with
    | base b => simp at hpair
    | var w =>
      by_contra hne
      have hvw : w ≠ v := by
        rintro rfl
        exact hne rfl
      simpa [hvw] using h fun x => if x = v then .base .void else .base .number
    | pair l r => simp at hbase
    | proc ps r => simp at hbase
  | pair l r ihl ihr =>
    cases u with
    | pair l' r' =>
      simp only [eval_pair, Ground.pair.injEq, forall_and] at h
      rw [ihl h.1 (h.1 _) (h.1 _), ihr h.2 (h.2 _) (h.2 _)]
    | _ => simp at hbase
  | proc ps r ihp ihr =>
    cases u with
    | proc qs q =>
      simp only [eval_proc, Ground.proc.injEq, forall_and] at h
      rw [ihr h.2 (h.2 _) (h.2 _),
        map_eq_of_eval_eq (fun p hp q he => ihp p hp he (he _) (he _)) h.1]
    | _ => simp at hbase

theorem meet_swap_bind (h : t.meet u = .bind v w) : ∃ v' w', u.meet t = .bind v' w' := by
  cases t <;> cases u <;> grind [meet]

/-- Turned around, two types come down to the same parts turned around. -/
theorem meet_swap_parts (h : t.meet u = .parts eqs) :
    u.meet t = .parts (eqs.map Prod.swap) := by
  rcases meet_parts h with ⟨b, rfl, rfl, rfl⟩ | ⟨l, r, l', r', rfl, rfl, rfl⟩ |
    ⟨ps, r, qs, q, rfl, rfl, hl, rfl⟩
  · exact if_pos rfl
  · rfl
  · simp [meet, hl, List.zip_swap]

theorem meet_swap_clash (h : t.meet u = .clash) : u.meet t = .clash := by
  cases t <;> cases u <;> grind [meet]

end Ty

namespace Store

variable {s s' : Store} {t t' u u' w w' : Ty} {v v' : TyVar} {eqs eqs' : List (Ty × Ty)}
  {r : EStateM.Result Clash Store Unit}

/-- Two stores are satisfied by the same assignments. -/
def SameSolutions (s s' : Store) : Prop := ∀ ρ : Assignment, ρ.Satisfies s ↔ ρ.Satisfies s'

/-- Types stand for the same exactly if no assignment of the store tells them apart. -/
theorem resolve_eq_iff (hs : s.Acyclic) :
    s.resolve t = s.resolve u ↔ ∀ ρ : Assignment, ρ.Satisfies s → t.eval ρ = u.eval ρ := by
  constructor
  · intro h ρ hρ
    rw [← eval_resolve hs hρ t, h, eval_resolve hs hρ]
  · intro h
    apply Ty.eq_of_eval_eq
    intro θ
    rw [← eval_solution, ← eval_solution]
    exact h _ (solution_satisfies hs θ)

/-- The solutions of a store decide which types are the same in it. -/
theorem SameSolutions.resolve_eq_iff (h : SameSolutions s s') (hs : s.Acyclic)
    (hs' : s'.Acyclic) :
    s.resolve t = s.resolve u ↔ s'.resolve t = s'.resolve u := by
  rw [Store.resolve_eq_iff hs, Store.resolve_eq_iff hs']
  exact forall_congr' fun ρ => imp_congr_left (h ρ)

/-- The variable at the end of a chain, if there is one. -/
def chief (s : Store) (v : TyVar) : TyVar :=
  match s.deref (.var v) with
  | .var w => w
  | _ => v

theorem chief_of_resolve (hs : s.Acyclic) (h : s.resolve (.var v) = .var v') :
    s.chief v = v' := by
  rw [chief, deref_of_resolve_eq_var hs h]

/-- Types that are the same begin in the same way in all stores with the same solutions. -/
theorem SameSolutions.heads (h : SameSolutions s s') (hs : s.Acyclic) (hs' : s'.Acyclic)
    (ht : s'.resolve t = s'.resolve t') :
    Ty.Heads s'.chief (fun p q => s'.resolve p = s'.resolve q) (s.deref t) (s'.deref t') := by
  have hsame : s'.resolve (s.deref t) = s'.resolve t' := by
    rw [← ht, ← h.resolve_eq_iff hs hs', resolve_deref hs]
  have hr := heads_resolve hs' t'
  cases hd : s.deref t with
  | base b =>
    rw [← hsame, hd, resolve_base] at hr
    generalize s'.deref t' = a at hr ⊢
    cases hr
    exact .base b
  | var v =>
    -- The variable is not bound in the one store, so that no type but a variable is the same
    -- as it.
    have hv := resolve_unbound (unbound_of_deref hs hd)
    rw [hd] at hsame
    have hvar : s.resolve (s'.deref t') = .var v := by
      rw [← hv, h.resolve_eq_iff hs hs', resolve_deref hs', hsame]
    cases hd' : s'.deref t' with
    | var v' =>
      have hchief : s'.chief v = v' := by
        apply chief_of_resolve hs'
        rw [hsame, ← resolve_deref hs', hd', resolve_unbound (unbound_of_deref hs' hd')]
      exact hchief ▸ .var v
    | _ => simp [hd'] at hvar
  | pair l r =>
    rw [← hsame, hd, resolve_pair] at hr
    generalize s'.deref t' = a at hr ⊢
    cases hr with
    | pair hl hr => exact .pair hl.symm hr.symm
  | proc ps r =>
    rw [← hsame, hd, resolve_proc] at hr
    generalize s'.deref t' = a at hr ⊢
    cases hr with
    | proc hps hr =>
      rw [List.forall₂_map_right_iff] at hps
      exact .proc (hps.flip.imp fun _ _ => Eq.symm) hr.symm

/-- Two equations say the same with their sides exchanged. -/
def Turned (s : Store) (e e' : Ty × Ty) : Prop :=
  s.resolve e.1 = s.resolve e'.2 ∧ s.resolve e.2 = s.resolve e'.1

theorem Turned.later {e e' : Ty × Ty} (h : s.Turned e e') (hext : s.ExtendedBy s')
    (hs' : s'.Acyclic) :
    s'.Turned e e' :=
  ⟨hext.resolve_inj hs' h.1, hext.resolve_inj hs' h.2⟩

/-- Where one order binds a variable, so does the other, though perhaps another one. -/
theorem SameSolutions.meet_bind (h : SameSolutions s s') (hs : s.Acyclic) (hs' : s'.Acyclic)
    (he : s'.Turned (t, u) (t', u')) (hm : (s.deref t).meet (s.deref u) = .bind v w) :
    ∃ v' w', (s'.deref t').meet (s'.deref u') = .bind v' w' := by
  rcases (h.heads hs hs' he.1).meet_bind (h.heads hs hs' he.2) hm with ⟨_, _, hm'⟩
    | ⟨_, _, hm'⟩
  · exact Ty.meet_swap_bind hm'
  · exact Ty.meet_swap_bind hm'

theorem SameSolutions.meet_parts (h : SameSolutions s s') (hs : s.Acyclic) (hs' : s'.Acyclic)
    (he : s'.Turned (t, u) (t', u')) (hm : (s.deref t).meet (s.deref u) = .parts eqs) :
    ∃ eqs', (s'.deref t').meet (s'.deref u') = .parts eqs' ∧
      List.Forall₂ s'.Turned eqs eqs' := by
  obtain ⟨ds, hm', hds⟩ := (h.heads hs hs' he.1).meet_parts (h.heads hs hs' he.2) hm
  refine ⟨ds.map Prod.swap, Ty.meet_swap_parts hm', ?_⟩
  rw [List.forall₂_map_right_iff]
  exact hds.imp fun _ _ hd => hd

theorem SameSolutions.meet_clash (h : SameSolutions s s') (hs : s.Acyclic) (hs' : s'.Acyclic)
    (he : s'.Turned (t, u) (t', u')) (hm : (s.deref t).meet (s.deref u) = .clash) :
    (s'.deref t').meet (s'.deref u') = .clash :=
  Ty.meet_swap_clash ((h.heads hs hs' he.1).meet_clash (h.heads hs hs' he.2) hm)

theorem SameSolutions.eval_eq_iff (h : SameSolutions s s') (hs' : s'.Acyclic)
    (he : s'.Turned (t, u) (t', u')) {ρ : Assignment} (hρ : ρ.Satisfies s) :
    t.eval ρ = u.eval ρ ↔ t'.eval ρ = u'.eval ρ := by
  have hρ' := (h ρ).mp hρ
  rw [(Store.resolve_eq_iff hs').mp he.1 ρ hρ', (Store.resolve_eq_iff hs').mp he.2 ρ hρ']
  exact eq_comm

/-- The occurs check comes out alike. -/
theorem SameSolutions.occurs_iff (h : SameSolutions s s') (hs : s.Acyclic) (hs' : s'.Acyclic)
    (he : s'.Turned (t, u) (t', u')) (hm : (s.deref t).meet (s.deref u) = .bind v w)
    (hm' : (s'.deref t').meet (s'.deref u') = .bind v' w') :
    s.occurs v w = true ↔ s'.occurs v' w' = true := by
  rw [occurs_iff_of_meet hs hm, occurs_iff_of_meet hs' hm',
    h.resolve_eq_iff hs hs', he.1, he.2]
  refine or_congr eq_comm (forall_congr' fun ρ => ?_)
  rw [← h ρ]
  exact imp_congr_right fun hρ => not_congr (h.eval_eq_iff hs' he hρ)

/-- Whichever of two variables is bound to the other, the same assignments are left. -/
theorem SameSolutions.bind (h : SameSolutions s s') (hs : s.Acyclic) (hs' : s'.Acyclic)
    (he : s'.Turned (t, u) (t', u')) (hm : (s.deref t).meet (s.deref u) = .bind v w)
    (hm' : (s'.deref t').meet (s'.deref u') = .bind v' w') :
    SameSolutions (s.bind v w) (s'.bind v' w') := by
  intro ρ
  rw [satisfies_bind_iff (unbound_of_meet hs hm),
    satisfies_bind_iff (unbound_of_meet hs' hm'), ← h ρ]
  refine and_congr_right fun hρ => ?_
  rw [← eval_eq_iff_of_bind hs hρ hm, ← eval_eq_iff_of_bind hs' ((h ρ).mp hρ) hm']
  exact h.eval_eq_iff hs' he hρ

/-- Each step is answered by a step on the equation with its sides exchanged. -/
theorem Solve.turned (hsolve : Solve s eqs r) (h : SameSolutions s s') (hs : s.Acyclic)
    (hs' : s'.Acyclic) (heqs : List.Forall₂ s'.Turned eqs eqs') :
    ∃ r', Solve s' eqs' r' ∧ SameEnd r r' ∧ SameSolutions (endState r) (endState r') := by
  induction hsolve generalizing s' eqs' with
  | done s =>
    cases heqs
    exact ⟨_, .done s', trivial, h⟩
  | bind hm ho _ ih =>
    cases heqs with
    | cons he heqs =>
      -- It may be another variable that is bound here, but the same assignments are left.
      obtain ⟨v', w', hm'⟩ := h.meet_bind hs hs' he hm
      have ho' : s'.occurs v' w' = false := by
        rwa [← Bool.not_eq_true, ← h.occurs_iff hs hs' he hm hm', Bool.not_eq_true]
      have hgrows := grows_of_meet hs' hm' ho'
      have hacyclic := hgrows.acyclic hs'
      obtain ⟨r', hr', hend⟩ :=
        ih (h.bind hs hs' he hm hm') ((grows_of_meet hs hm ho).acyclic hs) hacyclic
        (heqs.imp fun _ _ hd => hd.later hgrows.extends hacyclic)
      exact ⟨r', .bind hm' ho' hr', hend⟩
  | cycle _ hm ho =>
    cases heqs with
    | cons he heqs =>
      obtain ⟨v', w', hm'⟩ := h.meet_bind hs hs' he hm
      have ho' := (h.occurs_iff hs hs' he hm hm').mp ho
      exact ⟨_, .cycle _ hm' ho', fun _ _ _ _ => rfl, h⟩
  | parts hm _ ih =>
    cases heqs with
    | cons he heqs =>
      obtain ⟨ds', hm', hds⟩ := h.meet_parts hs hs' he hm
      obtain ⟨r', hr', hend⟩ := ih h hs hs' (List.rel_append hds heqs)
      exact ⟨r', .parts hm' hr', hend⟩
  | clash _ hm =>
    cases heqs with
    | cons he heqs =>
      exact ⟨_, .clash _ (h.meet_clash hs hs' he hm), fun _ _ _ _ => rfl, h⟩

/-- With their sides exchanged two types are made equal if they were before, and they fail in
the same way if they did. In either case the same assignments satisfy the store that is
left. -/
theorem unify_symm (hs : s.Acyclic) (t u : Ty) (e : Exp) :
    ((∃ s', unify t u s = .ok () s') ↔ ∃ s', unify u t s = .ok () s') ∧
    (∀ c s₁ c' s₂, unify t u s = .error c s₁ → unify u t s = .error c' s₂ →
      (Failure.ofClash s₁ e c).kind = (Failure.ofClash s₂ e c').kind) ∧
    ∀ ρ : Assignment, ρ.Satisfies (endState (unify t u s)) ↔
      ρ.Satisfies (endState (unify u t s)) := by
  have heqs : List.Forall₂ s.Turned [(t, u)] [(u, t)] := .cons ⟨rfl, rfl⟩ .nil
  obtain ⟨r', hr', hend, hsol⟩ := (unify_solve hs t u).turned (fun _ => Iff.rfl) hs hs heqs
  rw [hr'.unique (unify_solve hs u t)] at hend hsol
  refine ⟨?_, ?_, hsol⟩
  · cases h : unify t u s <;> cases h' : unify u t s <;> simp_all [SameEnd]
  · intro c s₁ c' s₂ h h'
    rw [h, h'] at hend
    exact hend _ _ _ _

/-- The first parameters are linked the one way or the other, and the second ones close a cycle
through the link. -/
theorem unify_symm_linked :
    let a : TyVar := ⟨0, "a"⟩
    let b : TyVar := ⟨1, "b"⟩
    let c : TyVar := ⟨2, "c"⟩
    let s : Store := ⟨[(c, .var a)]⟩
    let s₁ : Store := ⟨[(a, .var b), (c, .var a)]⟩
    let s₂ : Store := ⟨[(b, .var a), (c, .var a)]⟩
    let p : Ty := .pair (.var b) .number
    let t : Ty := .proc [.var c, .var a] .void
    let u : Ty := .proc [.var b, p] .void
    s.Acyclic ∧ unify t u s = .error (.cycle b p) s₁ ∧ unify u t s = .error (.cycle a p) s₂ ∧
      (Failure.ofClash s₁ (.var "x") (.cycle b p)).kind =
        (Failure.ofClash s₂ (.var "x") (.cycle a p)).kind ∧
      ∀ ρ : Assignment, ρ.Satisfies s₁ ↔ ρ.Satisfies s₂ := by
  intro a b c s s₁ s₂ p t u
  have hs : s.Acyclic :=
    bind_acyclic acyclic_empty rfl (not_reaches_of_occurs acyclic_empty rfl)
  have h₁ : unify t u s = .error (.cycle b p) s₁ := rfl
  have h₂ : unify u t s = .error (.cycle a p) s₂ := rfl
  obtain ⟨-, hkind, hsol⟩ := unify_symm hs t u (.var "x")
  exact ⟨hs, h₁, h₂, hkind _ _ _ _ h₁ h₂, hsol⟩

end Store

end TypedL5
