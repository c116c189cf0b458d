import TypedL5.Proofs.Lockstep
import TypedL5.Proofs.Mirror

/-! Checks of an expression, side by side with checks of it with other types for its own. -/
namespace TypedL5

open CheckState

variable {f : TyVar → TyVar} {D : Set TyVar} {φ : Ty → Ty} {env env' : Env}
  {st st' m m' : CheckState} {ts : List Ty} {xs : List String}

/-- The types that two checks are given, written or at names, are the same up to a renaming. -/
structure Paired (f : TyVar → TyVar) (D : Set TyVar) (φ : Ty → Ty) (env env' : Env)
    (ts : List Ty) (xs : List String) (st st' : CheckState) : Prop where
  linked : Linked f D st st'
  tys : ∀ t ∈ ts, Alike f D st st' t (φ t)
  names : Env.Rel (Alike f D st st') env env' xs

namespace Paired

theorem later (h : Paired f D φ env env' ts xs st st') (hm : Follows f D st st' m m') :
    Paired f D φ env env' ts xs m m' where
  linked := hm.linked
  tys t ht := hm.stays _ _ (h.tys t ht)
  names := h.names.imp hm.stays

theorem tail {t : Ty} (h : Paired f D φ env env' (t :: ts) xs st st') :
    Paired f D φ env env' ts xs st st' :=
  ⟨h.linked, fun u hu => h.tys u (List.mem_cons_of_mem t hu), h.names⟩

end Paired

theorem alike_closed {t : Ty} (h : Linked f D st st') (ht : t.vars = []) :
    Alike f D st st' t t := by
  have hs := Store.resolve_closed h.left.acyclic ht
  have hs' := Store.resolve_closed h.right.acyclic ht
  refine ⟨?_, by simp [hs, Ty.Within, ht]⟩
  rw [hs, hs', Ty.rename, Ty.subst_of_vars_eq_nil ht]

theorem Cause.kind_mapTy (φ : Ty → Ty) (c : Cause) (s s' : Store) :
    (c.failure s).kind = ((c.mapTy φ).failure s').kind := by
  cases c with
  | clash c e => cases c <;> rfl
  | _ => rfl

/-- An operator that is no procedure is refused for the same reason on both sides. -/
theorem Mirrors.stuck {t t' : Ty} {g : Exp}
    {es : List Exp} {Q : Ty → Ty → CheckState → CheckState → Prop} (h : Linked f D st st')
    (ht : Alike f D st st' t t') (hn : ¬ ∃ ps r, st.store.deref t = .proc ps r) :
    Mirrors f D st st' (Exp.applied env g es (st.store.deref t) st)
      (Exp.applied env' (g.mapTy φ) (Exp.mapTyAll φ es) (st'.store.deref t') st') Q := by
  have hheads := Store.Alike.heads ht h.left.acyclic h.right.acyclic
  generalize st.store.deref t = u at hheads hn ⊢
  generalize st'.store.deref t' = u' at hheads ⊢
  cases hheads with
  | proc _ _ => exact (hn ⟨_, _, rfl⟩).elim
  | base b => exact .throw h fun _ _ => rfl
  | var v => exact .throw h fun _ _ => rfl
  | pair hl hr => exact .throw h fun _ _ => rfl

/-- Checks in two states that mirror each other. -/
def Lockstep.mirror (f : TyVar → TyVar) (D : Set TyVar) (φ : Ty → Ty) : Lockstep where
  onTy := φ
  Sees _ _ := True
  Linked := CheckState.Linked f D
  Alike := CheckState.Alike f D
  Follows := CheckState.Follows f D
  Runs := Mirrors f D
  sees_extend _ _ := trivial
  follows_trans := .trans
  linked_of_follows := CheckState.Follows.linked
  alike_of_follows h := h.stays _ _
  alike_closed := TypedL5.alike_closed
  alike_proc hps hr := Store.alike_proc.mpr ⟨hps, hr⟩
  pure := .pure
  throw c h := .throw h (c.kind_mapTy φ)
  bind := Mirrors.bind
  unbound _ h _ := .throw h fun _ _ => rfl
  primitive op h := .primitive h op
  derived _ := .derived
  unify e h ht hu := .unify h ht hu e _
  headed h ht hd := by
    have hheads := Store.Alike.heads ht h.left.acyclic h.right.acyclic
    rw [hd] at hheads
    generalize Store.deref _ _ = u at hheads ⊢
    cases hheads with
    | proc hps hr => exact ⟨_, _, rfl, hps, hr⟩
  stuck := .stuck

theorem mirrors_typeOf {e : Exp} (h : Paired f D φ env env' e.tys e.free st st') :
    Mirrors f D st st' (e.typeOf env st) ((e.mapTy φ).typeOf env' st') fun t t' m m' =>
      Alike f D m m' t t' :=
  (Lockstep.mirror f D φ).typeOf
    ⟨h.linked, trivial, fun t ht => h.tys t (e.used_subset_tys ht), h.names⟩

end TypedL5
